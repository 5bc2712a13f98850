import BurstBuffer.Invariants.Progress

/-!
# A run that leaves the 32-bit range of the inode table

Writing the blocks `0, 1, 2, …` of one volume takes the inodes in order. The
inode `2^26` starts `2^32` bytes into the table, where the byte distance wraps to
`0`: the step that takes it stores into inode `0` and queues inode `0`.
-/
namespace BurstBuffer.Source

open Library

variable {C : CuckoohashMap} {N : Nat}

def zeroVolume : VolumeIdx := 0

/-- After writing the blocks below `k` of the first volume in order. -/
structure Filled (memory : State C N) (limit k : Nat) (s : State C N) : Prop where
  ok : SystemOk limit s
  turn : s.freeDequeueIdx = k
  free : ∀ q, (s.inodeFreeLfqueue q).values = initialFree q ((List.finRange N).drop k)
  count : s.inodeFreeCount + k = N
  table : (s.volumeTable zeroVolume).hashTable.isSome
  bound : ∀ v lbn i, validInode s v lbn = some i ↔ v = zeroVolume ∧ lbn < k ∧ i.val = lbn
  later : ∀ j : InodeIdx N, k ≤ j.val →
    s.blockOf j = memory.blockTable (Fin.castAdd maxVolumeEntry j)
  first : 0 < k → visibleImage s zeroVolume 0 = some fun _ => 0
  files : s.files = memory.files

theorem drop_finRange {k : Nat} (inside : k < N) :
    (List.finRange N).drop k = (⟨k, inside⟩ : Fin N) :: (List.finRange N).drop (k + 1) := by
  rw [List.drop_eq_getElem_cons (by simpa using inside)]
  simp

theorem initialFree_head {k : Nat} (inside : k < N) (q : Fin defaultNumFree) :
    initialFree q ((List.finRange N).drop k) =
      if roundRobin defaultNumFree k = q then
        ⟨k, inside⟩ :: initialFree q ((List.finRange N).drop (k + 1))
      else initialFree q ((List.finRange N).drop (k + 1)) := by
  rw [drop_finRange inside, initialFree, List.filter_cons]
  simp only [decide_eq_true_eq]
  rfl

/-- The inodes from `k` on have not been taken yet. -/
structure Untaken (k : Nat) (s : State C N) : Prop where
  turn : s.freeDequeueIdx = k
  free : ∀ q, (s.inodeFreeLfqueue q).values = initialFree q ((List.finRange N).drop k)

namespace Untaken

variable {k : Nat} {s t : State C N}

/-- The next new block takes inode `k`. -/
theorem head (untaken : Untaken k s) (inside : k < N) :
    ∃ rest, (s.inodeFreeLfqueue (roundRobin defaultNumFree s.freeDequeueIdx)).dequeue =
      some (⟨k, inside⟩, rest) ∧
      rest.values = initialFree (roundRobin defaultNumFree k) ((List.finRange N).drop (k + 1)) := by
  have values := untaken.free (roundRobin defaultNumFree k)
  rw [initialFree_head inside, if_pos rfl] at values
  have fits := (s.inodeFreeLfqueue (roundRobin defaultNumFree k)).fits
  rw [values, List.length_cons] at fits
  refine ⟨⟨_, Nat.le_of_succ_le fits⟩, ?_, rfl⟩
  rw [untaken.turn]
  exact LfQueue.dequeue_eq_some.mpr values

theorem next (untaken : Untaken k s) (inside : k < N) {rest : LfQueue (InodeIdx N) N}
    (values : rest.values =
      initialFree (roundRobin defaultNumFree k) ((List.finRange N).drop (k + 1)))
    (queues : t.inodeFreeLfqueue = Function.update s.inodeFreeLfqueue
      (roundRobin defaultNumFree s.freeDequeueIdx) rest)
    (turn : t.freeDequeueIdx = s.freeDequeueIdx + 1) : Untaken (k + 1) t := by
  refine ⟨by rw [turn, untaken.turn], fun q => ?_⟩
  rw [queues, untaken.turn]
  by_cases same : q = roundRobin defaultNumFree k
  · subst q
    rw [Function.update_self, values]
  · rw [Function.update_of_ne same, untaken.free, initialFree_head inside, if_neg (Ne.symm same)]

/-- An inode that comes back does not change that. -/
theorem head_released (untaken : Untaken k s) (inside : k < N) {i : InodeIdx N}
    {r : LfQueue (InodeIdx N) N}
    (enqueued : (s.inodeFreeLfqueue (roundRobin defaultNumFree s.freeEnqueueIdx)).enqueue i =
      some r)
    (queues : t.inodeFreeLfqueue = Function.update s.inodeFreeLfqueue
      (roundRobin defaultNumFree s.freeEnqueueIdx) r)
    (turn : t.freeDequeueIdx = s.freeDequeueIdx) :
    ∃ rest, (t.inodeFreeLfqueue (roundRobin defaultNumFree t.freeDequeueIdx)).dequeue =
      some (⟨k, inside⟩, rest) := by
  obtain ⟨rest, head, _⟩ := untaken.head inside
  rw [turn, queues]
  by_cases same : roundRobin defaultNumFree s.freeDequeueIdx =
      roundRobin defaultNumFree s.freeEnqueueIdx
  · have values := LfQueue.enqueue_eq_some.mp enqueued
    rw [← same, LfQueue.dequeue_eq_some.mp head] at values
    have fits := r.fits
    rw [values, List.cons_append, List.length_cons] at fits
    rw [same, Function.update_self]
    exact ⟨⟨rest.values ++ [i], Nat.le_of_succ_le fits⟩, LfQueue.dequeue_eq_some.mpr values⟩
  · rw [Function.update_of_ne same]
    exact ⟨rest, head⟩

theorem room (untaken : Untaken k s) (positive : 0 < k) (inside : k ≤ N) (q : Fin defaultNumFree) :
    (s.inodeFreeLfqueue q).values.length < N := by
  have part : (initialFree q ((List.finRange N).drop k)).length ≤ N - k := by
    refine Nat.le_trans (List.length_filter_le _ _) ?_
    rw [List.length_drop, List.length_finRange]
  rw [untaken.free]
  omega

end Untaken

namespace Filled

variable {memory s : State C N} {limit k : Nat}

theorem untaken (filled : Filled memory limit k s) : Untaken k s :=
  ⟨filled.turn, filled.free⟩

theorem unbound (filled : Filled memory limit k s) : validInode s zeroVolume k = none := by
  cases bound : validInode s zeroVolume k with
  | none => rfl
  | some i => exact absurd ((filled.bound zeroVolume k i).mp bound).2.1 (Nat.lt_irrefl k)

theorem blockInode (filled : Filled memory limit k s) (inside : k < N) :
    blockInode s zeroVolume k = some ⟨k, inside⟩ := by
  obtain ⟨rest, head, _⟩ := filled.untaken.head inside
  rw [Source.blockInode, filled.unbound, head]
  rfl

theorem isFree (filled : Filled memory limit k s) (inside : k < N) :
    (s.inodeTable ⟨k, inside⟩).state = .free := by
  obtain ⟨rest, head, _⟩ := filled.untaken.head inside
  exact filled.ok.cycle.free_of_queued (k := roundRobin defaultNumFree s.freeDequeueIdx)
    (by rw [LfQueue.dequeue_eq_some.mp head]; exact List.mem_cons_self)

/-- Writing the next block; the first one is written with zeros. -/
theorem write (filled : Filled memory limit k s) (narrow : k < 2 ^ 26) (room : k + 100 ≤ N)
    (inside : k < limit) (cwd : String) (buf : Nat → UInt8) (zeros : k = 0 → buf = fun _ => 0) :
    ∃ t, next cwd limit s (.writeBlock zeroVolume k 0 buf blockSize) = some t ∧
      NarrowStep s (.writeBlock zeroVolume k 0 buf blockSize) ∧
      Filled memory limit (k + 1) t := by
  have below : k < N := by omega
  have chosen := filled.blockInode below
  have count := filled.count
  obtain ⟨t, wrote, effect⟩ := writeBlock_returns filled.ok.cycle 0 blockSize
    buf filled.table chosen narrow
    (by rw [filled.isFree]; decide) (fun _ => by simp [defaultFreeMinCount]; omega)
  obtain ⟨rest, head, values⟩ := filled.untaken.head below
  refine ⟨t, ?_, fun i same => ?_, ?_⟩
  · simp [next, inside, wrote]
  · rw [chosen] at same
    cases same
    exact narrow
  · have owned := filled.ok.owned
    have sameFiles : t.files = s.files := by rw [effect.frame]
    have source := effect.source
    cases source with
    | bound valid =>
      rw [filled.unbound] at valid
      cases valid
    | taken _ _ rest' head' queues counted turn =>
      cases head.symm.trans head'
      have after := filled.untaken.next below values queues turn
      refine ⟨filled.ok.written inside effect, after.turn, after.free, by omega, ?_,
        fun v lbn i => ?_, fun j later => ?_, fun _ => ?_, by rw [sameFiles, filled.files]⟩
      · have same := effect.identity zeroVolume
        simp only [volumeIdentity, Prod.mk.injEq] at same
        rw [same.2.2]
        exact filled.table
      · rw [effect.bound]
        by_cases key : v = zeroVolume ∧ lbn = k
        · obtain ⟨rfl, rfl⟩ := key
          simp only [and_self, if_true, Option.some.injEq, Nat.lt_succ_self, true_and]
          exact ⟨fun same => same ▸ rfl, fun same => Fin.ext same.symm⟩
        · rw [if_neg key, filled.bound]
          constructor
          · rintro ⟨home, low, index⟩
            exact ⟨home, by omega, index⟩
          · rintro ⟨home, low, index⟩
            have other : lbn ≠ k := fun same => key ⟨home, same⟩
            exact ⟨home, by omega, index⟩
      · rw [effect.blockOf_other owned (by rintro rfl; exact absurd later (Nat.not_succ_le_self k))]
        exact filled.later j (by omega)
      · by_cases start : k = 0
        · subst k
          rw [effect.image_written, zeros rfl, memcpy_block]
        · rw [effect.image_other filled.ok.cycle owned (fun both => start both.2.symm)]
          exact filled.first (by omega)

theorem step (filled : Filled memory limit k s) (narrow : k < 2 ^ 26) (room : k + 100 ≤ N)
    (inside : k < limit) (cwd : String) :
    ∃ t, next cwd limit s (.writeBlock zeroVolume k 0 (fun _ => 0) blockSize) = some t ∧
      NarrowStep s (.writeBlock zeroVolume k 0 (fun _ => 0) blockSize) ∧
      Filled memory limit (k + 1) t :=
  filled.write narrow room inside cwd _ fun _ => rfl

/-- Opening the first volume of a fresh system. -/
theorem start (limit : Nat) {r : State C N} (fresh : Fresh r s)
    (sameBlocks : r.blockTable = memory.blockTable)
    (sameFiles : r.files = memory.files) (layout : owners r = finSumFinEquiv) :
    ∃ t, getVolumeEntryIdx 0 s = some (zeroVolume, t) ∧ Filled memory limit 0 t := by
  have owned : Function.Bijective (owners r) := layout ▸ finSumFinEquiv.bijective
  have ok : SystemOk limit s := SystemOk.fresh fresh owned
  have missing : (List.finRange maxVolumeEntry).find?
      (fun v => (s.volumeTable v).vid = 0) = none := by
    rw [List.find?_eq_none]
    intro v _
    simp [fresh.volume, clearedVolume, unusedVid]
  have volumes := drop_finRange (N := maxVolumeEntry) (k := 0) (by decide)
  rw [List.drop_zero, ← fresh.volumeFree] at volumes
  obtain ⟨tail, volumes⟩ : ∃ tail, s.volumeFreeLfqueue.values = zeroVolume :: tail := ⟨_, volumes⟩
  have fits := s.volumeFreeLfqueue.fits
  rw [volumes, List.length_cons] at fits
  have head : s.volumeFreeLfqueue.dequeue =
      some (zeroVolume, ⟨tail, Nat.le_of_succ_le fits⟩) :=
    LfQueue.dequeue_eq_some.mpr volumes
  have empty : s.volumeInuseLfqueue = .new := by rw [fresh.frame]
  obtain ⟨x, queued, _⟩ := LfQueue.enqueue_isSome (q := s.volumeInuseLfqueue) zeroVolume
    (by rw [empty]; decide)
  obtain ⟨t, got⟩ : ∃ t, getVolumeEntryIdx 0 s = some (zeroVolume, t) :=
    ⟨_, by simp [getVolumeEntryIdx, missing, allocVolumeEntryIdx, head, queued]; rfl⟩
  rcases getVolumeEntryIdx_cases got with ⟨_, vid⟩ | opened
  · rw [fresh.volume] at vid
    cases vid
  · have bound := (opened.nodes ok.volumes ok.cycle.nodes).2
    have frees : t.inodeFreeLfqueue = s.inodeFreeLfqueue := by rw [opened.frame]
    have counts : t.inodeFreeCount = N ∧ t.freeDequeueIdx = 0 ∧ t.files = r.files ∧
        t.blockTable = r.blockTable := by
      rw [opened.frame, fresh.frame]
      exact ⟨rfl, rfl, rfl, rfl⟩
    refine ⟨t, got, ok.opened opened, counts.2.1, fun q => ?_, counts.1, ?_, fun v lbn i => ?_,
      fun j _ => ?_, fun positive => absurd positive (Nat.lt_irrefl 0), ?_⟩
    · rw [frees, fresh.free, List.drop_zero]
    · rw [opened.table, Function.update_self]
      rfl
    · rw [bound, fresh.validInode]
      simp
    · have index : owners t (Sum.inl j) = Fin.castAdd maxVolumeEntry j := by
        rw [opened.owners, fresh.owners, layout]
        rfl
      have same : (t.inodeTable j).blockIndex = Fin.castAdd maxVolumeEntry j := index
      rw [State.blockOf, same, counts.2.2.2, sameBlocks]
    · rw [counts.2.2.1, sameFiles]

end Filled

/-- The state after the block `2^26` has been written, with the bytes `1`. -/
structure Misplaced (memory t : State C N) (i : InodeIdx N) : Prop where
  isDirty : (t.inodeTable i).state = .dirty
  key : (t.inodeTable i).lbn = 2 ^ 26
  queued : ∀ v j, j ∈ (t.inodeDirtyLfqueue v).values → (t.inodeTable j).lbn ≠ 2 ^ 26
  image : visibleImage t zeroVolume (2 ^ 26) =
    some (memory.blockTable (Fin.castAdd maxVolumeEntry i))
  first : visibleImage t zeroVolume 0 = some fun _ => 1
  files : t.files = memory.files
  opened : ∃ file, (t.volumeTable zeroVolume).fd = some file

/-- The step that takes inode `2^26` stores into inode `0`. -/
theorem Filled.wide {memory s : State C N} {limit : Nat} (filled : Filled memory limit (2 ^ 26) s)
    (room : 2 ^ 26 + 100 ≤ N) (inside : 2 ^ 26 < limit) (cwd : String) :
    ∃ t i, next cwd limit s (.writeBlock zeroVolume (2 ^ 26) 0 (fun _ => 1) blockSize) = some t ∧
      writeBlock zeroVolume (2 ^ 26) 0 (fun _ => 1) blockSize s = some (blockSize, t) ∧
      Misplaced memory t i := by
  have below : 2 ^ 26 < N := by omega
  have cycle := filled.ok.cycle
  have count := filled.count
  set i : InodeIdx N := ⟨2 ^ 26, below⟩ with hi
  set z : InodeIdx N := ⟨0, by omega⟩ with hz
  have apart : z ≠ i := by simp [hi, hz]
  have wrapped : inodeIdxOfPointer i = z := Fin.ext (by simp [hi, hz, inodeIdxOfPointer])
  have chosen := filled.blockInode below
  have zBound : validInode s zeroVolume 0 = some z :=
    (filled.bound zeroVolume 0 z).mpr ⟨rfl, by decide, rfl⟩
  obtain ⟨_, zOwner, zKey⟩ := ((cycle.inode z).bound zeroVolume 0).mp zBound
  have isFree : (s.inodeTable i).state = .free := filled.isFree below
  have unlocked : (s.inodeTable i).lock = false := by
    rw [← Bool.not_eq_true, (cycle.inode i).locked]
    simp [isFree]
  obtain ⟨p, u, t, written, node, stored⟩ := writeBlock_through cycle.nodes
    (cycle.keyOk zeroVolume (2 ^ 26)) 0 blockSize (fun _ => 1) filled.table chosen
    (fun _ => by simp [defaultFreeMinCount]; omega) unlocked
    (fun _ => by rw [wrapped]; exact zOwner) fun other => cycle.dirty_room other _
  rw [wrapped] at stored
  have iEntry : u.inodeTable i =
      { s.inodeTable i with lbn := 2 ^ 26, volume := some zeroVolume } := by
    rw [node.entries, Function.update_self]
  have others : ∀ j, j ≠ i → u.inodeTable j = s.inodeTable j := fun j other => by
    rw [node.entries, Function.update_of_ne other]
  have uQueues : u.inodeDirtyLfqueue = s.inodeDirtyLfqueue := by rw [node.frame]
  have bound := (stored.nodes node.nodes).2
  have tEntry : t.inodeTable i =
      { s.inodeTable i with
        lbn := 2 ^ 26, volume := some zeroVolume, state := .dirty, lock := false } := by
    rw [stored.entries, Function.update_of_ne apart.symm, markDirty, Function.update_self, iEntry]
  have tLbn : ∀ j, j ≠ i → (t.inodeTable j).lbn = (s.inodeTable j).lbn := by
    intro j other
    rw [stored.entries, markDirty, Function.update_of_ne apart]
    by_cases same : j = z
    · subst j
      rw [Function.update_self, others z apart]
    · rw [Function.update_of_ne same, Function.update_of_ne other, others j other]
  have sameFiles : t.files = s.files := by rw [stored.frame, node.frame]
  have uBlocks : u.blockTable = s.blockTable := by rw [node.frame]
  have tFd : (t.volumeTable zeroVolume).fd = (s.volumeTable zeroVolume).fd := by
    have same := (stored.identity zeroVolume).trans (node.identity zeroVolume)
    simp only [volumeIdentity, Prod.mk.injEq] at same
    exact same.2.1
  have step : next cwd limit s (.writeBlock zeroVolume (2 ^ 26) 0 (fun _ => 1) blockSize) =
      some t := by
    rw [next, if_pos ⟨inside, Nat.le_refl blockSize⟩, written]
    rfl
  have tBlocks : t.blockTable = Function.update s.blockTable (s.volumeTable zeroVolume).blockIndex
      fun _ => 1 := by
    rw [stored.blocks, uBlocks, node.volumeBlock, memcpy_block]
  have injective := filled.ok.owned.injective
  refine ⟨t, i, step, written, by rw [tEntry], by rw [tEntry], fun v j member => ?_, ?_, ?_, ?_, ?_⟩
  · have dirty := stored.dirty
    rw [iEntry, if_neg (by simp [isFree])] at dirty
    obtain ⟨q, queued, queues, _⟩ := dirty
    have source : j ∈ (s.inodeDirtyLfqueue v).values ∨ j = z := by
      rw [queues, uQueues] at member
      by_cases home : v = zeroVolume
      · subst v
        rw [Function.update_self, LfQueue.enqueue_eq_some.mp queued, uQueues] at member
        simpa using member
      · rw [Function.update_of_ne home] at member
        exact Or.inl member
    have old : validInode s v (s.inodeTable j).lbn = some j ∨ j = z := by
      refine source.imp_left fun member => ?_
      obtain ⟨isDirty, owner, _⟩ := cycle.dirty_of_queued member
      exact cycle.validInode_self (by rw [isDirty]; decide) owner
    have low : (s.inodeTable j).lbn < 2 ^ 26 ∧ j ≠ i := by
      rcases old with valid | rfl
      · obtain ⟨_, low, index⟩ := (filled.bound v _ j).mp valid
        refine ⟨low, ?_⟩
        rintro rfl
        exact absurd (index ▸ low) (Nat.lt_irrefl _)
      · rw [zKey]
        exact ⟨by decide, apart⟩
    rw [tLbn j low.2]
    omega
  · unfold visibleImage
    rw [bound, node.bound, if_pos ⟨rfl, rfl⟩]
    simp only [Option.some.injEq]
    have mine : (s.inodeTable i).blockIndex ≠ (s.volumeTable zeroVolume).blockIndex :=
      blockIndex_ne injective i zeroVolume
    rw [State.blockOf, tEntry, tBlocks]
    dsimp only
    rw [Function.update_of_ne mine]
    exact filled.later i (Nat.le_refl _)
  · unfold visibleImage
    rw [bound, node.bound, if_neg (by rintro ⟨_, same⟩; cases same), zBound]
    simp only [Option.some.injEq]
    rw [State.blockOf, stored.entries, Function.update_self, tBlocks, node.volumeBlock]
    exact Function.update_self _ _ _
  · rw [sameFiles, filled.files]
  · rw [tFd]
    exact filled.ok.volumes.filesOk.of_validInode zBound

/-- The run that writes the first `k` blocks. -/
theorem filled_reachable (memory : State C N) (cwd : String) (limit : Nat) {k : Nat}
    (narrow : k ≤ 2 ^ 26) (room : k + 99 ≤ N) (inside : k ≤ limit) :
    ∃ s, (system C N cwd limit).ReachableBy NarrowStep s ∧
      Filled (nvmStructureBuild memory) limit k s := by
  induction k with
  | zero =>
    obtain ⟨s, initial, fresh⟩ := system_starts limit cwd memory
    obtain ⟨t, got, filled⟩ := Filled.start limit fresh rfl rfl (built_layout memory)
    have step : next cwd limit s (.openVolume 0) = some t := by simp [next, got]
    exact ⟨t, .step (e := .openVolume 0) (.init initial) trivial step, filled⟩
  | succ k ih =>
    obtain ⟨s, reach, filled⟩ := ih (by omega) (by omega) (by omega)
    obtain ⟨t, step, guard, after⟩ := filled.step (by omega) (by omega) (by omega) cwd
    exact ⟨t, reach.step guard step, after⟩

/-- Memory before the first start: all bytes of all blocks are `1`, of all files `2`. -/
def blankMemory (N : Nat) : State functionMap N where
  inodeTable i := ⟨0, .free, none, Fin.castAdd maxVolumeEntry i, false⟩
  volumeTable v := ⟨unusedVid, none, Fin.natAdd N v, none⟩
  blockTable _ _ := 1
  hashNodes _ := ⟨none, 0, false, false, none, none⟩
  nextNode := 0
  volumeFreeLfqueue := .new
  volumeInuseLfqueue := .new
  inodeFreeLfqueue _ := .new
  freeEnqueueIdx := 0
  freeDequeueIdx := 0
  inodeFreeCount := 0
  inodeDirtyLfqueue _ := .new
  inodeDirtyCount := 0
  inodeSyncLfqueue _ := .new
  syncQueueIdx := 0
  inodeCleanLfqueue _ := .new
  cleanQueueIdx := 0
  files _ _ := 2

/-- A small run: the first volume is opened and its block `0` written. -/
theorem one_block_run (cwd : String) (limit : Nat) (inside : 0 < limit) :
    ∃ s : State functionMap 128, (system functionMap 128 cwd limit).ReachableBy NarrowStep s ∧
      Filled (nvmStructureBuild (blankMemory 128)) limit 1 s :=
  filled_reachable (blankMemory 128) cwd limit (by decide) (by decide) inside

/-- A table of `2^27` inodes: 2 TiB of blocks. -/
abbrev wideN : Nat := 2 ^ 27

/-- The run that writes the blocks `0 .. 2^26` of one volume. -/
theorem wide_run (limit : Nat) (inside : 2 ^ 26 < limit) :
    ∃ (s t : State functionMap wideN) (i : InodeIdx wideN),
      (system functionMap wideN "/" limit).ReachableBy NarrowStep s ∧
      Filled (nvmStructureBuild (blankMemory wideN)) limit (2 ^ 26) s ∧
      (system functionMap wideN "/" limit).Reachable t ∧
      writeBlock zeroVolume (2 ^ 26) 0 (fun _ => 1) blockSize s = some (blockSize, t) ∧
      Misplaced (nvmStructureBuild (blankMemory wideN)) t i := by
  obtain ⟨s, reach, filled⟩ :=
    filled_reachable (N := wideN) (blankMemory wideN) "/" limit (k := 2 ^ 26)
    (Nat.le_refl _) (by simp [wideN]) (by omega)
  obtain ⟨t, i, step, written, misplaced⟩ := filled.wide (by simp [wideN]) inside "/"
  have after : (system functionMap wideN "/" limit).Reachable t :=
    .step (e := .writeBlock zeroVolume (2 ^ 26) 0 (fun _ => 1) blockSize) reach.reachable step
  exact ⟨s, t, i, reach, filled, after, written, misplaced⟩

end BurstBuffer.Source
