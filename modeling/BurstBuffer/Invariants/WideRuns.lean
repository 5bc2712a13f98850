import BurstBuffer.Invariants.Ledger

/-!
# A run that stops for want of one dirty inode

All blocks of one volume are written. The inodes from `2^26` on are never queued, so the dirty
queue has the entries of the others in turn, several times over. Flushes go on down to the
low-water mark and the low inodes are written again as they come back, batch by batch, each
time for the next batch of the queue. One block is written again on a new inode that is never
queued, so that the last batch comes back with one inode fewer.
-/
namespace BurstBuffer.Source

open Library

variable {C : CuckoohashMap} {N : Nat} {cwd : String} {limit : Nat}

theorem turn_lt (wide : 2 ^ 26 ≤ N) (p : Nat) : p % 2 ^ 26 < N :=
  Nat.lt_of_lt_of_le (Nat.mod_lt p (by decide)) wide

/-- The inode with the index computed for inode `p`. -/
def turnInode (wide : 2 ^ 26 ≤ N) (p : Nat) : InodeIdx N :=
  ⟨p % 2 ^ 26, turn_lt wide p⟩

theorem inodeIdxOfPointer_turn (wide : 2 ^ 26 ≤ N) (i : InodeIdx N) :
    inodeIdxOfPointer i = turnInode wide i.val :=
  Fin.ext (inodeIdxOfPointer_val i)

section Windows

variable {wide : 2 ^ 26 ≤ N} {p k m : Nat} {i : InodeIdx N}

/-- The queued inodes behind positions `p`, `p + 1`, … -/
def window (wide : 2 ^ 26 ≤ N) (p k : Nat) : List (InodeIdx N) :=
  (List.range' p k).map (turnInode wide)

theorem window_length : (window wide p k).length = k := by
  rw [window, List.length_map, List.length_range']

theorem window_split (part : m ≤ k) :
    window wide p k = window wide p m ++ window wide (p + m) (k - m) := by
  rw [window, window, window, ← List.map_append, List.range'_append_1, Nat.add_sub_of_le part]

theorem window_succ : window wide p (k + 1) = window wide p k ++ [turnInode wide (p + k)] := by
  rw [window_split (Nat.le_succ k), Nat.succ_sub (Nat.le_refl k), Nat.sub_self]
  rfl

theorem mem_window :
    i ∈ window wide p k ↔ ∃ q, p ≤ q ∧ q < p + k ∧ i.val = q % 2 ^ 26 := by
  rw [window, List.mem_map]
  constructor
  · rintro ⟨q, member, rfl⟩
    obtain ⟨low, high⟩ := List.mem_range'_1.mp member
    exact ⟨q, low, high, rfl⟩
  · rintro ⟨q, low, high, same⟩
    exact ⟨q, List.mem_range'_1.mpr ⟨low, high⟩, Fin.ext same.symm⟩

theorem window_low (member : i ∈ window wide p k) : i.val < 2 ^ 26 := by
  obtain ⟨q, _, _, same⟩ := mem_window.mp member
  omega

theorem window_nodup (short : k ≤ 2 ^ 26) : (window wide p k).Nodup := by
  refine List.Nodup.map_on (fun x first y second same => ?_) List.nodup_range'
  obtain ⟨lowX, highX⟩ := List.mem_range'_1.mp first
  obtain ⟨lowY, highY⟩ := List.mem_range'_1.mp second
  have index : x % 2 ^ 26 = y % 2 ^ 26 := congrArg Fin.val same
  omega

theorem batch_nodup : (window wide p flushBatchSize).Nodup :=
  window_nodup (by decide)

/-- A batch that starts at a multiple of its size is an interval. -/
theorem mem_batch (place : p % 2 ^ 26 = flushBatchSize * m) :
    i ∈ window wide p flushBatchSize ↔
      flushBatchSize * m ≤ i.val ∧ i.val < flushBatchSize * (m + 1) := by
  rw [mem_window]
  simp only [flushBatchSize] at place ⊢
  constructor
  · rintro ⟨q, low, high, same⟩
    omega
  · rintro ⟨low, high⟩
    exact ⟨p + (i.val - 1024 * m), by omega, by omega, by omega⟩

end Windows

/-- After writing the blocks below `k` in order. -/
def Ledger.filled (wide : 2 ^ 26 ≤ N) (k : Nat) : Ledger N where
  inode lbn := if inside : lbn < N then if lbn < k then some ⟨lbn, inside⟩ else none else none
  lbn i := i.val
  state i := if i.val < k then .dirty else .free
  dirty := window wide 0 k
  free := N - k
  taken := k
  cleaned := []

/-- After the first flush and the syncs behind it. -/
def Ledger.flushed (wide : 2 ^ 26 ≤ N) (k : Nat) : Ledger N :=
  (Ledger.filled wide k).flush (window wide 0 flushBatchSize)
    (window wide flushBatchSize (k - flushBatchSize))

theorem filled_write (wide : 2 ^ 26 ≤ N) {k : Nat} (inside : k < N) :
    (Ledger.filled wide k).write k ⟨k, inside⟩ ((Ledger.filled wide k).free - 1) (k + 1) =
      Ledger.filled wide (k + 1) := by
  simp only [Ledger.write, Ledger.filled, Ledger.mk.injEq, and_true]
  refine ⟨funext fun lbn => ?_, funext fun i => ?_, funext fun i => ?_, ?_, by omega⟩
  · by_cases here : lbn = k
    · subst here
      simp [inside]
    · have same : lbn < k + 1 ↔ lbn < k := by omega
      simp [here, same]
  · by_cases here : i = ⟨k, inside⟩
    · rw [here, Function.update_self]
    · rw [Function.update_of_ne here]
  · by_cases here : i = ⟨k, inside⟩
    · rw [here]
      simp
    · have other : i.val ≠ k := fun same => here (Fin.ext same)
      have same : i.val < k + 1 ↔ i.val < k := by omega
      simp [here, same]
  · rw [window_succ, Nat.zero_add, inodeIdxOfPointer_turn wide]

/-- An opened first volume. -/
theorem filled_start (wide : 2 ^ 26 ≤ N) (memory : State C N) (cwd : String) (limit : Nat) :
    ∃ s, (system C N cwd limit).ReachableBy GuardedStep s ∧ Tracks (Ledger.filled wide 0) s ∧
      Untaken 0 s := by
  obtain ⟨s, initial, fresh⟩ := system_starts limit cwd memory
  obtain ⟨t, got, filled⟩ := Filled.start limit fresh rfl rfl (built_layout memory)
  have step : next cwd limit s (.openVolume 0) = some t := by simp [next, got]
  have drained : Drained t := (Drained.fresh fresh).found got
  have entries : t.inodeTable = s.inodeTable ∧ t.inodeDirtyLfqueue = s.inodeDirtyLfqueue ∧
      t.inodeDirtyCount = s.inodeDirtyCount := by
    rcases getVolumeEntryIdx_cases got with ⟨rfl, _⟩ | opened
    · exact ⟨rfl, rfl, rfl⟩
    · rw [opened.frame]
      exact ⟨rfl, rfl, rfl⟩
  have dirty : s.inodeDirtyLfqueue = (fun _ => .new) ∧ s.inodeDirtyCount = 0 := by
    rw [fresh.frame]
    exact ⟨rfl, rfl⟩
  have empty : ∀ lbn, (Ledger.filled wide 0).inode lbn = none := by
    intro lbn
    simp [Ledger.filled]
  have once := filled.ok.volumes.inuse zeroVolume
  rw [if_pos filled.table] at once
  refine ⟨t, .step (e := .openVolume 0) (.init initial) trivial step,
    ⟨filled.ok.cycle.nodes, filled.table, ?_, List.count_pos_iff.mp (by omega), fun i => ?_,
      fun i early => absurd early (Nat.not_lt_zero _),
      fun i early => absurd early (Nat.not_lt_zero _), fun i => ?_, fun lbn => ?_,
      fun lbn i found => ?_, ?_, ?_, filled.count, fun i => ?_, fun i => ?_⟩, filled.untaken⟩
  · rw [filled.ok.volumes.opened zeroVolume filled.table]
    rfl
  · rw [entries.1, fresh.inode]
    rfl
  · rw [entries.1, fresh.inode]
    simp [clearedInode, Ledger.filled]
  · rw [empty]
    cases valid : validInode t zeroVolume lbn with
    | none => rfl
    | some i => exact absurd ((filled.bound zeroVolume lbn i).mp valid).2.1 (Nat.not_lt_zero _)
  · rw [empty] at found
    cases found
  · rw [entries.2.1, dirty.1]
    rfl
  · rw [entries.2.2, dirty.2]
    rfl
  · exact copies_eq_zero.mpr fun k => by simp [contents, drained.sync]
  · exact copies_eq_zero.mpr fun k => by simp [contents, drained.clean]

/-- The blocks below `k` are written in order, each on the next inode. -/
theorem filled_tracks (wide : 2 ^ 26 ≤ N) (memory : State C N) (cwd : String) {limit k : Nat}
    (room : k + 99 ≤ N) (below : k ≤ limit) :
    ∃ s, (system C N cwd limit).ReachableBy GuardedStep s ∧ Tracks (Ledger.filled wide k) s ∧
      Untaken k s := by
  induction k with
  | zero => exact filled_start wide memory cwd limit
  | succ k ih =>
    obtain ⟨s, reach, tracks, untaken⟩ := ih (by omega) (by omega)
    have inside : k < N := by omega
    obtain ⟨rest, head, values⟩ := untaken.head inside
    have unbound : (Ledger.filled wide k).inode k = none := by simp [Ledger.filled]
    have clean : (Ledger.filled wide k).state ⟨k, inside⟩ ≠ .dirty := by simp [Ledger.filled]
    have enough : defaultFreeMinCount ≤ (Ledger.filled wide k).free := by
      simp only [Ledger.filled, defaultFreeMinCount]
      omega
    have space : (Ledger.filled wide k).dirty.length < N := by
      rw [Ledger.filled, window_length]
      exact inside
    obtain ⟨t, reached, after, queues, turn⟩ :=
      tracks.takes reach unbound head rfl clean enough space (by omega : k < limit)
    exact ⟨t, reached, filled_write wide inside ▸ after, untaken.next inside values queues turn⟩

/-- All low inodes but `spare` are still those of their blocks; block `spare` is now on inode
`last`. The dirty queue has the positions from `p` up to `last`, then `back`. -/
structure Turning (wide : 2 ^ 26 ≤ N) (spare last : InodeIdx N) (p : Nat)
    (back : List (InodeIdx N)) (b : Ledger N) : Prop where
  far : 2 ^ 26 ≤ last.val
  dirty : b.dirty = window wide p (last.val + 1 - p) ++ back
  taken : b.taken = last.val + 1
  free : b.free = 99
  inode : ∀ i : InodeIdx N, i.val < 2 ^ 26 → i ≠ spare → b.inode i.val = some i
  moved : b.inode spare.val = some last
  lbn : ∀ i : InodeIdx N, i.val < 2 ^ 26 → b.lbn i = i.val
  state : b.state last = .dirty
  length : b.cleaned.length ≤ p
  low : ∀ i ∈ b.cleaned, i.val < 2 ^ 26

namespace Turning

variable {wide : 2 ^ 26 ≤ N} {spare last : InodeIdx N} {p : Nat} {back : List (InodeIdx N)}
  {b : Ledger N} {s : State C N} {cwd : String} {limit : Nat}

theorem size (turning : Turning wide spare last p back b) :
    b.dirty.length = last.val + 1 - p + back.length := by
  rw [turning.dirty, List.length_append, window_length]

/-- A flush of the next batch and the syncs behind it. -/
theorem flushes (turning : Turning wide spare last p back b) (tracks : Tracks b s)
    (reach : (system C N cwd limit).ReachableBy GuardedStep s)
    (more : p + flushBatchSize ≤ last.val) (enough : kFlushLwm N ≤ b.dirty.length)
    (small : N ≤ 2 ^ 31) :
    ∃ b' t, (system C N cwd limit).ReachableBy GuardedStep t ∧ Tracks b' t ∧
      Turning wide spare last (p + flushBatchSize) back b' ∧
      ∀ j, b'.state j = if j ∈ window wide p flushBatchSize then .clean else b.state j := by
  have inside := last.isLt
  have far := turning.far
  have queue : b.dirty = window wide p flushBatchSize ++
      (window wide (p + flushBatchSize) (last.val + 1 - (p + flushBatchSize)) ++ back) := by
    have rest : last.val + 1 - p - flushBatchSize = last.val + 1 - (p + flushBatchSize) := by
      omega
    rw [turning.dirty, window_split (by omega : flushBatchSize ≤ last.val + 1 - p), rest,
      List.append_assoc]
  have rest : window wide (p + flushBatchSize) (last.val + 1 - (p + flushBatchSize)) ++ back ≠
      [] := by
    intro empty
    have none := congrArg List.length empty
    rw [List.length_append, window_length, List.length_nil] at none
    omega
  have length := turning.length
  obtain ⟨t, reached, after, _⟩ := tracks.flushes reach queue window_length rest
    batch_nodup (fun i member => by
      have low := window_low member
      rw [turning.taken, turning.lbn i low]
      exact ⟨by omega, by omega⟩) enough small (by omega)
  refine ⟨_, t, reached, after, ⟨far, rfl, turning.taken, turning.free, turning.inode,
    turning.moved, turning.lbn, ?_, ?_, fun i member => ?_⟩, fun j => rfl⟩
  · have outside : last ∉ window wide p flushBatchSize := fun member =>
      absurd (window_low member) (Nat.not_lt_of_le far)
    exact (if_neg outside).trans turning.state
  · rw [Ledger.flush, List.length_append, window_length]
    exact Nat.add_le_add_right length _
  · rcases List.mem_append.mp member with early | late
    · exact turning.low i early
    · exact window_low late

/-- Writes to blocks whose inodes are not dirty. -/
theorem rewrites (turning : Turning wide spare last p back b) (tracks : Tracks b s)
    (reach : (system C N cwd limit).ReachableBy GuardedStep s) {l : List (InodeIdx N)}
    (distinct : l.Nodup)
    (clean : ∀ i ∈ l, i.val < 2 ^ 26 ∧ i ≠ spare ∧ b.state i ≠ .dirty)
    (room : b.dirty.length + l.length ≤ N) (below : 2 ^ 26 ≤ limit) :
    ∃ b' t, (system C N cwd limit).ReachableBy GuardedStep t ∧ Tracks b' t ∧
      Turning wide spare last p (back ++ l) b' ∧
      ∀ j, b'.state j = if j ∈ l then .dirty else b.state j := by
  induction l generalizing b s back with
  | nil =>
    rw [List.append_nil]
    exact ⟨b, s, reach, tracks, turning, fun j => by simp⟩
  | cons i l ih =>
    obtain ⟨fresh, distinct⟩ := List.nodup_cons.mp distinct
    obtain ⟨low, other, state⟩ := clean i List.mem_cons_self
    rw [List.length_cons] at room
    obtain ⟨t, reached, after, _⟩ := tracks.rewrites reach (turning.inode i low other) state
      (by omega) (Nat.lt_of_lt_of_le low below)
    have same : inodeIdxOfPointer i = i := inodeIdxOfPointer_of_lt low
    have apart : last ≠ i := by
      rintro rfl
      exact absurd low (Nat.not_lt_of_le turning.far)
    have states : ∀ j, j ≠ i → (b.rewrite i).state j = b.state j := fun j apart =>
      Function.update_of_ne apart _ _
    have next : Turning wide spare last p (back ++ [i]) (b.rewrite i) := by
      refine ⟨turning.far, ?_, turning.taken, turning.free, turning.inode, turning.moved,
        turning.lbn, (states last apart).trans turning.state, turning.length, turning.low⟩
      rw [Ledger.rewrite, turning.dirty, same, List.append_assoc]
    obtain ⟨b', u, reached', tracks', turning', states'⟩ := ih next after reached distinct
      (fun j member => by
        obtain ⟨low, spare, state⟩ := clean j (List.mem_cons_of_mem i member)
        refine ⟨low, spare, ?_⟩
        rw [states j fun same => fresh (same ▸ member)]
        exact state)
      (by
        simp only [Ledger.rewrite, List.length_append, List.length_singleton]
        omega)
    rw [List.append_assoc] at turning'
    refine ⟨b', u, reached', tracks', turning', fun j => ?_⟩
    rw [states']
    by_cases here : j = i
    · subst here
      simp [fresh, Ledger.rewrite]
    · simp [here, states j here]

end Turning

section Start

variable {wide : 2 ^ 26 ≤ N} {last : InodeIdx N}

theorem flushed_tracks (wide : 2 ^ 26 ≤ N) (memory : State C N) (cwd : String) {k : Nat}
    (room : k + 99 ≤ N) (far : 2 ^ 26 ≤ k) (enough : kFlushLwm N ≤ k) (small : N ≤ 2 ^ 31)
    (below : k ≤ limit) :
    ∃ s, (system C N cwd limit).ReachableBy GuardedStep s ∧ Tracks (Ledger.flushed wide k) s ∧
      Untaken k s := by
  obtain ⟨s, reach, tracks, untaken⟩ := filled_tracks wide memory cwd room below
  have part : flushBatchSize ≤ k := Nat.le_trans (by decide) far
  have queue : (Ledger.filled wide k).dirty = window wide 0 flushBatchSize ++
      window wide flushBatchSize (k - flushBatchSize) := by
    rw [Ledger.filled, window_split part, Nat.zero_add]
  have more : window wide flushBatchSize (k - flushBatchSize) ≠ [] := by
    intro empty
    have none := congrArg List.length empty
    rw [window_length, List.length_nil] at none
    simp only [flushBatchSize] at none
    omega
  obtain ⟨t, reached, after, queues, turn⟩ := tracks.flushes reach queue window_length more
    batch_nodup (fun i member => by
      have low := window_low member
      simp only [Ledger.filled]
      exact ⟨by omega, by omega⟩) (by rw [Ledger.filled, window_length]; exact enough) small (by
      simp only [Ledger.filled, List.length_nil, flushBatchSize]
      omega)
  exact ⟨t, reached, after, turn.trans untaken.turn, fun q => by rw [queues, untaken.free]⟩

/-- A balloon thread frees some inode of the first batch. -/
theorem spare_released (wide : 2 ^ 26 ≤ N) (memory : State C N) (cwd : String)
    (total : N = last.val + 99) (far : 2 ^ 26 ≤ last.val) (enough : kFlushLwm N ≤ last.val)
    (small : N ≤ 2 ^ 31) (below : last.val ≤ limit) :
    ∃ spare s, (system C N cwd limit).ReachableBy GuardedStep s ∧
      spare ∈ window wide 0 flushBatchSize ∧
      Tracks ((Ledger.flushed wide last.val).release spare) s ∧
      ∃ rest, (s.inodeFreeLfqueue (roundRobin defaultNumFree s.freeDequeueIdx)).dequeue =
        some (last, rest) := by
  obtain ⟨s, reach, tracks, untaken⟩ :=
    flushed_tracks wide memory cwd (Nat.le_of_eq total.symm) far enough small below
  obtain ⟨index, spare, q, head⟩ : ∃ index spare q,
      (s.inodeCleanLfqueue index).dequeue = some (spare, q) := by
    have first : turnInode wide 0 ∈ window wide 0 flushBatchSize :=
      mem_window.mpr ⟨0, Nat.le_refl _, by decide, rfl⟩
    have present : 0 < copies (contents s.inodeCleanLfqueue) (turnInode wide 0) := by
      rw [tracks.cleaned]
      exact List.count_pos_iff.mpr first
    obtain ⟨index, queued⟩ := copies_pos.mp present
    obtain ⟨spare, q, head⟩ := LfQueue.dequeue_isSome (List.ne_nil_of_mem queued)
    exact ⟨index, spare, q, head⟩
  have member : spare ∈ window wide 0 flushBatchSize := tracks.queued head
  have low := window_low member
  have isClean : (Ledger.flushed wide last.val).state spare = .clean := if_pos member
  have bound : (Ledger.flushed wide last.val).inode
      ((Ledger.flushed wide last.val).lbn spare) = some spare := by
    simp only [Ledger.flushed, Ledger.flush, Ledger.filled]
    rw [dif_pos spare.isLt, if_pos (by omega)]
  obtain ⟨t, reached, released, ⟨r, enqueued, queues⟩, turn⟩ :=
    tracks.releases reach head isClean bound (untaken.room (by omega) (by omega))
  exact ⟨spare, t, reached, member, released,
    untaken.head_released last.isLt enqueued queues turn⟩

/-- Its block goes to the next inode. -/
theorem turning_start (wide : 2 ^ 26 ≤ N) (memory : State C N) (cwd : String)
    (total : N = last.val + 99) (far : 2 ^ 26 ≤ last.val) (enough : kFlushLwm N ≤ last.val)
    (small : N ≤ 2 ^ 31) (below : last.val ≤ limit) :
    ∃ spare b s, (system C N cwd limit).ReachableBy GuardedStep s ∧ Tracks b s ∧
      spare.val < flushBatchSize ∧ Turning wide spare last flushBatchSize [] b := by
  obtain ⟨spare, s, reach, member, tracks, rest, head⟩ :=
    spare_released wide memory cwd total far enough small below
  set b := Ledger.flushed wide last.val with hb
  have low := window_low member
  obtain ⟨_, early⟩ := (mem_batch (m := 0) (Nat.zero_mod _)).mp member
  have apart : last ≠ spare := by
    rintro rfl
    omega
  have unbound : (b.release spare).inode spare.val = none := Function.update_self _ _ _
  have outside : last ∉ window wide 0 flushBatchSize := fun member =>
    absurd (window_low member) (Nat.not_lt_of_le far)
  have free : (b.release spare).state last ≠ .dirty := by
    have same : (b.release spare).state last = b.state last := Function.update_of_ne apart _ _
    rw [same, hb, Ledger.flushed, Ledger.flush]
    dsimp only
    rw [if_neg outside]
    simp [Ledger.filled]
  have dirty : b.dirty = window wide flushBatchSize (last.val - flushBatchSize) := by
    rw [hb, Ledger.flushed, Ledger.flush_dirty]
  have count : (b.release spare).free = 100 := by
    simp only [hb, Ledger.release, Ledger.flushed, Ledger.flush, Ledger.filled]
    omega
  obtain ⟨t, reached, taken, _⟩ := tracks.takes reach unbound head rfl free (by rw [count])
    (by
      rw [Ledger.release_dirty, dirty, window_length]
      omega) (by omega : spare.val < limit)
  refine ⟨spare, _, t, reached, taken, early, far, ?_, rfl, congrArg (· - 1) count,
    fun i lowI other => ?_, Function.update_self _ _ _, fun i lowI => ?_,
    Function.update_self _ _ _, ?_, fun i later => ?_⟩
  · have grown : last.val + 1 - flushBatchSize = last.val - flushBatchSize + 1 := by
      simp only [flushBatchSize]
      omega
    have here : flushBatchSize + (last.val - flushBatchSize) = last.val := by
      simp only [flushBatchSize]
      omega
    rw [Ledger.write_dirty, Ledger.release_dirty, dirty, grown, window_succ, here,
      List.append_nil, inodeIdxOfPointer_turn wide]
  · have different : i.val ≠ spare.val := fun same => other (Fin.ext same)
    refine (Function.update_of_ne different _ _).trans
      ((Function.update_of_ne different _ _).trans ?_)
    simp only [hb, Ledger.flushed, Ledger.flush, Ledger.filled]
    rw [dif_pos i.isLt, if_pos (by omega)]
  · have different : i ≠ last := by
      rintro rfl
      omega
    exact Function.update_of_ne different _ _
  · have shorter : ((window wide 0 flushBatchSize).erase spare).length ≤ flushBatchSize := by
      rw [List.length_erase_of_mem member, window_length]
      exact Nat.sub_le _ _
    exact shorter
  · have here : i ∈ (window wide 0 flushBatchSize).erase spare := later
    exact window_low (List.mem_of_mem_erase here)

end Start

/-- The batches `1 .. n` of low inodes have been written again. -/
structure Returned (n : Nat) (back : List (InodeIdx N)) (b : Ledger N) : Prop where
  length : back.length = flushBatchSize * n
  state : ∀ i : InodeIdx N, flushBatchSize ≤ i.val → i.val < flushBatchSize * (n + 1) →
    b.state i = .dirty

namespace Turning

variable {wide : 2 ^ 26 ≤ N} {spare last : InodeIdx N} {p n : Nat} {back : List (InodeIdx N)}
  {b : Ledger N} {s : State C N}

/-- The next batch is flushed and synced, and some of its inodes are written again. -/
theorem again (turning : Turning wide spare last p back b) (tracks : Tracks b s)
    (reach : (system C N cwd limit).ReachableBy GuardedStep s) (small : N ≤ 2 ^ 31)
    (below : 2 ^ 26 ≤ limit) (more : p + flushBatchSize ≤ last.val)
    (enough : kFlushLwm N ≤ b.dirty.length) (short : b.dirty.length ≤ N) {l : List (InodeIdx N)}
    (distinct : l.Nodup) (part : l.length ≤ flushBatchSize)
    (inside : ∀ i ∈ l, i ∈ window wide p flushBatchSize ∧ i ≠ spare) :
    ∃ b' t, (system C N cwd limit).ReachableBy GuardedStep t ∧ Tracks b' t ∧
      Turning wide spare last (p + flushBatchSize) (back ++ l) b' ∧
      ∀ j, b'.state j = if j ∈ l then .dirty else
        if j ∈ window wide p flushBatchSize then .clean else b.state j := by
  obtain ⟨b₁, t, reached, tracks₁, turning₁, states₁⟩ :=
    turning.flushes tracks reach more enough small
  have size := turning.size
  have size₁ := turning₁.size
  obtain ⟨b₂, u, reached₂, tracks₂, turning₂, states₂⟩ :=
    turning₁.rewrites tracks₁ reached distinct
      (fun i member => by
        obtain ⟨early, other⟩ := inside i member
        refine ⟨window_low early, other, ?_⟩
        rw [states₁, if_pos early]
        decide) (by omega) below
  exact ⟨b₂, u, reached₂, tracks₂, turning₂, fun j => by rw [states₂, states₁]⟩

/-- One more batch comes back as it is. -/
theorem returns (turning : Turning wide spare last p back b) (tracks : Tracks b s)
    (reach : (system C N cwd limit).ReachableBy GuardedStep s) (small : N ≤ 2 ^ 31)
    (below : 2 ^ 26 ≤ limit) (more : p + flushBatchSize ≤ last.val)
    (enough : kFlushLwm N ≤ b.dirty.length) (short : b.dirty.length ≤ N)
    (early : spare.val < flushBatchSize) (place : p % 2 ^ 26 = flushBatchSize * (n + 1))
    (returned : Returned n back b) :
    ∃ back' b' t, (system C N cwd limit).ReachableBy GuardedStep t ∧ Tracks b' t ∧
      Turning wide spare last (p + flushBatchSize) back' b' ∧ Returned (n + 1) back' b' := by
  have index : ∀ {i : InodeIdx N}, i ∈ window wide p flushBatchSize ↔
      flushBatchSize * (n + 1) ≤ i.val ∧ i.val < flushBatchSize * (n + 2) := mem_batch place
  obtain ⟨b', t, reached, after, turning', states⟩ := turning.again tracks reach small below more
    enough short batch_nodup (Nat.le_of_eq window_length) (fun i member => ⟨member, by
      rintro rfl
      have high := (index.mp member).1
      simp only [flushBatchSize] at early high
      omega⟩)
  refine ⟨_, b', t, reached, after, turning', ?_, fun i low high => ?_⟩
  · rw [List.length_append, window_length, returned.length]
    rfl
  · rw [states]
    by_cases member : i ∈ window wide p flushBatchSize
    · rw [if_pos member]
    · rw [if_neg member, if_neg member]
      exact returned.state i low (Nat.lt_of_not_le fun later => member (index.mpr ⟨later, high⟩))

/-- Once the low inodes but `spare` are DIRTY, the balloon threads drop all that is queued for
them: the block of `spare` is on another inode. -/
theorem drains (turning : Turning wide spare last p back b) (tracks : Tracks b s)
    (reach : (system C N cwd limit).ReachableBy GuardedStep s)
    (allDirty : ∀ i : InodeIdx N, i.val < 2 ^ 26 → i ≠ spare → b.state i = .dirty) :
    ∃ t, (system C N cwd limit).ReachableBy GuardedStep t ∧ t.inodeFreeCount = 99 ∧
      t.inodeDirtyCount = b.dirty.length ∧ Drained t := by
  obtain ⟨t, reached, after⟩ := tracks.drops_all reach fun i queued clean => by
    have low := turning.low i queued
    have same : i = spare := by
      by_contra other
      rw [allDirty i low other] at clean
      cases clean
    subst same
    refine ⟨?_, last, ?_, ?_⟩
    · rw [turning.taken]
      have far := turning.far
      omega
    · rw [turning.lbn i low]
      exact turning.moved
    · rw [turning.state]
      decide
  refine ⟨t, reached, after.free.trans turning.free, after.dirtyCount, fun k => ?_, fun k => ?_⟩
  · refine List.eq_nil_iff_forall_not_mem.mpr fun i => ?_
    exact copies_eq_zero.mp (after.synced i) k
  · refine List.eq_nil_iff_forall_not_mem.mpr fun i => ?_
    exact copies_eq_zero.mp ((after.cleaned i).trans List.count_nil) k

/-- The first batch comes back without `spare`. -/
theorem ends (turning : Turning wide spare last p back b) (tracks : Tracks b s)
    (reach : (system C N cwd limit).ReachableBy GuardedStep s) (small : N ≤ 2 ^ 31)
    (below : 2 ^ 26 ≤ limit) (more : p + flushBatchSize ≤ last.val)
    (enough : b.dirty.length = kFlushLwm N) (short : b.dirty.length ≤ N)
    (early : spare.val < flushBatchSize) (place : p % 2 ^ 26 = 0)
    (returned : Returned (2 ^ 16 - 1) back b) :
    ∃ t, (system C N cwd limit).ReachableBy GuardedStep t ∧ t.inodeFreeCount = 99 ∧
      t.inodeDirtyCount < kFlushLwm N ∧ Drained t := by
  have index : ∀ {i : InodeIdx N}, i ∈ window wide p flushBatchSize ↔ i.val < flushBatchSize := by
    intro i
    rw [mem_batch (m := 0) place, Nat.mul_zero, Nat.zero_add, Nat.mul_one]
    exact and_iff_right (Nat.zero_le _)
  have member : spare ∈ window wide p flushBatchSize := index.mpr early
  have rest : ((window wide p flushBatchSize).erase spare).length = flushBatchSize - 1 := by
    rw [List.length_erase_of_mem member, window_length]
  obtain ⟨b', t, reached, after, turning', states⟩ := turning.again tracks reach small below more
    (Nat.le_of_eq enough.symm) short (batch_nodup.erase spare) (by rw [rest]; exact Nat.sub_le _ _)
    (fun i inside => ⟨List.mem_of_mem_erase inside, by
      rintro rfl
      exact batch_nodup.not_mem_erase inside⟩)
  have allDirty : ∀ i : InodeIdx N, i.val < 2 ^ 26 → i ≠ spare → b'.state i = .dirty := by
    intro i low other
    rw [states]
    split
    · rfl
    · rename_i outside
      have later : i ∉ window wide p flushBatchSize := fun inside =>
        outside ((List.mem_erase_of_ne other).mpr inside)
      rw [if_neg later]
      refine returned.state i (Nat.le_of_not_lt fun inside => later (index.mpr inside)) ?_
      simp only [flushBatchSize]
      omega
  obtain ⟨u, reachedU, free, count, drained⟩ := turning'.drains after reached allDirty
  have size := turning.size
  have size' := turning'.size
  simp only [flushBatchSize, List.length_append, rest] at more size'
  exact ⟨u, reachedU, free, by omega, drained⟩

end Turning

/-- Table sizes for which the run fits: all but 99 inodes are taken, and after `turn` batches
the queue is down to the low-water mark and has come to the second batch of low inodes. -/
structure Fits (limit turn : Nat) (last : InodeIdx N) : Prop where
  total : N = last.val + 99
  small : N ≤ 2 ^ 31
  below : last.val ≤ limit
  wide : 2 ^ 26 < kFlushLwm N
  mark : flushBatchSize * turn + kFlushLwm N = last.val + 1
  place : flushBatchSize * turn % 2 ^ 26 = flushBatchSize

namespace Fits

variable {last : InodeIdx N} {turn n : Nat}

theorem far (fits : Fits limit turn last) : 2 ^ 26 ≤ last.val := by
  have wide := fits.wide
  have total := fits.total
  simp only [kFlushLwm] at wide
  omega

/-- Flushes and syncs go on while the dirty inodes are not below kFlushLwm. -/
theorem turning (fits : Fits limit turn last) (wide : 2 ^ 26 ≤ N) (memory : State C N)
    (cwd : String) (first : 1 ≤ n) (before : n ≤ turn) :
    ∃ spare b s, (system C N cwd limit).ReachableBy GuardedStep s ∧ Tracks b s ∧
      spare.val < flushBatchSize ∧ Turning wide spare last (flushBatchSize * n) [] b := by
  have mark := fits.mark
  have least := fits.wide
  simp only [flushBatchSize] at mark
  induction n, first using Nat.le_induction with
  | base =>
    exact turning_start wide memory cwd fits.total fits.far (by omega) fits.small fits.below
  | succ n first ih =>
    obtain ⟨spare, b, s, reach, tracks, early, turning⟩ := ih (by omega)
    have size := turning.size
    simp only [flushBatchSize, List.length_nil] at size
    obtain ⟨b', t, reached, after, turning', _⟩ := turning.flushes tracks reach
      (by simp only [flushBatchSize]; omega) (by omega) fits.small
    rw [Nat.mul_succ]
    exact ⟨spare, b', t, reached, after, early, turning'⟩

/-- From then on each batch is written again. -/
theorem returning (fits : Fits limit turn last) (wide : 2 ^ 26 ≤ N) (memory : State C N)
    (cwd : String) (room : n < 2 ^ 16) :
    ∃ spare back b s, (system C N cwd limit).ReachableBy GuardedStep s ∧ Tracks b s ∧
      spare.val < flushBatchSize ∧
      Turning wide spare last (flushBatchSize * turn + flushBatchSize * n) back b ∧
      Returned n back b := by
  have total := fits.total
  have mark := fits.mark
  have least := fits.wide
  have place := fits.place
  have below := fits.below
  simp only [flushBatchSize] at mark place
  induction n with
  | zero =>
    obtain ⟨spare, b, s, reach, tracks, early, turning⟩ :=
      fits.turning wide memory cwd (n := turn) (by omega) (Nat.le_refl _)
    refine ⟨spare, [], b, s, reach, tracks, early, turning, rfl, fun i low high => ?_⟩
    rw [Nat.zero_add, Nat.mul_one] at high
    exact absurd high (Nat.not_lt_of_le low)
  | succ n ih =>
    obtain ⟨spare, back, b, s, reach, tracks, early, turning, returned⟩ := ih (by omega)
    have size := turning.size
    rw [returned.length] at size
    simp only [flushBatchSize] at size
    obtain ⟨back', b', t, reached, after, turning', returned'⟩ :=
      turning.returns tracks reach fits.small (by omega)
        (by simp only [flushBatchSize]; omega) (by omega) (by omega) early
        (by simp only [flushBatchSize]; omega) returned
    rw [Nat.mul_succ, ← Nat.add_assoc]
    exact ⟨spare, back', b', t, reached, after, early, turning', returned'⟩

/-- At the end nothing is queued for sync or for the balloon threads, and one dirty inode is
missing for a flush. -/
theorem stops (fits : Fits limit turn last) (memory : State C N) (cwd : String) :
    ∃ s, (system C N cwd limit).ReachableBy GuardedStep s ∧ s.inodeFreeCount = 99 ∧
      s.inodeDirtyCount < kFlushLwm N ∧ Drained s := by
  have far := fits.far
  have total := fits.total
  have below := fits.below
  have least := fits.wide
  have mark := fits.mark
  have place := fits.place
  simp only [flushBatchSize] at mark place
  obtain ⟨spare, back, b, s, reach, tracks, early, turning, returned⟩ :=
    fits.returning (by omega) memory cwd (by decide : 2 ^ 16 - 1 < 2 ^ 16)
  have size := turning.size
  rw [returned.length] at size
  simp only [flushBatchSize] at size
  exact turning.ends tracks reach fits.small (by omega)
    (by simp only [flushBatchSize]; omega) (by omega) (by omega) early
    (by simp only [flushBatchSize]; omega) returned

end Fits

end BurstBuffer.Source
