import BurstBuffer.Invariants.WholeBatches

/-!
# A ledger of one volume

What a run on the first volume comes to, without queues of threads, hash nodes and bytes. A
state that a ledger tracks can take each of the operations, and the ledger after it tracks
the state after it. Nothing here asks that inodes are found under the index computed for them.
-/
namespace BurstBuffer.Source

open Library

variable {C : CuckoohashMap} {N : Nat}

/-- The inode of each block, the block and the state of each inode, the dirty queue, the number
of free inodes, how many inodes have been taken, and what is queued for the balloon threads. -/
structure Ledger (N : Nat) where
  inode : Nat → Option (InodeIdx N)
  lbn : InodeIdx N → Nat
  state : InodeIdx N → InodeState
  dirty : List (InodeIdx N)
  free : Nat
  taken : Nat
  cleaned : List (InodeIdx N)

namespace Ledger

/-- A write to block `lbn` that finds or takes inode `i`, not dirty yet. -/
def write (b : Ledger N) (lbn : Nat) (i : InodeIdx N) (free taken : Nat) : Ledger N :=
  { b with
    inode := Function.update b.inode lbn (some i)
    lbn := Function.update b.lbn i lbn
    state := Function.update b.state i .dirty
    dirty := b.dirty ++ [inodeIdxOfPointer i]
    free := free
    taken := taken }

/-- A write to the block of inode `i`, which is not dirty. -/
def rewrite (b : Ledger N) (i : InodeIdx N) : Ledger N :=
  { b with
    state := Function.update b.state i .dirty
    dirty := b.dirty ++ [inodeIdxOfPointer i] }

/-- A flush of the first inodes of the dirty queue and the syncs behind it. -/
def flush (b : Ledger N) (batch rest : List (InodeIdx N)) : Ledger N :=
  { b with
    state := fun j => if j ∈ batch then .clean else b.state j
    dirty := rest
    cleaned := b.cleaned ++ batch }

/-- A pass that frees inode `i`. -/
def release (b : Ledger N) (i : InodeIdx N) : Ledger N :=
  { b with
    inode := Function.update b.inode (b.lbn i) none
    state := Function.update b.state i .free
    free := b.free + 1
    cleaned := b.cleaned.erase i }

/-- A pass that drops its entry. -/
def drop (b : Ledger N) (i : InodeIdx N) : Ledger N :=
  { b with cleaned := b.cleaned.erase i }

theorem write_dirty (b : Ledger N) (lbn : Nat) (i : InodeIdx N) (free taken : Nat) :
    (b.write lbn i free taken).dirty = b.dirty ++ [inodeIdxOfPointer i] :=
  rfl

theorem flush_dirty (b : Ledger N) (batch rest : List (InodeIdx N)) :
    (b.flush batch rest).dirty = rest :=
  rfl

theorem release_dirty (b : Ledger N) (i : InodeIdx N) : (b.release i).dirty = b.dirty :=
  rfl

end Ledger

/-- The state is as the ledger says, with no lock held and nothing queued for sync. -/
structure Tracks (b : Ledger N) (s : State C N) : Prop where
  nodes : NodesOk s
  table : (s.volumeTable zeroVolume).hashTable.isSome
  file : (s.volumeTable zeroVolume).fd.isSome
  listed : zeroVolume ∈ s.volumeInuseLfqueue.values
  unlocked : ∀ i, (s.inodeTable i).lock = false
  owner : ∀ i, i.val < b.taken → (s.inodeTable i).volume = some zeroVolume
  lbn : ∀ i, i.val < b.taken → (s.inodeTable i).lbn = b.lbn i
  state : ∀ i, (s.inodeTable i).state = b.state i
  bound : ∀ lbn, validInode s zeroVolume lbn = b.inode lbn
  key : ∀ lbn i, b.inode lbn = some i → i.val < b.taken ∧ b.lbn i = lbn
  dirty : (s.inodeDirtyLfqueue zeroVolume).values = b.dirty
  dirtyCount : s.inodeDirtyCount = b.dirty.length
  free : s.inodeFreeCount = b.free
  synced : ∀ i, copies (contents s.inodeSyncLfqueue) i = 0
  cleaned : ∀ i, copies (contents s.inodeCleanLfqueue) i = b.cleaned.count i

/-- The entries after a block step, but for the block indices. -/
theorem written_entry {s u t : State C N} {p : NodePtr} {i idx : InodeIdx N} {v w : VolumeIdx}
    {lbn count : Nat} {buf : Nat → UInt8} (node : NodeLocked s u v lbn p i)
    (stored : Stored u t p i idx v w buf count) (j : InodeIdx N) :
    t.inodeTable j = { Function.update s.inodeTable i { s.inodeTable i with
      lbn := lbn, volume := some v, state := .dirty, lock := false } j with
      blockIndex := (t.inodeTable j).blockIndex } := by
  have marked : markDirty u i = Function.update s.inodeTable i { s.inodeTable i with
      lbn := lbn, volume := some v, state := .dirty, lock := false } := by
    rw [markDirty, node.entries, Function.update_self, Function.update_idem]
  rw [stored.entries, marked]
  by_cases here : j = idx
  · rw [here, Function.update_self]
  · rw [Function.update_of_ne here]

namespace Tracks

variable {b : Ledger N} {s : State C N} {lbn : Nat} {i : InodeIdx N} {cwd : String} {limit : Nat}
  {index : Fin defaultNumBalloon} {q : LfQueue (InodeIdx N) N}

theorem keyOk (tracks : Tracks b s) (lbn : Nat) : KeyOk s zeroVolume lbn := by
  intro i valid
  rw [tracks.bound] at valid
  obtain ⟨inside, key⟩ := tracks.key lbn i valid
  exact ⟨(tracks.lbn i inside).trans key, tracks.owner i inside⟩

/-- A block step whose inode is not DIRTY, whatever index is computed for it. -/
theorem writes (tracks : Tracks b s) {taken : Nat} (chosen : blockInode s zeroVolume lbn = some i)
    (enough : b.inode lbn = none → defaultFreeMinCount ≤ b.free)
    (other : ∀ l, b.inode l = some i → l = lbn) (clean : b.state i ≠ .dirty)
    (grows : b.taken ≤ taken) (inside : i.val < taken)
    (before : ∀ j : InodeIdx N, j.val < taken → j ≠ i → j.val < b.taken)
    (room : b.dirty.length < N) (limit : Nat) (below : lbn < limit) (cwd : String) :
    ∃ t, next cwd limit s (.writeBlock zeroVolume lbn 0 (fun _ => 0) blockSize) = some t ∧
      InodeSource s t zeroVolume lbn i ∧ Tracks (b.write lbn i t.inodeFreeCount taken) t := by
  have low : (inodeIdxOfPointer i).val < taken := by
    rw [inodeIdxOfPointer_val]
    exact Nat.lt_of_le_of_lt (Nat.mod_le _ _) inside
  obtain ⟨p, u, t, written, node, stored⟩ := writeBlock_through tracks.nodes (tracks.keyOk lbn) 0
    blockSize (fun _ => 0) tracks.table chosen (by rw [tracks.bound, tracks.free]; exact enough)
    (tracks.unlocked i) (fun apart => tracks.owner _ (before _ low apart))
    (by rw [tracks.dirty]; exact fun _ => room)
  have entry := written_entry node stored
  have same : u.inodeDirtyLfqueue = s.inodeDirtyLfqueue ∧ u.inodeDirtyCount = s.inodeDirtyCount ∧
      t.inodeSyncLfqueue = s.inodeSyncLfqueue ∧ t.inodeCleanLfqueue = s.inodeCleanLfqueue ∧
      t.volumeInuseLfqueue = s.volumeInuseLfqueue := by
    rw [stored.frame, node.frame]
    exact ⟨rfl, rfl, rfl, rfl, rfl⟩
  obtain ⟨dirtyQueues, dirtyCount, syncs, cleans, inuse⟩ := same
  have after := stored.nodes node.nodes
  have identity := (stored.identity zeroVolume).trans (node.identity zeroVolume)
  simp only [volumeIdentity, Prod.mk.injEq] at identity
  obtain ⟨_, file, table⟩ := identity
  have dirty := stored.dirty
  have notDirty : (u.inodeTable i).state ≠ .dirty := by
    rw [node.entries, Function.update_self, tracks.state]
    exact clean
  rw [if_neg notDirty] at dirty
  obtain ⟨q, queued, queues, counted⟩ := dirty
  rw [dirtyQueues] at queued queues
  refine ⟨t, ?_, stored.source node.source, after.1, table.trans tracks.table, ?_, ?_,
    fun j => ?_, fun j early => ?_, fun j early => ?_, fun j => ?_, fun l => ?_, fun l j => ?_,
    ?_, ?_, rfl, fun j => ?_, fun j => ?_⟩
  · rw [next, if_pos ⟨below, Nat.le_refl blockSize⟩, written]
    rfl
  · rw [file]
    exact tracks.file
  · rw [inuse]
    exact tracks.listed
  · rw [entry]
    by_cases here : j = i
    · rw [here, Function.update_self]
    · rw [Function.update_of_ne here]
      exact tracks.unlocked j
  · rw [entry]
    by_cases here : j = i
    · rw [here, Function.update_self]
    · rw [Function.update_of_ne here]
      exact tracks.owner j (before j early here)
  · rw [entry]
    by_cases here : j = i
    · rw [here, Function.update_self]
      exact (Function.update_self i lbn b.lbn).symm
    · rw [Function.update_of_ne here]
      exact (tracks.lbn j (before j early here)).trans (Function.update_of_ne here _ _).symm
  · rw [entry]
    by_cases here : j = i
    · rw [here, Function.update_self]
      exact (Function.update_self i _ b.state).symm
    · rw [Function.update_of_ne here]
      exact (tracks.state j).trans (Function.update_of_ne here _ _).symm
  · rw [after.2, node.bound]
    by_cases here : l = lbn
    · rw [here, if_pos ⟨rfl, rfl⟩]
      exact (Function.update_self lbn _ b.inode).symm
    · rw [if_neg fun both => here both.2]
      exact (tracks.bound l).trans (Function.update_of_ne here _ _).symm
  · intro found
    by_cases here : l = lbn
    · subst here
      cases (Function.update_self l _ b.inode).symm.trans found
      exact ⟨inside, Function.update_self _ _ _⟩
    · have found' : b.inode l = some j := (Function.update_of_ne here _ _).symm.trans found
      have apart : j ≠ i := by
        rintro rfl
        exact here (other l found')
      obtain ⟨early, key⟩ := tracks.key l j found'
      exact ⟨Nat.lt_of_lt_of_le early grows, (Function.update_of_ne apart _ _).trans key⟩
  · rw [queues, Function.update_self, LfQueue.enqueue_eq_some.mp queued, tracks.dirty]
    rfl
  · rw [counted, dirtyCount, tracks.dirtyCount, Ledger.write, List.length_append]
    rfl
  · rw [syncs]
    exact tracks.synced j
  · rw [cleans]
    exact tracks.cleaned j

theorem rewrites (tracks : Tracks b s) (reach : (system C N cwd limit).ReachableBy GuardedStep s)
    (bound : b.inode lbn = some i) (clean : b.state i ≠ .dirty) (room : b.dirty.length < N)
    (below : lbn < limit) :
    ∃ t, (system C N cwd limit).ReachableBy GuardedStep t ∧ Tracks (b.rewrite i) t ∧
      t.inodeFreeLfqueue = s.inodeFreeLfqueue ∧ t.freeDequeueIdx = s.freeDequeueIdx := by
  obtain ⟨inside, key⟩ := tracks.key lbn i bound
  have valid : validInode s zeroVolume lbn = some i := (tracks.bound lbn).trans bound
  have chosen : blockInode s zeroVolume lbn = some i := by rw [blockInode, valid]
  obtain ⟨t, step, source, after⟩ := tracks.writes chosen
    (fun none => by rw [bound] at none; cases none)
    (fun l other => by
      obtain ⟨_, here⟩ := tracks.key l i other
      exact here.symm.trans key) clean (Nat.le_refl _) inside (fun _ early _ => early) room limit
    below cwd
  have same : b.write lbn i b.free b.taken = b.rewrite i := by
    rw [Ledger.write, Ledger.rewrite, ← bound, ← key, Function.update_eq_self,
      Function.update_eq_self]
  cases source with
  | taken unbound =>
    rw [valid] at unbound
    cases unbound
  | bound _ queues count turn =>
    rw [count, tracks.free, same] at after
    exact ⟨t, reach.step (e := .writeBlock zeroVolume lbn 0 (fun _ => 0) blockSize) trivial step,
      after, queues, turn⟩

theorem takes (tracks : Tracks b s) (reach : (system C N cwd limit).ReachableBy GuardedStep s)
    (unbound : b.inode lbn = none) {rest : LfQueue (InodeIdx N) N}
    (head : (s.inodeFreeLfqueue (roundRobin defaultNumFree s.freeDequeueIdx)).dequeue =
      some (i, rest)) (fresh : i.val = b.taken) (clean : b.state i ≠ .dirty)
    (enough : defaultFreeMinCount ≤ b.free) (room : b.dirty.length < N) (below : lbn < limit) :
    ∃ t, (system C N cwd limit).ReachableBy GuardedStep t ∧
      Tracks (b.write lbn i (b.free - 1) (b.taken + 1)) t ∧
      t.inodeFreeLfqueue =
        Function.update s.inodeFreeLfqueue (roundRobin defaultNumFree s.freeDequeueIdx) rest ∧
      t.freeDequeueIdx = s.freeDequeueIdx + 1 := by
  have valid : validInode s zeroVolume lbn = none := (tracks.bound lbn).trans unbound
  have chosen : blockInode s zeroVolume lbn = some i := by
    rw [blockInode, valid, head]
    rfl
  obtain ⟨t, step, source, after⟩ := tracks.writes chosen (fun _ => enough)
    (fun l other => by
      obtain ⟨early, _⟩ := tracks.key l i other
      omega) clean (Nat.le_succ _) (by omega) (fun j early apart => by
      have different : j.val ≠ i.val := fun same => apart (Fin.ext same)
      omega) room limit below cwd
  cases source with
  | bound valid' =>
    rw [valid] at valid'
    cases valid'
  | taken _ _ rest' head' queues count turn =>
    cases head.symm.trans head'
    rw [count, tracks.free] at after
    exact ⟨t, reach.step (e := .writeBlock zeroVolume lbn 0 (fun _ => 0) blockSize) trivial step,
      after, queues, turn⟩

theorem cleanSize (tracks : Tracks b s) :
    poolSize (contents s.inodeCleanLfqueue) = b.cleaned.length := by
  rw [← sum_copies, Finset.sum_congr rfl fun j _ => tracks.cleaned j, sum_count]

theorem flushes (tracks : Tracks b s) (reach : (system C N cwd limit).ReachableBy GuardedStep s)
    {batch rest : List (InodeIdx N)} (queue : b.dirty = batch ++ rest)
    (full : batch.length = flushBatchSize) (more : rest ≠ []) (distinct : batch.Nodup)
    (taken : ∀ i ∈ batch, i.val < b.taken ∧ b.lbn i < 2 ^ 32)
    (enough : kFlushLwm N ≤ b.dirty.length) (small : N ≤ 2 ^ 31)
    (room : b.cleaned.length + flushBatchSize ≤ N) :
    ∃ t, (system C N cwd limit).ReachableBy GuardedStep t ∧ Tracks (b.flush batch rest) t ∧
      t.inodeFreeLfqueue = s.inodeFreeLfqueue ∧ t.freeDequeueIdx = s.freeDequeueIdx := by
  obtain ⟨file, fd⟩ := Option.isSome_iff_exists.mp tracks.file
  have drained : ∀ k, (s.inodeSyncLfqueue k).values = [] := by
    intro k
    refine List.eq_nil_iff_forall_not_mem.mpr fun i => ?_
    exact copies_eq_zero.mp (tracks.synced i) k
  have sizes := congrArg List.length queue
  rw [List.length_append, full] at sizes
  have positive := List.length_pos_iff.mpr more
  have works : works s (.flush zeroVolume) = true := by
    have several : 1 < (s.inodeDirtyLfqueue zeroVolume).getSize := by
      rw [LfQueue.getSize, tracks.dirty]
      simp only [flushBatchSize] at sizes
      omega
    exact works_flush.mpr ⟨tracks.dirtyCount ▸ enough, tracks.listed, several⟩
  obtain ⟨u, flushed, left, entries, entered, counted⟩ := nvmFlush_front small
    (tracks.dirty.trans queue) full more distinct (fun i _ => tracks.unlocked i)
    (fun i member => tracks.owner i (taken i member).1) fd
    (fun i member => by
      rw [tracks.lbn i (taken i member).1]
      exact (taken i member).2)
    (fun k => by
      rw [drained k, List.length_nil]
      omega)
  have frame := nvmFlush_frame flushed
  have cleans : u.inodeCleanLfqueue = s.inodeCleanLfqueue := by rw [frame]
  have moving : ∀ j, copies (contents u.inodeSyncLfqueue) j = batch.count j := by
    intro j
    rw [entered, tracks.synced, Nat.zero_add]
  have size : poolSize (contents u.inodeSyncLfqueue) = flushBatchSize := by
    rw [← sum_copies, Finset.sum_congr rfl fun j _ => moving j, sum_count, full]
  obtain ⟨t, reached, synced, entries', cleaned, frame'⟩ :=
    syncs_empty (reach.step (e := .flush zeroVolume) works flushed)
      (by rw [cleans, tracks.cleanSize, size]; exact room)
  have entry : ∀ j, t.inodeTable j = if j ∈ batch then
      { s.inodeTable j with state := .clean, lock := false } else s.inodeTable j := by
    intro j
    rw [entries', entries, moving]
    by_cases here : j ∈ batch
    · rw [if_pos (List.count_pos_iff.mpr here), if_pos here, if_pos here]
    · rw [if_neg fun some => here (List.count_pos_iff.mp some), if_neg here, if_neg here]
  have same : t.volumeTable = s.volumeTable ∧ t.hashNodes = s.hashNodes ∧
      t.nextNode = s.nextNode ∧ t.volumeInuseLfqueue = s.volumeInuseLfqueue ∧
      t.inodeFreeCount = s.inodeFreeCount ∧ t.inodeFreeLfqueue = s.inodeFreeLfqueue ∧
      t.freeDequeueIdx = s.freeDequeueIdx := by
    rw [frame', frame]
    exact ⟨rfl, rfl, rfl, rfl, rfl, rfl, rfl⟩
  obtain ⟨volumes, heap, next, inuse, free, queues, turn⟩ := same
  have dirties : t.inodeDirtyLfqueue = u.inodeDirtyLfqueue ∧
      t.inodeDirtyCount = u.inodeDirtyCount := by
    rw [frame']
    exact ⟨rfl, rfl⟩
  obtain ⟨nodes, bound⟩ := nodes_same volumes heap next tracks.nodes
  refine ⟨t, reached, ⟨nodes, by rw [volumes]; exact tracks.table,
    by rw [volumes]; exact tracks.file, inuse ▸ tracks.listed, fun j => ?_, fun j early => ?_,
    fun j early => ?_, fun j => ?_, fun l => (bound _ l).trans (tracks.bound l), tracks.key, ?_,
    ?_, free.trans tracks.free, synced, fun j => ?_⟩, queues, turn⟩
  · rw [entry]
    split
    · rfl
    · exact tracks.unlocked j
  · rw [entry]
    split <;> exact tracks.owner j early
  · rw [entry]
    split <;> exact tracks.lbn j early
  · rw [entry, Ledger.flush]
    dsimp only
    split
    · rfl
    · exact tracks.state j
  · rw [dirties.1, left]
    rfl
  · rw [dirties.2, counted, tracks.dirtyCount, sizes]
    exact Nat.add_sub_cancel_left _ _
  · rw [cleaned, moving, cleans, tracks.cleaned]
    exact (List.count_append).symm

theorem queued (tracks : Tracks b s)
    (head : (s.inodeCleanLfqueue index).dequeue = some (i, q)) : i ∈ b.cleaned := by
  have member : i ∈ (s.inodeCleanLfqueue index).values := by
    rw [LfQueue.dequeue_eq_some.mp head]
    exact List.mem_cons_self
  have present : 0 < copies (contents s.inodeCleanLfqueue) i := copies_pos.mpr ⟨index, member⟩
  rw [tracks.cleaned] at present
  exact List.count_pos_iff.mp present

theorem popped (tracks : Tracks b s)
    (head : (s.inodeCleanLfqueue index).dequeue = some (i, q)) (j : InodeIdx N) :
    copies (contents (Function.update s.inodeCleanLfqueue index q)) j =
      (b.cleaned.erase i).count j := by
  have popped := copies_dequeue head j
  rw [tracks.cleaned] at popped
  rw [List.count_erase]
  simp only [beq_iff_eq]
  omega

theorem works_of_head (head : (s.inodeCleanLfqueue index).dequeue = some (i, q)) :
    works s (.balloon index) = true := by
  rw [works_balloon, LfQueue.dequeue_eq_some.mp head]
  exact List.cons_ne_nil _ _

theorem releases (tracks : Tracks b s) (reach : (system C N cwd limit).ReachableBy GuardedStep s)
    (head : (s.inodeCleanLfqueue index).dequeue = some (i, q)) (clean : b.state i = .clean)
    (bound : b.inode (b.lbn i) = some i) (room : ∀ k, (s.inodeFreeLfqueue k).values.length < N) :
    ∃ t, (system C N cwd limit).ReachableBy GuardedStep t ∧ Tracks (b.release i) t ∧
      (∃ r, (s.inodeFreeLfqueue (roundRobin defaultNumFree s.freeEnqueueIdx)).enqueue i = some r ∧
        t.inodeFreeLfqueue =
          Function.update s.inodeFreeLfqueue (roundRobin defaultNumFree s.freeEnqueueIdx) r) ∧
      t.freeDequeueIdx = s.freeDequeueIdx := by
  obtain ⟨inside, _⟩ := tracks.key _ i bound
  have here := tracks.lbn i inside
  obtain ⟨t, passed, cleans, freed⟩ := pass_frees tracks.nodes head
    ((tracks.state i).trans clean) (tracks.owner i inside)
    (by rw [here, tracks.bound, bound]) room
  have same : t.volumeInuseLfqueue = s.volumeInuseLfqueue ∧
      t.inodeDirtyLfqueue = s.inodeDirtyLfqueue ∧ t.inodeDirtyCount = s.inodeDirtyCount ∧
      t.inodeSyncLfqueue = s.inodeSyncLfqueue ∧ t.freeDequeueIdx = s.freeDequeueIdx := by
    rw [freed.frame]
    exact ⟨rfl, rfl, rfl, rfl, rfl⟩
  obtain ⟨inuse, dirties, count, syncs, turn⟩ := same
  have identity := freed.identity zeroVolume
  simp only [volumeIdentity, Prod.mk.injEq] at identity
  have entry : ∀ j, t.inodeTable j = { s.inodeTable j with
      state := Function.update b.state i .free j } := by
    intro j
    rw [freed.entries]
    by_cases same : j = i
    · rw [same, Function.update_self, Function.update_self]
    · rw [Function.update_of_ne same, Function.update_of_ne same, ← tracks.state j]
  refine ⟨t, reach.step (e := .balloon index) (works_of_head head) passed,
    ⟨freed.nodes, identity.2.2.trans tracks.table, by rw [identity.2.1]; exact tracks.file,
      inuse ▸ tracks.listed, fun j => by rw [entry]; exact tracks.unlocked j,
      fun j early => by rw [entry]; exact tracks.owner j early,
      fun j early => by rw [entry]; exact tracks.lbn j early, fun j => by rw [entry]; rfl,
      fun l => ?_, fun l j found => ?_, by rw [dirties]; exact tracks.dirty,
      count.trans tracks.dirtyCount, by rw [freed.count, tracks.free]; rfl,
      by rw [syncs]; exact tracks.synced, by rw [cleans]; exact tracks.popped head⟩,
    freed.queues, turn⟩
  · rw [freed.bound, here]
    by_cases same : l = b.lbn i
    · rw [same, if_pos ⟨rfl, rfl⟩]
      exact (Function.update_self (b.lbn i) none b.inode).symm
    · rw [if_neg fun both => same both.2]
      exact (tracks.bound l).trans (Function.update_of_ne same _ _).symm
  · by_cases same : l = b.lbn i
    · have none : (b.release i).inode l = none := by
        rw [same]
        exact Function.update_self _ _ _
      rw [none] at found
      cases found
    · exact tracks.key l j ((Function.update_of_ne same _ _).symm.trans found)

theorem drops (tracks : Tracks b s) (reach : (system C N cwd limit).ReachableBy GuardedStep s)
    (head : (s.inodeCleanLfqueue index).dequeue = some (i, q))
    (stale : b.state i = .clean → i.val < b.taken ∧
      ∃ j, b.inode (b.lbn i) = some j ∧ b.state j ≠ .clean) :
    ∃ t, (system C N cwd limit).ReachableBy GuardedStep t ∧ Tracks (b.drop i) t := by
  have passed := pass_drops tracks.nodes head (by
    rw [tracks.state]
    intro clean
    obtain ⟨inside, j, bound, other⟩ := stale clean
    refine ⟨zeroVolume, j, tracks.owner i inside, ?_, ?_⟩
    · rw [tracks.lbn i inside, tracks.bound, bound]
    · rw [tracks.state]
      exact other)
  refine ⟨_, reach.step (e := .balloon index) (works_of_head head) passed, ?_⟩
  obtain ⟨nodes, bound⟩ := nodes_same (s := s) (t := { s with
    inodeCleanLfqueue := Function.update s.inodeCleanLfqueue index q }) rfl rfl rfl tracks.nodes
  exact ⟨nodes, tracks.table, tracks.file, tracks.listed, tracks.unlocked, tracks.owner,
    tracks.lbn, tracks.state, fun l => (bound _ l).trans (tracks.bound l), tracks.key,
    tracks.dirty, tracks.dirtyCount, tracks.free, tracks.synced, tracks.popped head⟩

/-- Balloon threads that find only such entries drop all of them. -/
theorem drops_all (tracks : Tracks b s) (reach : (system C N cwd limit).ReachableBy GuardedStep s)
    (stale : ∀ i ∈ b.cleaned, b.state i = .clean → i.val < b.taken ∧
      ∃ j, b.inode (b.lbn i) = some j ∧ b.state j ≠ .clean) :
    ∃ t, (system C N cwd limit).ReachableBy GuardedStep t ∧ Tracks { b with cleaned := [] } t := by
  obtain ⟨n, size⟩ : ∃ n, b.cleaned.length = n := ⟨_, rfl⟩
  induction n generalizing b s with
  | zero =>
    have empty : b.cleaned = [] := List.eq_nil_of_length_eq_zero size
    refine ⟨s, reach, ?_⟩
    have same : { b with cleaned := [] } = b := by rw [← empty]
    rw [same]
    exact tracks
  | succ n ih =>
    obtain ⟨i, more⟩ := List.exists_mem_of_length_pos (by omega : 0 < b.cleaned.length)
    have present := List.count_pos_iff.mpr more
    rw [← tracks.cleaned] at present
    obtain ⟨index, queued⟩ := copies_pos.mp present
    obtain ⟨j, q, head⟩ := LfQueue.dequeue_isSome (List.ne_nil_of_mem queued)
    have member := tracks.queued head
    obtain ⟨u, reached, after⟩ := tracks.drops reach head (stale j member)
    have shorter : (b.drop j).cleaned.length = n := by
      have erased := List.length_erase_of_mem member
      simp only [Ledger.drop]
      omega
    exact ih (b := b.drop j) after reached
      (fun k later => stale k (List.mem_of_mem_erase later)) shorter

end Tracks

end BurstBuffer.Source
