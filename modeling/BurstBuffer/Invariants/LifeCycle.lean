import BurstBuffer.Invariants.BlockStep

/-!
# The life cycle of an inode

FREE, DIRTY, SYNC and CLEAN as queue membership, lock and hash node. `held` are
the inodes a running flush has dequeued and locked and not yet handed to sync;
between operations it is empty. The invariant is one statement per inode, so
that an operation on one inode only has to be followed there.
-/
namespace BurstBuffer.Source

open Library

variable {C : CuckoohashMap} {N : Nat}

def states (s : State C N) : InodeIdx N → InodeState := fun i => (s.inodeTable i).state

/-- Where inode `i` is queued, which hash node it has and whether it is locked. -/
structure InodeOk (s : State C N) (held : List (InodeIdx N)) (i : InodeIdx N) : Prop where
  free : copies (contents s.inodeFreeLfqueue) i = if (s.inodeTable i).state = .free then 1 else 0
  dirty : ∀ v, (s.inodeDirtyLfqueue v).values.count i =
    if (s.inodeTable i).state = .dirty ∧ (s.inodeTable i).volume = some v ∧ i ∉ held then 1 else 0
  sync : copies (contents s.inodeSyncLfqueue) i = if (s.inodeTable i).state = .sync then 1 else 0
  clean : (s.inodeTable i).state = .clean → 0 < copies (contents s.inodeCleanLfqueue) i
  bound : ∀ v lbn, validInode s v lbn = some i ↔ (s.inodeTable i).state ≠ .free ∧
    (s.inodeTable i).volume = some v ∧ (s.inodeTable i).lbn = lbn
  owned : (s.inodeTable i).state ≠ .free → (s.inodeTable i).volume.isSome
  locked : (s.inodeTable i).lock = true ↔ (s.inodeTable i).state = .sync ∨ i ∈ held
  heldDirty : i ∈ held → (s.inodeTable i).state = .dirty

structure LifeCycle (s : State C N) (held : List (InodeIdx N)) : Prop where
  inode : ∀ i, InodeOk s held i
  nodes : NodesOk s
  freeCount : s.inodeFreeCount = tally (states s) .free
  dirtyCount : s.inodeDirtyCount = tally (states s) .dirty
  distinct : held.Nodup

theorem states_update {s t : State C N} {i : InodeIdx N} {entry : InodeEntry N}
    (entries : t.inodeTable = Function.update s.inodeTable i entry) :
    states t = Function.update (states s) i entry.state := by
  funext j
  by_cases same : j = i
  · subst j
    simp [states, entries]
  · simp [states, entries, Function.update_of_ne same]

theorem tally_states {s t : State C N} {i : InodeIdx N} {entry : InodeEntry N}
    (entries : t.inodeTable = Function.update s.inodeTable i entry) (a : InodeState) :
    tally (states t) a + (if (s.inodeTable i).state = a then 1 else 0) =
      tally (states s) a + if entry.state = a then 1 else 0 := by
  rw [states_update entries]
  exact tally_update (states s) i entry.state a

/-- An operation on other inodes. -/
theorem InodeOk.congr {s t : State C N} {held held' : List (InodeIdx N)} {i : InodeIdx N}
    (ok : InodeOk s held i) (entry : t.inodeTable i = s.inodeTable i)
    (free : copies (contents t.inodeFreeLfqueue) i = copies (contents s.inodeFreeLfqueue) i)
    (dirty : ∀ v, (t.inodeDirtyLfqueue v).values.count i =
      (s.inodeDirtyLfqueue v).values.count i)
    (sync : copies (contents t.inodeSyncLfqueue) i = copies (contents s.inodeSyncLfqueue) i)
    (clean : copies (contents t.inodeCleanLfqueue) i = copies (contents s.inodeCleanLfqueue) i)
    (bound : ∀ v lbn, validInode t v lbn = some i ↔ validInode s v lbn = some i)
    (member : i ∈ held' ↔ i ∈ held) : InodeOk t held' i := by
  refine ⟨?_, ?_, ?_, ?_, ?_, ?_, ?_, ?_⟩
  · rw [free, entry, ok.free]
  · intro v
    rw [dirty, entry, ok.dirty]
    simp only [member]
  · rw [sync, entry, ok.sync]
  · rw [entry, clean]
    exact ok.clean
  · intro v lbn
    rw [bound, entry]
    exact ok.bound v lbn
  · rw [entry]
    exact ok.owned
  · rw [entry, member]
    exact ok.locked
  · rw [entry, member]
    exact ok.heldDirty

namespace LifeCycle

variable {s : State C N} {held : List (InodeIdx N)}

theorem keyOk (cycle : LifeCycle s held) (v : VolumeIdx) (lbn : Nat) : KeyOk s v lbn := by
  intro i bound
  obtain ⟨_, volume, key⟩ := ((cycle.inode i).bound v lbn).mp bound
  exact ⟨key, volume⟩

/-- A key of a non-free inode leads back to it. -/
theorem validInode_self (cycle : LifeCycle s held) {i : InodeIdx N} {v : VolumeIdx}
    (inUse : (s.inodeTable i).state ≠ .free) (owner : (s.inodeTable i).volume = some v) :
    validInode s v (s.inodeTable i).lbn = some i :=
  ((cycle.inode i).bound v _).mpr ⟨inUse, owner, rfl⟩

/-- Two inodes in use with one key are one inode. -/
theorem eq_of_key (cycle : LifeCycle s held) {i j : InodeIdx N} {v : VolumeIdx}
    (iUsed : (s.inodeTable i).state ≠ .free) (jUsed : (s.inodeTable j).state ≠ .free)
    (iOwner : (s.inodeTable i).volume = some v) (jOwner : (s.inodeTable j).volume = some v)
    (lbn : (s.inodeTable i).lbn = (s.inodeTable j).lbn) : i = j := by
  have first := cycle.validInode_self iUsed iOwner
  rw [lbn, cycle.validInode_self jUsed jOwner] at first
  exact (Option.some.inj first).symm

theorem free_of_queued (cycle : LifeCycle s held) {k : Fin defaultNumFree} {i : InodeIdx N}
    (queued : i ∈ (s.inodeFreeLfqueue k).values) : (s.inodeTable i).state = .free := by
  have present : 0 < copies (contents s.inodeFreeLfqueue) i := copies_pos.mpr ⟨k, queued⟩
  rw [(cycle.inode i).free] at present
  by_contra other
  rw [if_neg other] at present
  exact absurd present (Nat.lt_irrefl 0)

theorem sync_of_queued (cycle : LifeCycle s held) {k : Fin defaultNumSyncer} {i : InodeIdx N}
    (queued : i ∈ (s.inodeSyncLfqueue k).values) : (s.inodeTable i).state = .sync := by
  have present : 0 < copies (contents s.inodeSyncLfqueue) i := copies_pos.mpr ⟨k, queued⟩
  rw [(cycle.inode i).sync] at present
  by_contra other
  rw [if_neg other] at present
  exact absurd present (Nat.lt_irrefl 0)

theorem dirty_of_queued (cycle : LifeCycle s held) {v : VolumeIdx} {i : InodeIdx N}
    (queued : i ∈ (s.inodeDirtyLfqueue v).values) :
    (s.inodeTable i).state = .dirty ∧ (s.inodeTable i).volume = some v ∧ i ∉ held := by
  have present := List.count_pos_iff.mpr queued
  rw [(cycle.inode i).dirty] at present
  by_contra other
  rw [if_neg other] at present
  exact absurd present (Nat.lt_irrefl 0)

/-- An operation that changes one inode: the others only see their own queue
entries and hash nodes. -/
theorem move (cycle : LifeCycle s held) {t : State C N} {held' : List (InodeIdx N)}
    {i : InodeIdx N} {entry : InodeEntry N}
    (entries : t.inodeTable = Function.update s.inodeTable i entry) (here : InodeOk t held' i)
    (queues : ∀ j, j ≠ i →
      copies (contents t.inodeFreeLfqueue) j = copies (contents s.inodeFreeLfqueue) j ∧
      (∀ v, (t.inodeDirtyLfqueue v).values.count j = (s.inodeDirtyLfqueue v).values.count j) ∧
      copies (contents t.inodeSyncLfqueue) j = copies (contents s.inodeSyncLfqueue) j ∧
      copies (contents t.inodeCleanLfqueue) j = copies (contents s.inodeCleanLfqueue) j)
    (bound : ∀ j, j ≠ i → ∀ v lbn, validInode t v lbn = some j ↔ validInode s v lbn = some j)
    (member : ∀ j, j ≠ i → (j ∈ held' ↔ j ∈ held)) (nodes : NodesOk t)
    (freeCount : t.inodeFreeCount + (if (s.inodeTable i).state = .free then 1 else 0) =
      s.inodeFreeCount + if entry.state = .free then 1 else 0)
    (dirtyCount : t.inodeDirtyCount + (if (s.inodeTable i).state = .dirty then 1 else 0) =
      s.inodeDirtyCount + if entry.state = .dirty then 1 else 0)
    (distinct : held'.Nodup) : LifeCycle t held' := by
  refine ⟨fun j => ?_, nodes, ?_, ?_, distinct⟩
  · by_cases same : j = i
    · exact same ▸ here
    · obtain ⟨free, dirty, sync, clean⟩ := queues j same
      exact (cycle.inode j).congr (by rw [entries, Function.update_of_ne same]) free dirty sync
        clean (bound j same) (member j same)
  · have moved := tally_states entries .free
    have total := cycle.freeCount
    omega
  · have moved := tally_states entries .dirty
    have total := cycle.dirtyCount
    omega

/-- Choosing the inode of a block step takes it out of the free queues, if it was there. -/
theorem source_free (cycle : LifeCycle s held) {t : State C N} {v : VolumeIdx} {lbn : Nat}
    {i : InodeIdx N} (source : InodeSource s t v lbn i) :
    (∀ j, copies (contents t.inodeFreeLfqueue) j =
        if j = i then 0 else copies (contents s.inodeFreeLfqueue) j) ∧
      t.inodeFreeCount + (if (s.inodeTable i).state = .free then 1 else 0) = s.inodeFreeCount := by
  cases source with
  | bound valid queues count turn =>
    have inUse := (((cycle.inode i).bound v lbn).mp valid).1
    have absent := (cycle.inode i).free
    rw [if_neg inUse] at absent ⊢
    refine ⟨fun j => ?_, count⟩
    rw [queues]
    split
    · rename_i same
      rw [same, absent]
    · rfl
  | taken unbound enough rest head queues count turn =>
    have queued := copies_dequeue head
    have isFree : (s.inodeTable i).state = .free :=
      cycle.free_of_queued (k := roundRobin defaultNumFree s.freeDequeueIdx)
        (by rw [LfQueue.dequeue_eq_some.mp head]; exact List.mem_cons_self)
    have single := (cycle.inode i).free
    rw [if_pos isFree] at single ⊢
    refine ⟨fun j => ?_, ?_⟩
    · have here := queued j
      rw [queues]
      split
      · rename_i same
        rw [same, if_pos rfl, single] at here
        rw [same]
        omega
      · rename_i other
        rw [if_neg (Ne.symm other)] at here
        exact here.symm
    · have positive : 0 < tally (states s) .free := isFree ▸ tally_pos (f := states s)
      have total := cycle.freeCount
      omega

/-- The inode of a block step is bound to its key by nobody else before the step. -/
theorem source_bound (cycle : LifeCycle s held) {t : State C N} {v : VolumeIdx} {lbn : Nat}
    {i : InodeIdx N} (source : InodeSource s t v lbn i) {w : VolumeIdx} {l : Nat} :
    (validInode s w l = some i → w = v ∧ l = lbn) ∧
      ∀ j, validInode s v lbn = some j → j = i := by
  cases source with
  | bound valid =>
    refine ⟨fun other => ?_, fun j bound => ?_⟩
    · obtain ⟨_, volume, key⟩ := ((cycle.inode i).bound v lbn).mp valid
      obtain ⟨_, volume', key'⟩ := ((cycle.inode i).bound w l).mp other
      exact ⟨Option.some.inj (volume'.symm.trans volume), key'.symm.trans key⟩
    · exact Option.some.inj (bound.symm.trans valid)
  | taken unbound _ rest head =>
    have isFree : (s.inodeTable i).state = .free :=
      cycle.free_of_queued (k := roundRobin defaultNumFree s.freeDequeueIdx)
        (by rw [LfQueue.dequeue_eq_some.mp head]; exact List.mem_cons_self)
    refine ⟨fun other => absurd isFree (((cycle.inode i).bound w l).mp other).1,
      fun j bound => ?_⟩
    rw [unbound] at bound
    cases bound

theorem writeBlock_dirty (cycle : LifeCycle s []) {t : State C N} {v : VolumeIdx} {lbn count : Nat}
    {buf : Nat → UInt8} {i : InodeIdx N} (step : BlockWritten s t v lbn buf count i) (w : VolumeIdx)
    (j : InodeIdx N) : (t.inodeDirtyLfqueue w).values.count j =
      if j = i then if w = v then 1 else 0 else (s.inodeDirtyLfqueue w).values.count j := by
  have change := step.dirty
  have before := (cycle.inode i).dirty w
  simp only [List.not_mem_nil, not_false_eq_true, and_true] at before
  split at change
  · rename_i wasDirty
    rw [change.1]
    split
    · rename_i same
      subst j
      have inUse : (s.inodeTable i).state ≠ .free := by
        rw [wasDirty]
        decide
      have owner : (s.inodeTable i).volume = some v := by
        cases step.source with
        | bound valid => exact (((cycle.inode i).bound v lbn).mp valid).2.1
        | taken _ _ _ head =>
          exact absurd (cycle.free_of_queued (k := roundRobin defaultNumFree s.freeDequeueIdx)
            (by rw [LfQueue.dequeue_eq_some.mp head]; exact List.mem_cons_self)) inUse
      rw [before, wasDirty, owner]
      simp [eq_comm]
    · rfl
  · rename_i notDirty
    obtain ⟨q, queued, queues, _⟩ := change
    rw [queues, count_enqueue queued]
    rw [if_neg fun both => notDirty both.1] at before
    by_cases same : j = i
    · subst j
      simp [before]
    · rw [if_neg same, if_neg fun both => same both.2.symm, Nat.add_zero]

theorem writeBlock (cycle : LifeCycle s []) {t : State C N} {v : VolumeIdx} {lbn count : Nat}
    {buf : Nat → UInt8} {i : InodeIdx N} (step : BlockWritten s t v lbn buf count i) :
    LifeCycle t [] := by
  obtain ⟨free, freeCount⟩ := cycle.source_free step.source
  have sameSync : t.inodeSyncLfqueue = s.inodeSyncLfqueue := by rw [step.frame]
  have sameClean : t.inodeCleanLfqueue = s.inodeCleanLfqueue := by rw [step.frame]
  have notSync : (s.inodeTable i).state ≠ .sync := by
    intro sync
    have locked := (cycle.inode i).locked.mpr (Or.inl sync)
    rw [step.wasUnlocked] at locked
    cases locked
  have entry : t.inodeTable i =
      { lbn := lbn, state := .dirty, volume := some v
        blockIndex := (s.volumeTable v).blockIndex, lock := false } := by
    rw [step.entries, Function.update_self]
  have boundAfter : ∀ w l, validInode t w l = some i ↔ w = v ∧ l = lbn := by
    intro w l
    rw [step.bound]
    split
    · rename_i key
      exact ⟨fun _ => key, fun _ => rfl⟩
    · rename_i other
      exact ⟨fun valid => (cycle.source_bound step.source).1 valid, fun key => absurd key other⟩
  have here : InodeOk t [] i := by
    refine ⟨?_, ?_, ?_, ?_, ?_, ?_, ?_, ?_⟩
    · rw [free, if_pos rfl, entry]
      rfl
    · intro w
      rw [cycle.writeBlock_dirty step, if_pos rfl, entry]
      simp [eq_comm]
    · rw [sameSync, (cycle.inode i).sync, if_neg notSync, entry]
      rfl
    · rw [entry]
      intro clean
      cases clean
    · intro w l
      rw [boundAfter, entry]
      simp [eq_comm]
    · simp [entry]
    · simp [entry]
    · simp
  refine cycle.move step.entries here (fun j other => ?_) (fun j other w l => ?_)
    (fun _ _ => Iff.rfl) step.nodes ?_ ?_ List.nodup_nil
  · refine ⟨?_, fun w => ?_, by rw [sameSync], by rw [sameClean]⟩
    · rw [free, if_neg other]
    · rw [cycle.writeBlock_dirty step, if_neg other]
  · rw [step.bound]
    split
    · rename_i key
      rw [key.1, key.2]
      constructor
      · intro now
        exact absurd (Option.some.inj now).symm other
      · intro valid
        exact absurd ((cycle.source_bound (w := w) (l := l) step.source).2 j valid) other
    · rfl
  · rw [freeCount]
    rfl
  · have change := step.dirty
    rw [if_pos rfl]
    split at change
    · rename_i wasDirty
      rw [if_pos wasDirty, change.2]
    · rename_i notDirty
      obtain ⟨q, _, _, counted⟩ := change
      rw [if_neg notDirty, counted]

end LifeCycle

end BurstBuffer.Source
