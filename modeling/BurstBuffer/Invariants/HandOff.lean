import BurstBuffer.Invariants.FlushStep
import BurstBuffer.Source.Threads

/-!
# The hand-off between writers, flushers and sync threads

A DIRTY inode is one token, which lies in a dirty queue, is in the hands of a
flusher, or is owed to the queue by the writer that made the inode dirty. A SYNC
inode is one token on its way through a sync queue. A locked inode is one token
with the thread, or the queue, that its unlock is up to. The steps of the threads
move tokens.
-/
namespace BurstBuffer.Source

open Library

section Places

variable {N S : Nat}

namespace WriterPc

def request : WriterPc N → Option (Request N)
  | .idle => none
  | .lockNode r | .lockInode r | .readState r | .storeDirty r _ | .writeData r _
  | .countDirty r _ | .enqueue r | .unlockInode r | .unlockNode r => some r

/-- The inode the writer has locked. -/
def locked : WriterPc N → List (InodeIdx N)
  | .readState r | .storeDirty r _ | .writeData r _ | .countDirty r _ | .enqueue r
  | .unlockInode r => [r.inode]
  | .idle | .lockNode _ | .lockInode _ | .unlockNode _ => []

/-- The inode the writer has made dirty and not yet enqueued. -/
def owes : WriterPc N → List (InodeIdx N)
  | .writeData r oldState | .countDirty r oldState => if oldState = .dirty then [] else [r.inode]
  | .enqueue r => [r.inode]
  | _ => []

def oldState : WriterPc N → Option InodeState
  | .storeDirty _ oldState | .writeData _ oldState | .countDirty _ oldState => some oldState
  | _ => none

/-- What the writer knows of the state of the inode it has locked. -/
def Knows (state : InodeIdx N → InodeState) : WriterPc N → Prop
  | .storeDirty r oldState => state r.inode = oldState
  | .writeData r _ | .countDirty r _ | .enqueue r | .unlockInode r => state r.inode = .dirty
  | _ => True

end WriterPc

namespace FlusherPc

/-- The inode the flusher has dequeued and not yet locked. -/
def dequeued : FlusherPc N S → List (InodeIdx N)
  | .tryLock _ _ _ idx | .enqueueAgain _ _ _ idx => [idx]
  | _ => []

/-- The inodes it has locked and not yet set to SYNC. -/
def dirties : FlusherPc N S → List (InodeIdx N)
  | .collect iIdxs _ _ | .tryLock iIdxs _ _ _ | .enqueueAgain iIdxs _ _ _ => iIdxs
  | .write rest => rest
  | .handOff batch rest => batch ++ rest
  | .storeSync idx batch rest => idx :: (batch ++ rest)
  | .nextQueue _ batch rest | .enqueue _ _ batch rest => batch ++ rest
  | .idle => []

/-- `i_idxs` has room, up to `write_size`. -/
def Sized : FlusherPc N S → Prop
  | .collect iIdxs _ writeSize => iIdxs.length ≤ writeSize.toNat
  | .tryLock iIdxs _ writeSize _ | .enqueueAgain iIdxs _ writeSize _ => iIdxs.length < writeSize
  | _ => True

/-- The inode it has set to SYNC and not yet enqueued. -/
def syncs : FlusherPc N S → List (InodeIdx N)
  | .nextQueue idx _ _ | .enqueue idx _ _ _ => [idx]
  | _ => []

end FlusherPc

namespace SyncerPc

/-- The inode a sync thread has dequeued and not yet set to CLEAN. -/
def syncs : SyncerPc N → List (InodeIdx N)
  | .storeClean idx _ => [idx]
  | _ => []

/-- The inode it has set to CLEAN and not yet unlocked. -/
def cleans : SyncerPc N → List (InodeIdx N)
  | .nextQueue idx _ | .enqueue idx _ _ | .unlock idx _ => [idx]
  | _ => []

end SyncerPc

theorem WriterPc.Knows.update {pc : WriterPc N} {state : InodeIdx N → InodeState}
    (knows : pc.Knows state) {i : InodeIdx N} (other : i ∉ pc.locked) (new : InodeState) :
    pc.Knows (Function.update state i new) := by
  cases pc with
  | storeDirty r | writeData r | countDirty r | enqueue r | unlockInode r =>
    have apart : r.inode ≠ i := fun same => other (by simp [WriterPc.locked, same])
    simpa only [WriterPc.Knows, Function.update_of_ne apart] using knows
  | idle | lockNode | lockInode | readState | unlockNode => trivial

/-- A writer only owes an inode whose lock it holds. -/
theorem WriterPc.locked_of_owes {pc : WriterPc N} {i : InodeIdx N} (owed : i ∈ pc.owes) :
    i ∈ pc.locked := by
  cases pc with
  | writeData r oldState | countDirty r oldState =>
    by_cases isDirty : oldState = .dirty
    · simp [WriterPc.owes, isDirty] at owed
    · simpa [WriterPc.owes, WriterPc.locked, isDirty] using owed
  | enqueue r => exact owed
  | idle | lockNode | lockInode | readState | storeDirty | unlockInode | unlockNode => cases owed

end Places

variable {W : Type} {N S : Nat} [Fintype W] {a : Assignment N}

/-- The tokens of a DIRTY inode. -/
def dirtyTokens (s : ThreadState W N S) (i : InodeIdx N) : Nat :=
  copies (contents s.dirtyQueue) i + copies (fun v => (s.flusher v).dequeued) i +
    copies (fun v => (s.flusher v).dirties) i + copies (fun w => (s.writer w).owes) i

/-- The tokens of a SYNC inode. -/
def syncTokens (s : ThreadState W N S) (i : InodeIdx N) : Nat :=
  copies (fun v => (s.flusher v).syncs) i + copies (contents s.syncQueue) i +
    copies (fun k => (s.syncer k).syncs) i

/-- The tokens of a locked inode. -/
def lockTokens (s : ThreadState W N S) (i : InodeIdx N) : Nat :=
  copies (fun w => (s.writer w).locked) i + copies (fun v => (s.flusher v).dirties) i +
    syncTokens s i + copies (fun k => (s.syncer k).cleans) i

structure HandOff (s : ThreadState W N S) : Prop where
  dirty : ∀ i, dirtyTokens s i = if s.state i = .dirty then 1 else 0
  sync : ∀ i, syncTokens s i = if s.state i = .sync then 1 else 0
  lock : ∀ i, lockTokens s i = if s.lock i then 1 else 0
  knows : ∀ w, (s.writer w).Knows s.state
  old : ∀ w, (s.writer w).oldState ≠ some .sync
  narrow : ∀ w r, (s.writer w).request = some r → r.inode.val < 2 ^ 26
  sized : ∀ v, (s.flusher v).Sized

/-- The writers of a run are asked to write to inodes that start less than `2^32`
bytes into the inode table. -/
def NarrowRequest (_s : ThreadState W N S) : ThreadEvent W N S → Prop
  | .writer _ request => request.inode.val < 2 ^ 26
  | .flusher _ | .syncer _ => True

omit [Fintype W] in
theorem narrowRequest_of_small (small : N ≤ 2 ^ 26) (s : ThreadState W N S)
    (e : ThreadEvent W N S) : NarrowRequest s e := by
  cases e with
  | writer w request => exact Nat.lt_of_lt_of_le request.inode.isLt small
  | flusher | syncer => trivial

namespace HandOff

variable {s t : ThreadState W N S}

theorem start (start : ThreadStart s) : HandOff s := by
  obtain ⟨writers, flushers, syncers⟩ := start.idle
  obtain ⟨dirties, syncs, _⟩ := start.queues
  have noDirty : contents s.dirtyQueue = fun _ => [] :=
    funext fun v => by rw [contents, dirties]; rfl
  have noSync : contents s.syncQueue = fun _ => [] := funext fun k => by rw [contents, syncs]; rfl
  refine ⟨fun i => ?_, fun i => ?_, fun i => ?_, fun w => ?_, fun w => ?_, fun w r asked => ?_,
    fun v => ?_⟩
  · simp [dirtyTokens, noDirty, flushers, writers, start.free, copies_nil,
      FlusherPc.dequeued, FlusherPc.dirties, WriterPc.owes]
  · simp [syncTokens, noSync, flushers, syncers, start.free, copies_nil, FlusherPc.syncs,
      SyncerPc.syncs]
  · simp [lockTokens, syncTokens, noSync, flushers, writers, syncers, (start.unlocked i).1,
      copies_nil, FlusherPc.syncs, FlusherPc.dirties, SyncerPc.syncs, SyncerPc.cleans,
      WriterPc.locked]
  · rw [writers]
    trivial
  · rw [writers]
    exact (Option.some_ne_none _).symm
  · rw [writers] at asked
    cases asked
  · rw [flushers]
    trivial

/-- A step of the flusher of volume `v`. -/
theorem of_flusher (ok : HandOff s) {u : ThreadState W N S} {v : VolumeIdx} {pc : FlusherPc N S}
    (pcs : u.writer = s.writer ∧ u.flusher = s.flusher ∧ u.syncer = s.syncer)
    (dirty : ∀ i, copies (contents u.dirtyQueue) i + pc.dequeued.count i + pc.dirties.count i +
        (if s.state i = .dirty then 1 else 0) =
      copies (contents s.dirtyQueue) i + (s.flusher v).dequeued.count i +
        (s.flusher v).dirties.count i + if u.state i = .dirty then 1 else 0)
    (sync : ∀ i, copies (contents u.syncQueue) i + pc.syncs.count i +
        (if s.state i = .sync then 1 else 0) =
      copies (contents s.syncQueue) i + (s.flusher v).syncs.count i +
        if u.state i = .sync then 1 else 0)
    (lock : ∀ i, copies (contents u.syncQueue) i + pc.syncs.count i + pc.dirties.count i +
        (if s.lock i then 1 else 0) =
      copies (contents s.syncQueue) i + (s.flusher v).syncs.count i +
        (s.flusher v).dirties.count i + if u.lock i then 1 else 0)
    (knows : ∀ w, (s.writer w).Knows u.state) (sized : pc.Sized) :
    HandOff (u.toFlusher v pc) := by
  obtain ⟨writers, flushers, syncers⟩ := pcs
  refine ⟨fun i => ?_, fun i => ?_, fun i => ?_, fun w => ?_, fun w => ?_, fun w r => ?_,
    fun x => ?_⟩
  · have hands := copies_goto FlusherPc.dequeued s.flusher v pc i
    have held := copies_goto FlusherPc.dirties s.flusher v pc i
    have before := ok.dirty i
    have change := dirty i
    simp only [dirtyTokens, ThreadState.toFlusher, writers, flushers] at before ⊢
    omega
  · have moved := copies_goto FlusherPc.syncs s.flusher v pc i
    have before := ok.sync i
    have change := sync i
    simp only [syncTokens, ThreadState.toFlusher, flushers, syncers] at before ⊢
    omega
  · have moved := copies_goto FlusherPc.syncs s.flusher v pc i
    have held := copies_goto FlusherPc.dirties s.flusher v pc i
    have before := ok.lock i
    have change := lock i
    simp only [lockTokens, syncTokens, ThreadState.toFlusher, writers, flushers, syncers]
      at before ⊢
    omega
  · simpa only [ThreadState.toFlusher, writers] using knows w
  · simpa only [ThreadState.toFlusher, writers] using ok.old w
  · simpa only [ThreadState.toFlusher, writers] using ok.narrow w r
  · simp only [ThreadState.toFlusher, flushers]
    by_cases here : x = v
    · subst x
      rw [Function.update_self]
      exact sized
    · rw [Function.update_of_ne here]
      exact ok.sized x

/-- A step of the sync thread of queue `k`. -/
theorem of_syncer (ok : HandOff s) {u : ThreadState W N S} {k : Fin S} {pc : SyncerPc N}
    (pcs : u.writer = s.writer ∧ u.flusher = s.flusher ∧ u.syncer = s.syncer)
    (queue : u.dirtyQueue = s.dirtyQueue) (dirty : ∀ i, u.state i = .dirty ↔ s.state i = .dirty)
    (sync : ∀ i, copies (contents u.syncQueue) i + pc.syncs.count i +
        (if s.state i = .sync then 1 else 0) =
      copies (contents s.syncQueue) i + (s.syncer k).syncs.count i +
        if u.state i = .sync then 1 else 0)
    (lock : ∀ i, copies (contents u.syncQueue) i + pc.syncs.count i + pc.cleans.count i +
        (if s.lock i then 1 else 0) =
      copies (contents s.syncQueue) i + (s.syncer k).syncs.count i +
        (s.syncer k).cleans.count i + if u.lock i then 1 else 0)
    (knows : ∀ w, (s.writer w).Knows u.state) : HandOff (u.toSyncer k pc) := by
  obtain ⟨writers, flushers, syncers⟩ := pcs
  refine ⟨fun i => ?_, fun i => ?_, fun i => ?_, fun w => ?_, fun w => ?_, fun w r => ?_,
    fun v => ?_⟩
  · have before := ok.dirty i
    simpa only [dirtyTokens, ThreadState.toSyncer, writers, flushers, queue, dirty] using before
  · have moved := copies_goto SyncerPc.syncs s.syncer k pc i
    have before := ok.sync i
    have change := sync i
    simp only [syncTokens, ThreadState.toSyncer, flushers, syncers] at before ⊢
    omega
  · have moved := copies_goto SyncerPc.syncs s.syncer k pc i
    have held := copies_goto SyncerPc.cleans s.syncer k pc i
    have before := ok.lock i
    have change := lock i
    simp only [lockTokens, syncTokens, ThreadState.toSyncer, writers, flushers, syncers]
      at before ⊢
    omega
  · simpa only [ThreadState.toSyncer, writers] using knows w
  · simpa only [ThreadState.toSyncer, writers] using ok.old w
  · simpa only [ThreadState.toSyncer, writers] using ok.narrow w r
  · simpa only [ThreadState.toSyncer, flushers] using ok.sized v

variable [DecidableEq W]

/-- A step of writer `w`, from what it does to the tokens of each inode. -/
theorem of_writer (ok : HandOff s) {u : ThreadState W N S} {w : W} {pc : WriterPc N}
    (pcs : u.writer = s.writer ∧ u.flusher = s.flusher ∧ u.syncer = s.syncer)
    (queue : u.syncQueue = s.syncQueue)
    (dirty : ∀ i, copies (contents u.dirtyQueue) i + pc.owes.count i +
        (if s.state i = .dirty then 1 else 0) =
      copies (contents s.dirtyQueue) i + (s.writer w).owes.count i +
        if u.state i = .dirty then 1 else 0)
    (sync : ∀ i, u.state i = .sync ↔ s.state i = .sync)
    (lock : ∀ i, pc.locked.count i + (if s.lock i then 1 else 0) =
      (s.writer w).locked.count i + if u.lock i then 1 else 0)
    (knows : pc.Knows u.state) (others : ∀ x, x ≠ w → (s.writer x).Knows u.state)
    (old : pc.oldState ≠ some .sync)
    (narrow : ∀ r, pc.request = some r → r.inode.val < 2 ^ 26) : HandOff (u.toWriter w pc) := by
  obtain ⟨writers, flushers, syncers⟩ := pcs
  have syncSame : ∀ i, syncTokens (u.toWriter w pc) i = syncTokens s i := by
    intro i
    simp only [syncTokens, ThreadState.toWriter, flushers, syncers, queue]
  refine ⟨fun i => ?_, fun i => ?_, fun i => ?_, fun x => ?_, fun x => ?_, fun x r => ?_,
    fun v => by simpa only [ThreadState.toWriter, flushers] using ok.sized v⟩
  · have moved := copies_goto WriterPc.owes s.writer w pc i
    have before := ok.dirty i
    have change := dirty i
    simp only [dirtyTokens, ThreadState.toWriter, writers, flushers] at before ⊢
    omega
  · rw [syncSame, ok.sync]
    simp only [ThreadState.toWriter, sync]
  · have moved := copies_goto WriterPc.locked s.writer w pc i
    have before := ok.lock i
    have change := lock i
    rw [lockTokens, syncSame]
    simp only [lockTokens, ThreadState.toWriter, writers, flushers, syncers] at before ⊢
    omega
  all_goals
    simp only [ThreadState.toWriter, writers]
    by_cases here : x = w
    · subst x
      rw [Function.update_self]
      first
        | assumption
        | exact narrow r
    · rw [Function.update_of_ne here]
      first
        | exact others x here
        | exact ok.old x
        | exact ok.narrow x r

omit [DecidableEq W] in
/-- A writer shares the inode it has locked with nobody. -/
theorem locked_alone (ok : HandOff s) {w : W} {i : InodeIdx N} (mine : i ∈ (s.writer w).locked) :
    s.lock i = true ∧ s.state i ≠ .sync ∧ (∀ x, x ≠ w → i ∉ (s.writer x).locked) ∧
      copies (fun v => (s.flusher v).dirties) i = 0 := by
  have present : 0 < copies (fun w => (s.writer w).locked) i := copies_pos.mpr ⟨w, mine⟩
  have tokens := ok.lock i
  have syncs := ok.sync i
  rw [lockTokens] at tokens
  have single : (if s.lock i then 1 else 0) ≤ 1 := by split <;> omega
  refine ⟨?_, ?_, fun x other theirs => ?_, by omega⟩
  · by_contra unlocked
    rw [if_neg unlocked] at tokens
    omega
  · intro sync
    rw [if_pos sync] at syncs
    omega
  · exact other (eq_of_copies_le_one (F := fun w => (s.writer w).locked) (by omega) theirs mine)

/-- One step of a writer. -/
theorem writer_step (ok : HandOff s) {w : W} {request : Request N}
    (low : request.inode.val < 2 ^ 26) (step : writerNext a w request s = some t) :
    HandOff t := by
  have knows := ok.knows w
  have old := ok.old w
  have narrow := ok.narrow w
  have alone := fun i mine => ok.locked_alone (w := w) (i := i) mine
  cases pc : s.writer w with
  | idle =>
    simp only [writerNext, pc] at step
    split at step
    · cases step
      refine ok.of_writer ⟨rfl, rfl, rfl⟩ rfl (fun i => by rw [pc]; rfl) (fun i => Iff.rfl)
        (fun i => by rw [pc]; rfl) trivial (fun x _ => ok.knows x)
        (Option.some_ne_none _).symm ?_
      rintro r ⟨⟩
      exact low
    · cases step
  | lockNode r =>
    rw [pc] at narrow
    simp only [writerNext, pc] at step
    split at step
    · cases step
    · cases step
      exact ok.of_writer ⟨rfl, rfl, rfl⟩ rfl (fun i => by rw [pc]; rfl) (fun i => Iff.rfl)
        (fun i => by rw [pc]; rfl) trivial (fun x _ => ok.knows x)
        (Option.some_ne_none _).symm narrow
  | lockInode r =>
    rw [pc] at narrow
    simp only [writerNext, pc] at step
    split at step
    · cases step
    · rename_i free
      cases step
      refine ok.of_writer ⟨rfl, rfl, rfl⟩ rfl (fun i => by rw [pc]; rfl) (fun i => Iff.rfl)
        (fun i => ?_) trivial (fun x _ => ok.knows x)
        (Option.some_ne_none _).symm narrow
      rw [pc]
      by_cases here : i = r.inode
      · subst i
        simp [WriterPc.locked, free]
      · simp [WriterPc.locked, here, Ne.symm here]
  | readState r =>
    rw [pc] at narrow alone
    simp only [writerNext, pc] at step
    cases step
    have state := (alone r.inode List.mem_cons_self).2.1
    exact ok.of_writer ⟨rfl, rfl, rfl⟩ rfl (fun i => by rw [pc]; rfl) (fun i => Iff.rfl)
      (fun i => by rw [pc]; rfl) rfl (fun x _ => ok.knows x)
      (fun same => state (Option.some.inj same))
      narrow
  | storeDirty r oldState =>
    rw [pc] at knows old narrow alone
    simp only [writerNext, pc] at step
    cases step
    obtain ⟨_, notSync, others, _⟩ := alone r.inode List.mem_cons_self
    have before : s.state r.inode = oldState := knows
    refine ok.of_writer ⟨rfl, rfl, rfl⟩ rfl (fun i => ?_) (fun i => ?_)
      (fun i => by rw [pc]; rfl) (by simp [WriterPc.Knows])
      (fun x other => (ok.knows x).update (others x other) _) old narrow
    · rw [pc]
      by_cases here : i = r.inode
      · subst i
        by_cases dirty : oldState = .dirty <;> simp [WriterPc.owes, before, dirty]
      · by_cases dirty : oldState = .dirty <;> simp [WriterPc.owes, here, Ne.symm here, dirty]
    · by_cases here : i = r.inode
      · subst i
        simp [notSync]
      · simp [here]
  | writeData r oldState =>
    rw [pc] at knows old narrow
    simp only [writerNext, pc] at step
    cases step
    exact ok.of_writer ⟨rfl, rfl, rfl⟩ rfl (fun i => by rw [pc]; rfl) (fun i => Iff.rfl)
      (fun i => by rw [pc]; rfl) knows (fun x _ => ok.knows x) old narrow
  | countDirty r oldState =>
    rw [pc] at knows narrow
    simp only [writerNext, pc] at step
    split at step
    · rename_i other
      cases step
      exact ok.of_writer ⟨rfl, rfl, rfl⟩ rfl (fun i => by rw [pc]; simp [WriterPc.owes, other])
        (fun i => Iff.rfl) (fun i => by rw [pc]; rfl) knows (fun x _ => ok.knows x)
        (Option.some_ne_none _).symm narrow
    · rename_i dirty
      cases step
      exact ok.of_writer ⟨rfl, rfl, rfl⟩ rfl
        (fun i => by rw [pc]; simp [WriterPc.owes, not_not.mp dirty]) (fun i => Iff.rfl)
        (fun i => by rw [pc]; rfl) knows (fun x _ => ok.knows x)
        (Option.some_ne_none _).symm narrow
  | enqueue r =>
    rw [pc] at knows narrow
    simp only [writerNext, pc] at step
    obtain ⟨queue, queued, rfl⟩ := Option.map_eq_some_iff.mp step
    rw [inodeIdxOfPointer_of_lt (narrow r rfl)] at queued
    refine ok.of_writer ⟨rfl, rfl, rfl⟩ rfl (fun i => ?_) (fun i => Iff.rfl)
      (fun i => by rw [pc]; rfl) knows (fun x _ => ok.knows x)
      (Option.some_ne_none _).symm narrow
    rw [pc, copies_enqueue queued]
    simp only [WriterPc.owes, List.count_nil, List.count_singleton, beq_iff_eq]
    omega
  | unlockInode r =>
    rw [pc] at narrow alone
    simp only [writerNext, pc] at step
    cases step
    have locked := (alone r.inode List.mem_cons_self).1
    refine ok.of_writer ⟨rfl, rfl, rfl⟩ rfl (fun i => by rw [pc]; rfl) (fun i => Iff.rfl)
      (fun i => ?_) trivial (fun x _ => ok.knows x)
      (Option.some_ne_none _).symm narrow
    rw [pc]
    by_cases here : i = r.inode
    · subst i
      simp [WriterPc.locked, locked]
    · simp [WriterPc.locked, here, Ne.symm here]
  | unlockNode r =>
    simp only [writerNext, pc] at step
    cases step
    exact ok.of_writer ⟨rfl, rfl, rfl⟩ rfl (fun i => by rw [pc]; rfl) (fun i => Iff.rfl)
      (fun i => by rw [pc]; rfl) trivial (fun x _ => ok.knows x)
      (Option.some_ne_none _).symm fun _ asked => (Option.some_ne_none _ asked.symm).elim

omit [DecidableEq W] in
/-- What a flusher has locked is DIRTY, and no writer holds it. -/
theorem dirties_alone (ok : HandOff s) {v : VolumeIdx} {i : InodeIdx N}
    (mine : i ∈ (s.flusher v).dirties) :
    s.state i = .dirty ∧ s.lock i = true ∧ ∀ w, i ∉ (s.writer w).locked := by
  have present : 0 < copies (fun v => (s.flusher v).dirties) i := copies_pos.mpr ⟨v, mine⟩
  have tokens := ok.lock i
  have dirty := ok.dirty i
  rw [lockTokens] at tokens
  rw [dirtyTokens] at dirty
  have single : (if s.lock i then 1 else 0) ≤ 1 := by split <;> omega
  refine ⟨?_, ?_, ?_⟩
  · by_contra other
    rw [if_neg other] at dirty
    omega
  · by_contra unlocked
    rw [if_neg unlocked] at tokens
    omega
  · exact copies_eq_zero.mp (by omega)

omit [DecidableEq W] in
/-- One step of a flusher. -/
theorem flusher_step [NeZero S] (ok : HandOff s) {v : VolumeIdx}
    (step : flusherNext a v s = some t) : HandOff t := by
  have sized := ok.sized v
  have alone := fun i mine => ok.dirties_alone (v := v) (i := i) mine
  cases pc : s.flusher v with
  | idle =>
    simp only [flusherNext, pc] at step
    cases step
    exact ok.of_flusher ⟨rfl, rfl, rfl⟩ (fun i => by rw [pc]; rfl) (fun i => by rw [pc]; rfl)
      (fun i => by rw [pc]; rfl) ok.knows (Nat.zero_le _)
  | collect iIdxs numDirtyInodes writeSize =>
    rw [pc] at sized
    simp only [flusherNext, pc] at step
    split at step
    · rename_i room
      obtain ⟨⟨idx, queue⟩, head, rfl⟩ := Option.map_eq_some_iff.mp step
      refine ok.of_flusher ⟨rfl, rfl, rfl⟩ (fun i => ?_) (fun i => by rw [pc]; rfl)
        (fun i => by rw [pc]; rfl) ok.knows room
      rw [pc, copies_dequeue head]
      simp only [FlusherPc.dequeued, FlusherPc.dirties, List.count_nil, List.count_singleton,
        beq_iff_eq]
      omega
    · cases step
      refine ok.of_flusher ⟨rfl, rfl, rfl⟩ (fun i => ?_) (fun i => by rw [pc]; rfl)
        (fun i => ?_) ok.knows trivial
      · rw [pc]
        simp only [FlusherPc.dequeued, FlusherPc.dirties, List.take_of_length_le sized]
      · rw [pc]
        simp only [FlusherPc.syncs, FlusherPc.dirties, List.take_of_length_le sized]
  | tryLock iIdxs numDirtyInodes writeSize idx =>
    rw [pc] at sized
    simp only [flusherNext, pc] at step
    split at step
    · cases step
      exact ok.of_flusher ⟨rfl, rfl, rfl⟩ (fun i => by rw [pc]; rfl) (fun i => by rw [pc]; rfl)
        (fun i => by rw [pc]; rfl) ok.knows sized
    · rename_i free
      cases step
      have room : (iIdxs ++ [idx]).length ≤ writeSize.toNat := by
        have below : (iIdxs.length : Int) < writeSize := sized
        rw [List.length_append, List.length_singleton]
        omega
      refine ok.of_flusher ⟨rfl, rfl, rfl⟩ (fun i => ?_) (fun i => by rw [pc]; rfl)
        (fun i => ?_) ok.knows room
      · rw [pc]
        simp only [FlusherPc.dequeued, FlusherPc.dirties, List.count_append, List.count_nil]
        omega
      · rw [pc]
        simp only [FlusherPc.syncs, FlusherPc.dirties, List.count_append, List.count_singleton,
          List.count_nil, beq_iff_eq]
        by_cases here : idx = i
        · subst i
          simp [free]
          omega
        · simp [here, Ne.symm here]
  | enqueueAgain iIdxs numDirtyInodes writeSize idx =>
    rw [pc] at sized
    simp only [flusherNext, pc] at step
    obtain ⟨queue, queued, rfl⟩ := Option.map_eq_some_iff.mp step
    refine ok.of_flusher ⟨rfl, rfl, rfl⟩ (fun i => ?_) (fun i => by rw [pc]; rfl)
      (fun i => by rw [pc]; rfl) ok.knows ?_
    · rw [pc, copies_enqueue queued]
      simp only [FlusherPc.dequeued, FlusherPc.dirties, List.count_nil, List.count_singleton,
        beq_iff_eq]
      omega
    · have below : (iIdxs.length : Int) < writeSize := sized
      simp only [FlusherPc.Sized]
      split <;> omega
  | write rest =>
    cases rest with
    | nil =>
      simp only [flusherNext, pc] at step
      cases step
      exact ok.of_flusher ⟨rfl, rfl, rfl⟩ (fun i => by rw [pc]; rfl) (fun i => by rw [pc]; rfl)
        (fun i => by rw [pc]; rfl) ok.knows trivial
    | cons start rest =>
      simp only [flusherNext, pc] at step
      cases step
      refine ok.of_flusher ⟨rfl, rfl, rfl⟩ (fun i => ?_) (fun i => by rw [pc]; rfl)
        (fun i => ?_) ok.knows trivial
      · rw [pc]
        simp only [FlusherPc.dequeued, FlusherPc.dirties, List.take_append_drop]
        rfl
      · rw [pc]
        simp only [FlusherPc.syncs, FlusherPc.dirties, List.take_append_drop]
        rfl
  | handOff batch rest =>
    cases batch with
    | nil =>
      simp only [flusherNext, pc] at step
      cases step
      exact ok.of_flusher ⟨rfl, rfl, rfl⟩ (fun i => by rw [pc]; rfl) (fun i => by rw [pc]; rfl)
        (fun i => by rw [pc]; rfl) ok.knows trivial
    | cons idx batch =>
      simp only [flusherNext, pc] at step
      cases step
      exact ok.of_flusher ⟨rfl, rfl, rfl⟩ (fun i => by rw [pc]; rfl) (fun i => by rw [pc]; rfl)
        (fun i => by rw [pc]; rfl) ok.knows trivial
  | storeSync idx batch rest =>
    rw [pc] at alone
    simp only [flusherNext, pc] at step
    cases step
    obtain ⟨dirty, _, unheld⟩ := alone idx List.mem_cons_self
    refine ok.of_flusher ⟨rfl, rfl, rfl⟩ (fun i => ?_) (fun i => ?_) (fun i => ?_)
      (fun w => (ok.knows w).update (unheld w) _) trivial
    · rw [pc]
      by_cases here : i = idx
      · subst i
        simp [FlusherPc.dequeued, FlusherPc.dirties, dirty]
        omega
      · simp [FlusherPc.dequeued, FlusherPc.dirties, here, Ne.symm here]
    · rw [pc]
      by_cases here : i = idx
      · subst i
        simp [FlusherPc.syncs, dirty]
      · simp [FlusherPc.syncs, here, Ne.symm here]
    · rw [pc]
      simp only [FlusherPc.syncs, FlusherPc.dirties, List.count_cons, List.count_nil, beq_iff_eq]
      omega
  | nextQueue idx batch rest =>
    simp only [flusherNext, pc] at step
    cases step
    exact ok.of_flusher ⟨rfl, rfl, rfl⟩ (fun i => by rw [pc]; rfl) (fun i => by rw [pc]; rfl)
      (fun i => by rw [pc]; rfl) ok.knows trivial
  | enqueue idx k batch rest =>
    simp only [flusherNext, pc] at step
    obtain ⟨queue, queued, rfl⟩ := Option.map_eq_some_iff.mp step
    refine ok.of_flusher ⟨rfl, rfl, rfl⟩ (fun i => by rw [pc]; rfl) (fun i => ?_) (fun i => ?_)
      ok.knows trivial
    all_goals
      rw [pc, copies_enqueue queued]
      simp only [FlusherPc.syncs, FlusherPc.dirties, List.count_nil, List.count_singleton,
        beq_iff_eq]
      omega

omit [DecidableEq W] in
/-- What a sync thread has dequeued is SYNC and locked, and no writer holds it. -/
theorem syncs_alone (ok : HandOff s) {k : Fin S} {i : InodeIdx N}
    (mine : i ∈ (s.syncer k).syncs) :
    s.state i = .sync ∧ ∀ w, i ∉ (s.writer w).locked := by
  have present : 0 < copies (fun k => (s.syncer k).syncs) i := copies_pos.mpr ⟨k, mine⟩
  have tokens := ok.lock i
  have sync := ok.sync i
  rw [lockTokens] at tokens
  rw [syncTokens] at sync tokens
  have single : (if s.lock i then 1 else 0) ≤ 1 := by split <;> omega
  refine ⟨?_, copies_eq_zero.mp (by omega)⟩
  by_contra other
  rw [if_neg other] at sync
  omega

omit [DecidableEq W] in
theorem cleans_locked (ok : HandOff s) {k : Fin S} {i : InodeIdx N}
    (mine : i ∈ (s.syncer k).cleans) : s.lock i = true := by
  have present : 0 < copies (fun k => (s.syncer k).cleans) i := copies_pos.mpr ⟨k, mine⟩
  have tokens := ok.lock i
  rw [lockTokens] at tokens
  by_contra unlocked
  rw [if_neg unlocked] at tokens
  omega

omit [DecidableEq W] in
/-- One step of a sync thread. -/
theorem syncer_step (ok : HandOff s) {k : Fin S} (step : syncerNext k s = some t) :
    HandOff t := by
  have alone := fun i mine => ok.syncs_alone (k := k) (i := i) mine
  have held := fun i mine => ok.cleans_locked (k := k) (i := i) mine
  cases pc : s.syncer k with
  | idle | sync n =>
    simp only [syncerNext, pc] at step
    cases step
    exact ok.of_syncer ⟨rfl, rfl, rfl⟩ rfl (fun i => Iff.rfl) (fun i => by rw [pc]; rfl)
      (fun i => by rw [pc]; rfl) ok.knows
  | loop n =>
    cases n with
    | zero =>
      simp only [syncerNext, pc] at step
      cases step
      exact ok.of_syncer ⟨rfl, rfl, rfl⟩ rfl (fun i => Iff.rfl) (fun i => by rw [pc]; rfl)
        (fun i => by rw [pc]; rfl) ok.knows
    | succ n =>
      simp only [syncerNext, pc] at step
      obtain ⟨⟨idx, queue⟩, head, rfl⟩ := Option.map_eq_some_iff.mp step
      refine ok.of_syncer ⟨rfl, rfl, rfl⟩ rfl (fun i => Iff.rfl) (fun i => ?_) (fun i => ?_)
        ok.knows
      · rw [pc, copies_dequeue head]
        simp only [SyncerPc.syncs, List.count_nil, List.count_singleton, beq_iff_eq]
        omega
      · rw [pc, copies_dequeue head]
        simp only [SyncerPc.syncs, SyncerPc.cleans, List.count_nil, List.count_singleton,
          beq_iff_eq]
  | storeClean idx n =>
    rw [pc] at alone
    simp only [syncerNext, pc] at step
    cases step
    obtain ⟨sync, unheld⟩ := alone idx List.mem_cons_self
    refine ok.of_syncer ⟨rfl, rfl, rfl⟩ rfl (fun i => ?_) (fun i => ?_) (fun i => ?_)
      fun w => (ok.knows w).update (unheld w) _
    · by_cases here : i = idx
      · subst i
        simp [sync]
      · simp [here]
    · rw [pc]
      by_cases here : i = idx
      · subst i
        simp [SyncerPc.syncs, sync]
      · simp [SyncerPc.syncs, here, Ne.symm here]
    · rw [pc]
      simp only [SyncerPc.syncs, SyncerPc.cleans, List.count_nil]
      omega
  | nextQueue idx n =>
    simp only [syncerNext, pc] at step
    cases step
    exact ok.of_syncer ⟨rfl, rfl, rfl⟩ rfl (fun i => Iff.rfl) (fun i => by rw [pc]; rfl)
      (fun i => by rw [pc]; rfl) ok.knows
  | enqueue idx c n =>
    simp only [syncerNext, pc] at step
    obtain ⟨queue, _, rfl⟩ := Option.map_eq_some_iff.mp step
    exact ok.of_syncer ⟨rfl, rfl, rfl⟩ rfl (fun i => Iff.rfl) (fun i => by rw [pc]; rfl)
      (fun i => by rw [pc]; rfl) ok.knows
  | unlock idx n =>
    rw [pc] at held
    simp only [syncerNext, pc] at step
    cases step
    have locked := held idx List.mem_cons_self
    refine ok.of_syncer ⟨rfl, rfl, rfl⟩ rfl (fun i => Iff.rfl) (fun i => by rw [pc]; rfl)
      (fun i => ?_) ok.knows
    rw [pc]
    by_cases here : i = idx
    · subst i
      simp [SyncerPc.syncs, SyncerPc.cleans, locked]
    · simp [SyncerPc.syncs, SyncerPc.cleans, here, Ne.symm here]

theorem next [NeZero S] (ok : HandOff s) {e : ThreadEvent W N S} (narrow : NarrowRequest s e)
    (step : threadNext a s e = some t) : HandOff t := by
  cases e with
  | writer w request => exact ok.writer_step narrow step
  | flusher v => exact ok.flusher_step step
  | syncer k => exact ok.syncer_step step

theorem of_reachable [NeZero S] (reach : (threads W S a).ReachableBy NarrowRequest s) :
    HandOff s :=
  reach.invariant (fun _ initial => start initial) fun _ _ _ ok narrow step => ok.next narrow step

end HandOff

/-- A first state, every block filled with `1`. -/
def blankThreads (W : Type) (N S : Nat) : ThreadState W N S where
  state _ := .free
  lock _ := false
  mutex _ := false
  blockIndex i := Fin.castAdd maxVolumeEntry i
  volumeBlock v := Fin.natAdd N v
  blockTable _ := fun _ => 1
  dirtyQueue _ := .new
  dirtyCount := 0
  syncQueue _ := .new
  syncQueueIdx := 0
  cleanQueue _ := .new
  cleanQueueIdx := 0
  cache _ := fun _ => 1
  durable _ := fun _ => 1
  writer _ := .idle
  flusher _ := .idle
  syncer _ := .idle

omit [Fintype W] in
theorem blankThreads_start : ThreadStart (blankThreads W N S) where
  free _ := rfl
  unlocked _ := ⟨rfl, rfl⟩
  owned := by
    refine Function.Injective.sumElim (Fin.castAdd_injective N maxVolumeEntry)
      (Fin.natAdd_injective maxVolumeEntry N) fun i v same => ?_
    have values := congrArg Fin.val same
    simp only [blankThreads, Fin.val_castAdd, Fin.val_natAdd] at values
    omega
  queues := ⟨fun _ => rfl, fun _ => rfl, fun _ => rfl⟩
  idle := ⟨fun _ => rfl, fun _ => rfl, fun _ => rfl⟩

/-- Inode `i` is block `i` of one volume. -/
def oneVolume (N : Nat) (v : VolumeIdx) : Assignment N where
  volume _ := v
  lbn i := i.val
  distinct _ _ _ same := Fin.ext same

/-- One block write of a single writer, from its first step to its last. -/
def oneWrite (r : Request N) : List (ThreadEvent Unit N S) := List.replicate 10 (.writer () r)

end BurstBuffer.Source
