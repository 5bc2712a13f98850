import BurstBuffer.Invariants.HandOff
import BurstBuffer.Invariants.Ownership

/-!
# SYNC means written, CLEAN means durable

A flusher writes the block of an inode it has locked before it sets it to SYNC. A
sync thread samples the length of its queue before it calls `sync`, so the
entries it finishes were written before the call, whatever was enqueued
meanwhile. Only the bytes of a DIRTY inode change.
-/
namespace BurstBuffer.Source

open Library

section Places

variable {N S : Nat}

/-- The inodes of the batch written last that are still to be set to SYNC. -/
def FlusherPc.written : FlusherPc N S → List (InodeIdx N)
  | .handOff batch _ | .nextQueue _ batch _ | .enqueue _ _ batch _ => batch
  | .storeSync idx batch _ => idx :: batch
  | .idle | .collect .. | .tryLock .. | .enqueueAgain .. | .write _ => []

/-- How many entries of its queue a sync thread will still dequeue. -/
def SyncerPc.rounds : SyncerPc N → Nat
  | .idle => 0
  | .sync n | .loop n | .storeClean _ n | .nextQueue _ n | .enqueue _ _ n | .unlock _ n => n

/-- How many of these were written before its `sync`. -/
def SyncerPc.synced : SyncerPc N → Nat
  | .idle | .sync _ => 0
  | .loop n | .storeClean _ n | .nextQueue _ n | .enqueue _ _ n | .unlock _ n => n

theorem SyncerPc.synced_le_rounds (pc : SyncerPc N) : pc.synced ≤ pc.rounds := by
  cases pc with
  | idle | sync => exact Nat.zero_le _
  | loop | storeClean | nextQueue | enqueue | unlock => exact Nat.le_refl _

theorem FlusherPc.dirties_of_written {pc : FlusherPc N S} {i : InodeIdx N}
    (member : i ∈ pc.written) : i ∈ pc.dirties := by
  cases pc with
  | handOff | nextQueue | enqueue => exact List.mem_append_left _ member
  | storeSync idx batch rest =>
    rcases List.mem_cons.mp member with rfl | member
    · exact List.mem_cons_self
    · exact List.mem_cons_of_mem _ (List.mem_append_left _ member)
  | idle | collect | tryLock | enqueueAgain | write => cases member

end Places

variable {W : Type} {N S : Nat}

/-- The file cache holds the bytes of the inode's block. -/
def Written (a : Assignment N) (s : ThreadState W N S) (i : InodeIdx N) : Prop :=
  readBlock blockSize (s.cache (a.volume i)) (a.lbn i) = s.blockOf i

/-- The disk holds the bytes of the inode's block. -/
def Durable (a : Assignment N) (s : ThreadState W N S) (i : InodeIdx N) : Prop :=
  readBlock blockSize (s.durable (a.volume i)) (a.lbn i) = s.blockOf i

structure Durability (a : Assignment N) (s : ThreadState W N S) : Prop where
  owned : Function.Injective (Sum.elim s.blockIndex s.volumeBlock)
  queued : ∀ v, ∀ i ∈ (s.dirtyQueue v).values, a.volume i = v
  hands : ∀ v, ∀ i ∈ (s.flusher v).dequeued ++ (s.flusher v).dirties, a.volume i = v
  batch : ∀ v, ∀ i ∈ (s.flusher v).written, Written a s i
  written : ∀ i, s.state i = .sync ∨ s.state i = .clean → Written a s i
  clean : ∀ i, s.state i = .clean → Durable a s i
  rounds : ∀ k, (s.syncer k).rounds ≤ (s.syncQueue k).values.length
  synced : ∀ k, ∀ i ∈ (s.syncer k).syncs ++ (s.syncQueue k).values.take (s.syncer k).synced,
    Durable a s i

namespace Durability

variable {a : Assignment N} {s t : ThreadState W N S}

theorem start (start : ThreadStart s) : Durability a s := by
  obtain ⟨_, flushers, syncers⟩ := start.idle
  obtain ⟨dirties, syncs, _⟩ := start.queues
  refine ⟨start.owned, fun v i member => ?_, fun v i member => ?_, fun v i member => ?_,
    fun i settled => ?_, fun i settled => ?_, fun k => ?_, fun k i member => ?_⟩
  · rw [dirties] at member
    cases member
  · rw [flushers] at member
    cases member
  · rw [flushers] at member
    cases member
  · rw [start.free] at settled
    rcases settled with sync | clean
    · cases sync
    · cases clean
  · rw [start.free] at settled
    cases settled
  · rw [syncers]
    exact Nat.zero_le _
  · rw [syncers, syncs] at member
    cases member

/-- A flusher goes on. -/
theorem toFlusher (ok : Durability a s) {v : VolumeIdx} {pc : FlusherPc N S}
    (hands : ∀ i ∈ pc.dequeued ++ pc.dirties, a.volume i = v)
    (batch : ∀ i ∈ pc.written, Written a s i) : Durability a (s.toFlusher v pc) where
  owned := ok.owned
  queued := ok.queued
  hands := Function.forall_update_iff s.flusher
    (fun w pc => ∀ i ∈ pc.dequeued ++ pc.dirties, a.volume i = w) |>.mpr
      ⟨hands, fun w _ => ok.hands w⟩
  batch := Function.forall_update_iff s.flusher (fun _ pc => ∀ i ∈ pc.written, Written a s i)
    |>.mpr ⟨batch, fun w _ => ok.batch w⟩
  written := ok.written
  clean := ok.clean
  rounds := ok.rounds
  synced := ok.synced

/-- A sync thread goes on. -/
theorem toSyncer (ok : Durability a s) {k : Fin S} {pc : SyncerPc N}
    (rounds : pc.rounds ≤ (s.syncQueue k).values.length)
    (synced : ∀ i ∈ pc.syncs ++ (s.syncQueue k).values.take pc.synced, Durable a s i) :
    Durability a (s.toSyncer k pc) where
  owned := ok.owned
  queued := ok.queued
  hands := ok.hands
  batch := ok.batch
  written := ok.written
  clean := ok.clean
  rounds := Function.forall_update_iff s.syncer
    (fun j pc => pc.rounds ≤ (s.syncQueue j).values.length) |>.mpr
      ⟨rounds, fun j _ => ok.rounds j⟩
  synced := Function.forall_update_iff s.syncer
    (fun j pc => ∀ i ∈ pc.syncs ++ (s.syncQueue j).values.take pc.synced, Durable a s i) |>.mpr
      ⟨synced, fun j _ => ok.synced j⟩

/-- What the invariant does not speak of. -/
theorem frame (ok : Durability a s) {lock mutex : InodeIdx N → Bool}
    {dirtyCount syncQueueIdx cleanQueueIdx : Nat}
    {cleanQueue : Fin defaultNumBalloon → LfQueue (InodeIdx N) N} {writer : W → WriterPc N} :
    Durability a { s with
      lock, mutex, dirtyCount, syncQueueIdx, cleanQueueIdx, cleanQueue, writer } :=
  ⟨ok.owned, ok.queued, ok.hands, ok.batch, ok.written, ok.clean, ok.rounds, ok.synced⟩

theorem store (ok : Durability a s) (i : InodeIdx N) (new : InodeState)
    (written : new = .sync ∨ new = .clean → Written a s i) (clean : new = .clean → Durable a s i) :
    Durability a { s with state := Function.update s.state i new } where
  owned := ok.owned
  queued := ok.queued
  hands := ok.hands
  batch := ok.batch
  written := Function.forall_update_iff s.state
    (fun j state => state = .sync ∨ state = .clean → Written a s j) |>.mpr
      ⟨written, fun j _ => ok.written j⟩
  clean := Function.forall_update_iff s.state (fun j state => state = .clean → Durable a s j)
    |>.mpr ⟨clean, fun j _ => ok.clean j⟩
  rounds := ok.rounds
  synced := ok.synced

theorem storeQueue (ok : Durability a s) {v : VolumeIdx} {q : LfQueue (InodeIdx N) N}
    (owner : ∀ i ∈ q.values, a.volume i = v) :
    Durability a { s with dirtyQueue := Function.update s.dirtyQueue v q } where
  owned := ok.owned
  queued := Function.forall_update_iff s.dirtyQueue
    (fun w q => ∀ i ∈ q.values, a.volume i = w) |>.mpr ⟨owner, fun w _ => ok.queued w⟩
  hands := ok.hands
  batch := ok.batch
  written := ok.written
  clean := ok.clean
  rounds := ok.rounds
  synced := ok.synced

/-- What is enqueued behind the entries a sync thread will finish is not its concern. -/
theorem enqueueSync (ok : Durability a s) {k : Fin S} {i : InodeIdx N}
    {q : LfQueue (InodeIdx N) N} (queued : (s.syncQueue k).enqueue i = some q) :
    Durability a { s with syncQueue := Function.update s.syncQueue k q } where
  owned := ok.owned
  queued := ok.queued
  hands := ok.hands
  batch := ok.batch
  written := ok.written
  clean := ok.clean
  rounds := Function.forall_update_iff s.syncQueue
    (fun j q => (s.syncer j).rounds ≤ q.values.length) |>.mpr
      ⟨by
        have before := ok.rounds k
        rw [LfQueue.enqueue_eq_some.mp queued, List.length_append]
        omega, fun j _ => ok.rounds j⟩
  synced := Function.forall_update_iff s.syncQueue
    (fun j q => ∀ i ∈ (s.syncer j).syncs ++ q.values.take (s.syncer j).synced, Durable a s i) |>.mpr
      ⟨by
        have inside : (s.syncer k).synced ≤ (s.syncQueue k).values.length :=
          Nat.le_trans (SyncerPc.synced_le_rounds _) (ok.rounds k)
        rw [LfQueue.enqueue_eq_some.mp queued, List.take_append_of_le_length inside]
        exact ok.synced k, fun j _ => ok.synced j⟩

theorem blockOf_writeThreadData (owned : Function.Injective (Sum.elim s.blockIndex s.volumeBlock))
    {idx j : InodeIdx N} (other : j ≠ idx) (ptr : Nat → UInt8) (count : Nat) :
    (writeThreadData a idx ptr count s).blockOf j = s.blockOf j := by
  have apart : s.blockIndex j ≠ s.volumeBlock (a.volume idx) :=
    fun same => Sum.inl_ne_inr (owned (show Sum.elim s.blockIndex s.volumeBlock (.inl j) =
      Sum.elim s.blockIndex s.volumeBlock (.inr (a.volume idx)) from same))
  simp only [ThreadState.blockOf, writeThreadData, Function.update_of_ne other,
    Function.update_of_ne apart]

/-- Only the bytes of the inode change, so nothing may rely on them. -/
theorem writeData (ok : Durability a s) {idx : InodeIdx N}
    (unsettled : s.state idx ≠ .sync ∧ s.state idx ≠ .clean)
    (unwritten : ∀ v, idx ∉ (s.flusher v).written)
    (unsynced : ∀ k, idx ∉ (s.syncer k).syncs ++ (s.syncQueue k).values) (ptr : Nat → UInt8)
    (count : Nat) : Durability a (writeThreadData a idx ptr count s) := by
  have kept := fun j (other : j ≠ idx) =>
    blockOf_writeThreadData (a := a) ok.owned other ptr count
  have written : ∀ j, j ≠ idx → Written a s j → Written a (writeThreadData a idx ptr count s) j :=
    fun j other before => Eq.trans before (kept j other).symm
  have durable : ∀ j, j ≠ idx → Durable a s j → Durable a (writeThreadData a idx ptr count s) j :=
    fun j other before => Eq.trans before (kept j other).symm
  refine ⟨?_, ok.queued, ok.hands, fun v j member => ?_, fun j settled => ?_, fun j settled => ?_,
    ok.rounds, fun k j member => ?_⟩
  · have exchange := elim_exchange s.blockIndex s.volumeBlock idx (a.volume idx)
    simp only [writeThreadData]
    rw [exchange]
    exact ok.owned.comp (Equiv.injective _)
  · refine written j ?_ (ok.batch v j member)
    rintro rfl
    exact unwritten v member
  · refine written j ?_ (ok.written j settled)
    rintro rfl
    exact settled.elim unsettled.1 unsettled.2
  · refine durable j ?_ (ok.clean j settled)
    rintro rfl
    exact unsettled.2 settled
  · refine durable j ?_ (ok.synced k j member)
    rintro rfl
    refine unsynced k ?_
    rcases List.mem_append.mp member with mine | queued
    · exact List.mem_append_left _ mine
    · exact List.mem_append_right _ (List.mem_of_mem_take queued)

/-- A gathered write puts a batch in its place and touches no other inode's block. -/
theorem pwritev (ok : Durability a s) {start : InodeIdx N} {batch : List (InodeIdx N)}
    (owner : ∀ i ∈ batch, a.volume i = a.volume start)
    (run : ∀ (k : Nat) i, batch[k]? = some i → a.lbn i = a.lbn start + k) :
    Durability a (pwritevThread a (a.volume start) start batch s) ∧
      ∀ i ∈ batch, Written a (pwritevThread a (a.volume start) start batch s) i := by
  have member : ∀ i ∈ batch, Written a (pwritevThread a (a.volume start) start batch s) i := by
    intro i inside
    simp only [Written, pwritevThread, owner i inside, Function.update_self]
    exact readBlock_writeRun_member _ run inside
  have kept : ∀ i, Written a s i →
      Written a (pwritevThread a (a.volume start) start batch s) i := by
    intro i before
    by_cases inside : i ∈ batch
    · exact member i inside
    by_cases home : a.volume i = a.volume start
    · have apart : ∀ j ∈ batch, a.lbn j ≠ a.lbn i := by
        intro j theirs same
        rw [a.distinct j i ((owner j theirs).trans home.symm) same] at theirs
        exact inside theirs
      simp only [Written, pwritevThread, home, Function.update_self]
      rw [readBlock_writeRun_other _ run apart, ← home]
      exact before
    · simp only [Written, pwritevThread, Function.update_of_ne home]
      exact before
  exact ⟨⟨ok.owned, ok.queued, ok.hands, fun v i inside => kept i (ok.batch v i inside),
    fun i settled => kept i (ok.written i settled), ok.clean, ok.rounds, ok.synced⟩, member⟩

/-- `sync` makes durable whatever is in the file cache. -/
theorem sync (ok : Durability a s)
    (settled : ∀ k, ∀ i ∈ (s.syncer k).syncs ++ (s.syncQueue k).values, s.state i = .sync) :
    Durability a { s with durable := s.cache } where
  owned := ok.owned
  queued := ok.queued
  hands := ok.hands
  batch := ok.batch
  written := ok.written
  clean i isClean := ok.written i (Or.inr isClean)
  rounds := ok.rounds
  synced k i member := by
    refine ok.written i (Or.inl (settled k i ?_))
    rcases List.mem_append.mp member with mine | queued
    · exact List.mem_append_left _ mine
    · exact List.mem_append_right _ (List.mem_of_mem_take queued)

section Steps

variable [Fintype W]

/-- What a writer has locked no other thread has written, queued or dequeued. -/
theorem unwritten (hand : HandOff s) {w : W} {i : InodeIdx N} (mine : i ∈ (s.writer w).locked) :
    (∀ v, i ∉ (s.flusher v).written) ∧
      ∀ k, i ∉ (s.syncer k).syncs ++ (s.syncQueue k).values := by
  obtain ⟨_, notSync, _, unheld⟩ := hand.locked_alone mine
  have tokens := hand.sync i
  rw [if_neg notSync, syncTokens] at tokens
  constructor
  · intro v member
    exact copies_eq_zero.mp unheld v (FlusherPc.dirties_of_written member)
  · intro k member
    rcases List.mem_append.mp member with dequeued | queued
    · have none : copies (fun k => (s.syncer k).syncs) i = 0 := by omega
      exact copies_eq_zero.mp none k dequeued
    · have none : copies (contents s.syncQueue) i = 0 := by omega
      exact copies_eq_zero.mp none k queued

/-- What a sync thread has dequeued, and what waits in the sync queues, is SYNC. -/
theorem syncs_sync (hand : HandOff s) {k : Fin S} {i : InodeIdx N}
    (member : i ∈ (s.syncer k).syncs ++ (s.syncQueue k).values) : s.state i = .sync := by
  have tokens := hand.sync i
  rw [syncTokens] at tokens
  have present : 0 < copies (contents s.syncQueue) i + copies (fun k => (s.syncer k).syncs) i := by
    rcases List.mem_append.mp member with dequeued | queued
    · have mine : 0 < copies (fun k => (s.syncer k).syncs) i := copies_pos.mpr ⟨k, dequeued⟩
      omega
    · have waiting : 0 < copies (contents s.syncQueue) i := copies_pos.mpr ⟨k, queued⟩
      omega
  by_contra other
  rw [if_neg other] at tokens
  omega

/-- One step of a writer. -/
theorem writer_step [DecidableEq W] (ok : Durability a s) (hand : HandOff s) {w : W}
    {request : Request N} (step : writerNext a w request s = some t) : Durability a t := by
  have knows := hand.knows w
  have narrow := hand.narrow w
  have others := fun i mine => unwritten hand (w := w) (i := i) mine
  cases pc : s.writer w with
  | idle =>
    simp only [writerNext, pc] at step
    split at step
    · cases step
      exact ok.frame
    · cases step
  | lockNode r | lockInode r =>
    simp only [writerNext, pc] at step
    split at step
    · cases step
    · cases step
      exact ok.frame
  | readState r | unlockInode r | unlockNode r =>
    simp only [writerNext, pc] at step
    cases step
    exact ok.frame
  | storeDirty r oldState =>
    simp only [writerNext, pc] at step
    cases step
    have unsettled : ¬ (InodeState.dirty = .sync ∨ InodeState.dirty = .clean) := by decide
    have unclean : InodeState.dirty ≠ .clean := by decide
    exact (ok.store r.inode .dirty (absurd · unsettled) (absurd · unclean)).frame
  | writeData r oldState =>
    rw [pc] at knows narrow others
    simp only [writerNext, pc] at step
    cases step
    have dirty : s.state r.inode = .dirty := knows
    obtain ⟨unwritten, unsynced⟩ := others r.inode List.mem_cons_self
    rw [inodeIdxOfPointer_of_lt (narrow r rfl)]
    exact (ok.writeData (by simp [dirty]) unwritten unsynced r.buf r.localCount).frame
  | countDirty r oldState =>
    simp only [writerNext, pc] at step
    split at step <;> cases step <;> exact ok.frame
  | enqueue r =>
    rw [pc] at narrow
    simp only [writerNext, pc] at step
    obtain ⟨queue, queued, rfl⟩ := Option.map_eq_some_iff.mp step
    rw [inodeIdxOfPointer_of_lt (narrow r rfl)] at queued
    refine (ok.storeQueue (v := a.volume r.inode) (q := queue) fun i member => ?_).frame
    rw [LfQueue.enqueue_eq_some.mp queued] at member
    rcases List.mem_append.mp member with before | new
    · exact ok.queued _ i before
    · rw [List.mem_singleton.mp new]

omit [Fintype W] in
/-- One step of a flusher. -/
theorem flusher_step [NeZero S] (low : ∀ i, a.lbn i < 2 ^ 32 - 1) (ok : Durability a s)
    {v : VolumeIdx} (step : flusherNext a v s = some t) : Durability a t := by
  have hands := ok.hands v
  have batches := ok.batch v
  cases pc : s.flusher v with
  | idle =>
    simp only [flusherNext, pc] at step
    cases step
    exact ok.toFlusher (List.forall_mem_nil _) (List.forall_mem_nil _)
  | collect iIdxs numDirtyInodes writeSize =>
    rw [pc] at hands
    simp only [flusherNext, pc] at step
    split at step
    · obtain ⟨⟨idx, queue⟩, head, rfl⟩ := Option.map_eq_some_iff.mp step
      have queued := ok.queued v
      rw [LfQueue.dequeue_eq_some.mp head] at queued
      have shorter := ok.storeQueue (v := v) (q := queue) fun i member =>
        queued i (List.mem_cons_of_mem idx member)
      refine shorter.toFlusher (fun i member => ?_) (List.forall_mem_nil _)
      rcases List.mem_cons.mp member with rfl | mine
      · exact queued i List.mem_cons_self
      · exact hands i mine
    · cases step
      exact ok.toFlusher (fun i member => hands i (List.mem_of_mem_take member))
        (List.forall_mem_nil _)
  | tryLock iIdxs numDirtyInodes writeSize idx =>
    rw [pc] at hands
    simp only [flusherNext, pc] at step
    split at step
    · cases step
      exact ok.toFlusher hands (List.forall_mem_nil _)
    · cases step
      have locked : Durability a { s with lock := Function.update s.lock idx true } := ok.frame
      refine locked.toFlusher (fun i member => ?_) (List.forall_mem_nil _)
      rcases List.mem_append.mp (show i ∈ iIdxs ++ [idx] from member) with mine | last
      · exact hands i (List.mem_cons_of_mem idx mine)
      · rw [List.mem_singleton.mp last]
        exact hands idx List.mem_cons_self
  | enqueueAgain iIdxs numDirtyInodes writeSize idx =>
    rw [pc] at hands
    simp only [flusherNext, pc] at step
    obtain ⟨queue, queued, rfl⟩ := Option.map_eq_some_iff.mp step
    have longer := ok.storeQueue (v := v) (q := queue) fun i member => by
      rw [LfQueue.enqueue_eq_some.mp queued] at member
      rcases List.mem_append.mp member with before | new
      · exact ok.queued v i before
      · rw [List.mem_singleton.mp new]
        exact hands idx List.mem_cons_self
    exact longer.toFlusher (fun i member => hands i (List.mem_cons_of_mem idx member))
      (List.forall_mem_nil _)
  | write rest =>
    rw [pc] at hands
    cases rest with
    | nil =>
      simp only [flusherNext, pc] at step
      cases step
      exact ok.toFlusher (List.forall_mem_nil _) (List.forall_mem_nil _)
    | cons start rest =>
      simp only [flusherNext, pc] at step
      cases step
      have home := hands start List.mem_cons_self
      obtain ⟨written, batch⟩ := ok.pwritev
        (fun i member => (hands i (List.mem_of_mem_take member)).trans home.symm)
        fun k i here => batch_lbn (fun j _ => low j) here
      refine written.toFlusher (fun i member => hands i ?_) batch
      rw [← List.take_append_drop (lookAhead a.lbn (a.lbn start) rest + 1) (start :: rest)]
      exact member
  | handOff batch rest =>
    rw [pc] at hands batches
    cases batch with
    | nil =>
      simp only [flusherNext, pc] at step
      cases step
      exact ok.toFlusher hands (List.forall_mem_nil _)
    | cons idx batch =>
      simp only [flusherNext, pc] at step
      cases step
      have counted : Durability a { s with dirtyCount := s.dirtyCount - 1 } := ok.frame
      exact counted.toFlusher hands batches
  | storeSync idx batch rest =>
    rw [pc] at hands batches
    simp only [flusherNext, pc] at step
    cases step
    have unclean : InodeState.sync ≠ .clean := by decide
    have set := ok.store idx .sync (fun _ => batches idx List.mem_cons_self) (absurd · unclean)
    exact set.toFlusher (fun i member => hands i (List.mem_cons_of_mem idx member))
      fun i member => batches i (List.mem_cons_of_mem idx member)
  | nextQueue idx batch rest =>
    rw [pc] at hands batches
    simp only [flusherNext, pc] at step
    cases step
    have counted : Durability a { s with syncQueueIdx := s.syncQueueIdx + 1 } := ok.frame
    exact counted.toFlusher hands batches
  | enqueue idx k batch rest =>
    rw [pc] at hands batches
    simp only [flusherNext, pc] at step
    obtain ⟨queue, queued, rfl⟩ := Option.map_eq_some_iff.mp step
    exact (ok.enqueueSync queued).toFlusher hands batches

/-- One step of a sync thread. -/
theorem syncer_step (ok : Durability a s) (hand : HandOff s) {k : Fin S}
    (step : syncerNext k s = some t) : Durability a t := by
  have rounds := ok.rounds k
  have synced := ok.synced k
  have settled := fun j i member => syncs_sync hand (k := j) (i := i) member
  cases pc : s.syncer k with
  | idle =>
    simp only [syncerNext, pc] at step
    cases step
    exact ok.toSyncer (Nat.le_refl _) (List.forall_mem_nil _)
  | sync n =>
    rw [pc] at rounds
    simp only [syncerNext, pc] at step
    cases step
    refine (ok.sync settled).toSyncer rounds fun i member => ?_
    exact ok.written i
      (Or.inl (settled k i (List.mem_append_right _ (List.mem_of_mem_take member))))
  | loop n =>
    cases n with
    | zero =>
      simp only [syncerNext, pc] at step
      cases step
      exact ok.toSyncer (Nat.zero_le _) (List.forall_mem_nil _)
    | succ n =>
      rw [pc] at rounds synced
      simp only [syncerNext, pc] at step
      obtain ⟨⟨idx, queue⟩, head, rfl⟩ := Option.map_eq_some_iff.mp step
      rw [LfQueue.dequeue_eq_some.mp head] at rounds synced
      exact {
        owned := ok.owned
        queued := ok.queued
        hands := ok.hands
        batch := ok.batch
        written := ok.written
        clean := ok.clean
        rounds := fun j => by
          by_cases here : j = k
          · subst j
            simpa [ThreadState.toSyncer, SyncerPc.rounds] using rounds
          · simpa [ThreadState.toSyncer, here] using ok.rounds j
        synced := fun j i member => by
          by_cases here : j = k
          · subst j
            simp only [ThreadState.toSyncer, Function.update_self] at member
            exact synced i member
          · simp only [ThreadState.toSyncer, Function.update_of_ne here] at member
            exact ok.synced j i member }
  | storeClean idx n =>
    rw [pc] at rounds synced
    simp only [syncerNext, pc] at step
    cases step
    have isSync : s.state idx = .sync := settled k idx (by rw [pc]; exact List.mem_cons_self)
    have set := ok.store idx .clean (fun _ => ok.written idx (Or.inl isSync))
      fun _ => synced idx List.mem_cons_self
    exact set.toSyncer rounds fun i member => synced i (List.mem_cons_of_mem idx member)
  | nextQueue idx n =>
    rw [pc] at rounds synced
    simp only [syncerNext, pc] at step
    cases step
    have counted : Durability a { s with cleanQueueIdx := s.cleanQueueIdx + 1 } := ok.frame
    exact counted.toSyncer rounds synced
  | enqueue idx c n =>
    rw [pc] at rounds synced
    simp only [syncerNext, pc] at step
    obtain ⟨queue, _, rfl⟩ := Option.map_eq_some_iff.mp step
    have queued : Durability a { s with cleanQueue := Function.update s.cleanQueue c queue } :=
      ok.frame
    exact queued.toSyncer rounds synced
  | unlock idx n =>
    rw [pc] at rounds synced
    simp only [syncerNext, pc] at step
    cases step
    have unlocked : Durability a { s with lock := Function.update s.lock idx false } := ok.frame
    exact unlocked.toSyncer rounds synced

variable [DecidableEq W] [NeZero S]

theorem next (low : ∀ i, a.lbn i < 2 ^ 32 - 1) (ok : Durability a s) (hand : HandOff s)
    {e : ThreadEvent W N S} (step : threadNext a s e = some t) : Durability a t := by
  cases e with
  | writer w request => exact ok.writer_step hand step
  | flusher v => exact ok.flusher_step low step
  | syncer k => exact ok.syncer_step hand step

theorem of_reachable (low : ∀ i, a.lbn i < 2 ^ 32 - 1)
    (reach : (threads W S a).ReachableBy NarrowRequest s) : HandOff s ∧ Durability a s := by
  refine reach.invariant (I := fun s => HandOff s ∧ Durability a s)
    (fun _ initial => ⟨.start initial, .start initial⟩) fun s e t ok narrow step => ?_
  exact ⟨ok.1.next narrow step, ok.2.next low ok.1 step⟩

end Steps

end Durability

end BurstBuffer.Source
