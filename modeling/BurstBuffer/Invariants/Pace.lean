import BurstBuffer.Invariants.CleanDurable
import BurstBuffer.Source.Calls

/-!
# What the loops of threads have left

A sync thread dequeues as often as its queue was long when it began; a flusher leaves one
entry in the dirty queue of its volume. Only others put entries there meanwhile, and nobody
else takes any.
-/
namespace BurstBuffer.Source

open Library

section Places

variable {N S : Nat}

/-- A dirty queue of `length` entries has all that the flusher will dequeue, and one more. -/
def FlusherPc.Covered (length : Nat) : FlusherPc N S → Prop
  | .collect iIdxs numDirtyInodes writeSize =>
    writeSize ≤ flushBatchSize ∧ writeSize ≤ numDirtyInodes ∧
      numDirtyInodes + 1 ≤ length + iIdxs.length
  | .tryLock iIdxs numDirtyInodes writeSize _ | .enqueueAgain iIdxs numDirtyInodes writeSize _ =>
    writeSize ≤ flushBatchSize ∧ writeSize ≤ numDirtyInodes ∧
      numDirtyInodes ≤ length + iIdxs.length
  | _ => True

theorem FlusherPc.Covered.mono {length length' : Nat} {pc : FlusherPc N S}
    (covered : pc.Covered length) (longer : length ≤ length') : pc.Covered length' := by
  cases pc with
  | collect | tryLock | enqueueAgain =>
    obtain ⟨batch, size, counted⟩ := covered
    exact ⟨batch, size, by omega⟩
  | _ => trivial

/-- The writer is at the lock of the node, which the calls take before their block. -/
def WriterPc.atNode : WriterPc N → Bool
  | .lockNode _ => true
  | _ => false

end Places

variable {W : Type} {N S : Nat}

structure Paced (s : ThreadState W N S) : Prop where
  writer : ∀ w, (s.writer w).atNode = false
  syncer : ∀ k, (s.syncer k).rounds ≤ (s.syncQueue k).values.length
  flusher : ∀ v, (s.flusher v).Covered (s.dirtyQueue v).values.length

namespace Paced

variable {s t : ThreadState W N S}

theorem start (start : ThreadStart s) : Paced s := by
  obtain ⟨writers, flushers, syncers⟩ := start.idle
  refine ⟨fun w => ?_, fun k => ?_, fun v => ?_⟩
  · rw [writers]
    rfl
  · rw [syncers]
    exact Nat.zero_le _
  · rw [flushers]
    trivial

/-- A step that leaves flushers, sync threads and their queues alone. -/
theorem of_writers (ok : Paced s) (writer : ∀ w, (t.writer w).atNode = false)
    (pcs : t.flusher = s.flusher ∧ t.syncer = s.syncer ∧ t.syncQueue = s.syncQueue)
    (longer : ∀ v, (s.dirtyQueue v).values.length ≤ (t.dirtyQueue v).values.length) :
    Paced t := by
  obtain ⟨flushers, syncers, queues⟩ := pcs
  refine ⟨writer, fun k => ?_, fun v => ?_⟩
  · rw [syncers, queues]
    exact ok.syncer k
  · rw [flushers]
    exact (ok.flusher v).mono (longer v)

theorem of_flusher (ok : Paced s) {u : ThreadState W N S} {v : VolumeIdx} {pc : FlusherPc N S}
    (pcs : u.writer = s.writer ∧ u.flusher = s.flusher ∧ u.syncer = s.syncer)
    (longer : ∀ k, (s.syncQueue k).values.length ≤ (u.syncQueue k).values.length)
    (others : ∀ x, x ≠ v → u.dirtyQueue x = s.dirtyQueue x)
    (covered : pc.Covered (u.dirtyQueue v).values.length) : Paced (u.toFlusher v pc) := by
  obtain ⟨writers, flushers, syncers⟩ := pcs
  refine ⟨fun w => ?_, fun k => ?_, fun x => ?_⟩
  · simp only [ThreadState.toFlusher, writers]
    exact ok.writer w
  · simp only [ThreadState.toFlusher, syncers]
    exact Nat.le_trans (ok.syncer k) (longer k)
  · simp only [ThreadState.toFlusher, flushers]
    by_cases here : x = v
    · subst here
      rw [Function.update_self]
      exact covered
    · rw [Function.update_of_ne here, others x here]
      exact ok.flusher x

theorem of_syncer (ok : Paced s) {u : ThreadState W N S} {k : Fin S} {pc : SyncerPc N}
    (pcs : u.writer = s.writer ∧ u.flusher = s.flusher ∧ u.syncer = s.syncer)
    (dirties : u.dirtyQueue = s.dirtyQueue) (others : ∀ j, j ≠ k → u.syncQueue j = s.syncQueue j)
    (rounds : pc.rounds ≤ (u.syncQueue k).values.length) : Paced (u.toSyncer k pc) := by
  obtain ⟨writers, flushers, syncers⟩ := pcs
  refine ⟨fun w => ?_, fun j => ?_, fun v => ?_⟩
  · simp only [ThreadState.toSyncer, writers]
    exact ok.writer w
  · simp only [ThreadState.toSyncer, syncers]
    by_cases here : j = k
    · subst here
      rw [Function.update_self]
      exact rounds
    · rw [Function.update_of_ne here, others j here]
      exact ok.syncer j
  · simp only [ThreadState.toSyncer, flushers, dirties]
    exact ok.flusher v

theorem syncer_step (ok : Paced s) {k : Fin S} (step : syncerNext k s = some t) : Paced t := by
  have rounds := ok.syncer k
  cases pc : s.syncer k with
  | idle =>
    simp only [syncerNext, pc] at step
    cases step
    exact ok.of_syncer ⟨rfl, rfl, rfl⟩ rfl (fun _ _ => rfl) (Nat.le_refl _)
  | loop n =>
    rw [pc] at rounds
    cases n with
    | zero =>
      simp only [syncerNext, pc] at step
      cases step
      exact ok.of_syncer ⟨rfl, rfl, rfl⟩ rfl (fun _ _ => rfl) (Nat.zero_le _)
    | succ n =>
      simp only [syncerNext, pc] at step
      obtain ⟨⟨idx, queue⟩, popped, rfl⟩ := Option.map_eq_some_iff.mp step
      have head := LfQueue.dequeue_eq_some.mp popped
      refine ok.of_syncer ⟨rfl, rfl, rfl⟩ rfl (fun j other => Function.update_of_ne other _ _) ?_
      rw [head] at rounds
      simpa [SyncerPc.rounds] using rounds
  | sync n | storeClean idx n | nextQueue idx n | unlock idx n =>
    rw [pc] at rounds
    simp only [syncerNext, pc] at step
    cases step
    exact ok.of_syncer ⟨rfl, rfl, rfl⟩ rfl (fun _ _ => rfl) rounds
  | enqueue idx c n =>
    rw [pc] at rounds
    simp only [syncerNext, pc] at step
    obtain ⟨_, _, rfl⟩ := Option.map_eq_some_iff.mp step
    exact ok.of_syncer ⟨rfl, rfl, rfl⟩ rfl (fun _ _ => rfl) rounds

theorem drain_step [NeZero S] (ok : Paced s) {lbn : InodeIdx N → Nat}
    {volume : InodeIdx N → Option VolumeIdx} {v : VolumeIdx}
    (step : drainNext lbn volume v s = some t) : Paced t := by
  have covered := ok.flusher v
  cases pc : s.flusher v with
  | idle =>
    simp only [drainNext, pc, flusherNext] at step
    cases step
    obtain ⟨batch, size⟩ := writeSizeOf_le (numDirtyInodesOf (s.dirtyQueue v).getSize)
    exact ok.of_flusher ⟨rfl, rfl, rfl⟩ (fun _ => Nat.le_refl _) (fun _ _ => rfl)
      ⟨batch, size, numDirtyInodesOf_lt (s.dirtyQueue v).getSize⟩
  | collect iIdxs numDirtyInodes writeSize =>
    rw [pc] at covered
    obtain ⟨batch, size, counted⟩ := covered
    simp only [drainNext, pc, flusherNext] at step
    split at step
    · obtain ⟨⟨idx, queue⟩, popped, rfl⟩ := Option.map_eq_some_iff.mp step
      have head := LfQueue.dequeue_eq_some.mp popped
      refine ok.of_flusher ⟨rfl, rfl, rfl⟩ (fun _ => Nat.le_refl _)
        (fun x other => Function.update_of_ne other _ _) ⟨batch, size, ?_⟩
      rw [head, List.length_cons] at counted
      simp only [Function.update_self]
      omega
    · cases step
      exact ok.of_flusher ⟨rfl, rfl, rfl⟩ (fun _ => Nat.le_refl _) (fun _ _ => rfl) trivial
  | tryLock iIdxs numDirtyInodes writeSize idx =>
    rw [pc] at covered
    obtain ⟨batch, size, counted⟩ := covered
    simp only [drainNext, pc, flusherNext] at step
    split at step <;> cases step
    · exact ok.of_flusher ⟨rfl, rfl, rfl⟩ (fun _ => Nat.le_refl _) (fun _ _ => rfl)
        ⟨batch, size, counted⟩
    · refine ok.of_flusher ⟨rfl, rfl, rfl⟩ (fun _ => Nat.le_refl _) (fun _ _ => rfl)
        ⟨batch, size, ?_⟩
      simp only [List.length_append, List.length_singleton]
      omega
  | enqueueAgain iIdxs numDirtyInodes writeSize idx =>
    rw [pc] at covered
    obtain ⟨batch, size, counted⟩ := covered
    simp only [drainNext, pc, flusherNext] at step
    obtain ⟨queue, pushed, rfl⟩ := Option.map_eq_some_iff.mp step
    have tail := LfQueue.enqueue_eq_some.mp pushed
    refine ok.of_flusher ⟨rfl, rfl, rfl⟩ (fun _ => Nat.le_refl _)
      (fun x other => Function.update_of_ne other _ _) ⟨?_, ?_, ?_⟩
    · split <;> omega
    · split <;> omega
    · simp only [Function.update_self, tail, List.length_append, List.length_singleton]
      omega
  | write rest =>
    cases rest with
    | nil =>
      simp only [drainNext, pc, flusherNext] at step
      cases step
      exact ok.of_flusher ⟨rfl, rfl, rfl⟩ (fun _ => Nat.le_refl _) (fun _ _ => rfl) trivial
    | cons start rest =>
      simp only [drainNext, pc] at step
      obtain ⟨_, _, rfl⟩ := Option.map_eq_some_iff.mp step
      exact ok.of_flusher ⟨rfl, rfl, rfl⟩ (fun _ => Nat.le_refl _) (fun _ _ => rfl) trivial
  | handOff batch rest =>
    cases batch with
    | nil | cons =>
      simp only [drainNext, pc, flusherNext] at step
      cases step
      exact ok.of_flusher ⟨rfl, rfl, rfl⟩ (fun _ => Nat.le_refl _) (fun _ _ => rfl) trivial
  | storeSync idx batch rest | nextQueue idx batch rest =>
    simp only [drainNext, pc, flusherNext] at step
    cases step
    exact ok.of_flusher ⟨rfl, rfl, rfl⟩ (fun _ => Nat.le_refl _) (fun _ _ => rfl) trivial
  | enqueue idx k batch rest =>
    simp only [drainNext, pc, flusherNext] at step
    obtain ⟨queue, pushed, rfl⟩ := Option.map_eq_some_iff.mp step
    refine ok.of_flusher ⟨rfl, rfl, rfl⟩ (fun j => ?_) (fun _ _ => rfl) trivial
    exact length_le_enqueue pushed j

variable [DecidableEq W]

theorem of_writer (ok : Paced s) {u : ThreadState W N S} {w : W} {pc : WriterPc N}
    (next : pc.atNode = false)
    (pcs : u.writer = s.writer ∧ u.flusher = s.flusher ∧ u.syncer = s.syncer ∧
      u.syncQueue = s.syncQueue)
    (longer : ∀ v, (s.dirtyQueue v).values.length ≤ (u.dirtyQueue v).values.length) :
    Paced (u.toWriter w pc) := by
  obtain ⟨writers, others⟩ := pcs
  refine ok.of_writers (fun x => ?_) others longer
  by_cases here : x = w
  · subst here
    rw [ThreadState.toWriter_self]
    exact next
  · rw [u.toWriter_other here, writers]
    exact ok.writer x

theorem block_step (ok : Paced s) {volume : InodeIdx N → Option VolumeIdx} {v : VolumeIdx} {w : W}
    (step : blockNext volume v w s = some t) : Paced t := by
  cases pc : s.writer w with
  | idle | lockNode | unlockNode =>
    simp only [blockNext, pc] at step
    cases step
  | lockInode r =>
    simp only [blockNext, pc, writerNext] at step
    split at step <;> cases step
    exact ok.of_writer rfl ⟨rfl, rfl, rfl, rfl⟩ fun _ => Nat.le_refl _
  | readState r | storeDirty r old | unlockInode r =>
    simp only [blockNext, pc, writerNext] at step
    cases step
    exact ok.of_writer rfl ⟨rfl, rfl, rfl, rfl⟩ fun _ => Nat.le_refl _
  | writeData r old =>
    simp only [blockNext, pc] at step
    obtain ⟨_, _, rfl⟩ := Option.map_eq_some_iff.mp step
    exact ok.of_writer rfl ⟨rfl, rfl, rfl, rfl⟩ fun _ => Nat.le_refl _
  | countDirty r old =>
    simp only [blockNext, pc, writerNext] at step
    split at step <;> cases step
    all_goals exact ok.of_writer rfl ⟨rfl, rfl, rfl, rfl⟩ fun _ => Nat.le_refl _
  | enqueue r =>
    simp only [blockNext, pc, writerNext] at step
    obtain ⟨queue, pushed, rfl⟩ := Option.map_eq_some_iff.mp step
    exact ok.of_writer rfl ⟨rfl, rfl, rfl, rfl⟩ (length_le_enqueue pushed)

end Paced

end BurstBuffer.Source
