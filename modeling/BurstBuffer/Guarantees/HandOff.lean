import BurstBuffer.Invariants.HandOff
import BurstBuffer.Invariants.WideIndex

/-!
# The hand-off of dirty inodes under any interleaving
-/
namespace BurstBuffer.Guarantees

open Library Source

/-- How often an inode occurs in the dirty queues and in the hands of a flush
thread that has dequeued it and not yet locked it. -/
def waiting {W : Type} {N S : Nat} (s : ThreadState W N S) (i : InodeIdx N) : Nat :=
  copies (contents s.dirtyQueue) i + copies (fun v => (s.flusher v).dequeued) i

structure DirtyHandOff {W : Type} {N S : Nat} (s : ThreadState W N S) : Prop where
  once : ∀ i, waiting s i ≤ 1
  delivered : ∀ i, s.state i = .dirty → s.lock i = false → waiting s i = 1
  /-- A trylock that would succeed finds a DIRTY inode. -/
  locks : ∀ v iIdxs numDirtyInodes writeSize idx,
    s.flusher v = .tryLock iIdxs numDirtyInodes writeSize idx → s.lock idx = false →
    s.state idx = .dirty
  /-- The old state a writer has read under the lock. -/
  reads : ∀ w, (s.writer w).oldState ≠ some .sync

section Derive

variable {W : Type} {N S : Nat} [Fintype W] {s : ThreadState W N S}

theorem waiting_le_one (ok : HandOff s) (i : InodeIdx N) : waiting s i ≤ 1 := by
  have tokens := ok.dirty i
  rw [dirtyTokens] at tokens
  unfold waiting
  split at tokens <;> omega

/-- Nobody holds an inode whose lock is free, and nobody owes it to its queue. -/
theorem waiting_of_unlocked (ok : HandOff s) {i : InodeIdx N} (isDirty : s.state i = .dirty)
    (unlocked : s.lock i = false) : waiting s i = 1 := by
  have tokens := ok.dirty i
  have locks := ok.lock i
  rw [dirtyTokens, if_pos isDirty] at tokens
  rw [lockTokens, unlocked] at locks
  simp only [Bool.false_eq_true, if_false] at locks
  have unheld : copies (fun w => (s.writer w).locked) i = 0 := by omega
  have owed : copies (fun w => (s.writer w).owes) i = 0 :=
    copies_eq_zero.mpr fun w owes => copies_eq_zero.mp unheld w (WriterPc.locked_of_owes owes)
  unfold waiting
  omega

theorem dirty_of_dequeued (ok : HandOff s) {v : VolumeIdx} {i : InodeIdx N}
    (mine : i ∈ (s.flusher v).dequeued) : s.state i = .dirty := by
  have present : 0 < copies (fun v => (s.flusher v).dequeued) i := copies_pos.mpr ⟨v, mine⟩
  have tokens := ok.dirty i
  rw [dirtyTokens] at tokens
  by_contra other
  rw [if_neg other] at tokens
  omega

end Derive

/-- For any number of writers and sync threads, in every run of narrow requests. -/
theorem dirty_hand_off (W : Type) [Fintype W] [DecidableEq W] (N S : Nat) [NeZero S]
    (a : Assignment N) (s : ThreadState W N S)
    (reach : (threads W S a).ReachableBy NarrowRequest s) : DirtyHandOff s := by
  have ok := HandOff.of_reachable reach
  refine ⟨waiting_le_one ok, fun i => waiting_of_unlocked ok, ?_, ok.old⟩
  intro v iIdxs numDirtyInodes writeSize idx pc _
  exact dirty_of_dequeued ok (v := v) (by rw [pc]; exact List.mem_cons_self)

/-- The next `n` steps of writer `w` with a block of zeros for inode `i`. -/
def zeroSteps (w : Bool) (i : InodeIdx 2) (n : Nat) : List (ThreadEvent Bool 2 1) :=
  List.replicate n (.writer w ⟨i, fun _ => 0, blockSize⟩)

/-- The inode a flusher has failed to lock. -/
def refused {N S : Nat} : FlusherPc N S → Option (InodeIdx N)
  | .enqueueAgain _ _ _ idx => some idx
  | _ => none

/-- One writer has written both inodes and another one has locked inode `0` again when the
flusher dequeues it and fails to lock it. -/
def takenRounds : List (ThreadEvent Bool 2 1) :=
  zeroSteps false 0 10 ++ zeroSteps false 1 10 ++ zeroSteps true 0 3 ++
    List.replicate 3 (.flusher zeroVolume)

/-- It puts the inode back, and the writer unlocks it. -/
def backRounds : List (ThreadEvent Bool 2 1) :=
  List.replicate 3 (.flusher zeroVolume) ++ zeroSteps true 0 6

theorem dirty_hand_off_put_back : ∃ r s : ThreadState Bool 2 1,
    refused (r.flusher zeroVolume) = some 0 ∧ r.lock 0 = true ∧ DirtyHandOff r ∧
      (s.dirtyQueue zeroVolume).values = [1, 0] ∧ s.lock 0 = false ∧ DirtyHandOff s := by
  have runs : ((threads Bool 1 (oneVolume 2 zeroVolume)).run (blankThreads Bool 2 1)
      takenRounds).any (fun r => refused (r.flusher zeroVolume) = some 0 ∧ r.lock 0 = true ∧
        ((threads Bool 1 (oneVolume 2 zeroVolume)).run r backRounds).any (fun s =>
          (s.dirtyQueue zeroVolume).values = [1, 0] ∧ s.lock 0 = false) = true) = true := by
    decide +kernel
  obtain ⟨r, taken, holds⟩ := (Option.any_eq_true _ _).mp runs
  obtain ⟨refuses, locked, runs'⟩ := of_decide_eq_true holds
  obtain ⟨s, back, waits⟩ := (Option.any_eq_true _ _).mp runs'
  obtain ⟨queue, unlocked⟩ := of_decide_eq_true waits
  have narrow : ∀ (es : List (ThreadEvent Bool 2 1)), ∀ e ∈ es, ∀ u, NarrowRequest u e :=
    fun _ e _ u => narrowRequest_of_small (by decide) u e
  have reach := Machine.ReachableBy.run (.init blankThreads_start) (narrow _) taken
  exact ⟨r, s, refuses, locked, dirty_hand_off Bool 2 1 (oneVolume 2 zeroVolume) r reach, queue,
    unlocked, dirty_hand_off Bool 2 1 (oneVolume 2 zeroVolume) s (reach.run (narrow _) back)⟩

/-- With `2^27` inodes, a write to inode `2^26` queues inode `0` in its place. -/
theorem dirty_hand_off_wide : ¬ ∀ s : ThreadState Unit wideN 1,
    (threads Unit 1 (oneVolume wideN zeroVolume)).Reachable s → DirtyHandOff s := by
  intro holds
  let i : InodeIdx wideN := ⟨2 ^ 26, by decide⟩
  obtain ⟨s, steps, isDirty, unlocked, queues, flushers⟩ : ∃ s,
      (threads Unit 1 (oneVolume wideN zeroVolume)).run (blankThreads Unit wideN 1)
        (oneWrite ⟨i, fun _ => 0, blockSize⟩) = some s ∧ s.state i = .dirty ∧
      s.lock i = false ∧
      (∃ q, LfQueue.new.enqueue (inodeIdxOfPointer i) = some q ∧
        s.dirtyQueue = Function.update (fun _ => .new) zeroVolume q) ∧
      s.flusher = fun _ => .idle := ⟨_, rfl, rfl, rfl, ⟨_, rfl, rfl⟩, rfl⟩
  obtain ⟨q, queued, queues⟩ := queues
  have one := (holds s (.run (.init blankThreads_start) steps)).delivered i isDirty unlocked
  have elsewhere : inodeIdxOfPointer i ≠ i := by decide
  have none :
      copies (contents fun _ : VolumeIdx => (.new : LfQueue (InodeIdx wideN) wideN)) i = 0 :=
    copies_nil i
  rw [waiting, queues, flushers, copies_enqueue queued, if_neg elsewhere, none] at one
  simp [copies_nil, FlusherPc.dequeued] at one

end BurstBuffer.Guarantees
