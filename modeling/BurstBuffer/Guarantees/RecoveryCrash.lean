import Mathlib.Logic.Relation
import BurstBuffer.Invariants.RecoveryReplay
import BurstBuffer.Invariants.WideIndex

/-!
# Crashes during recovery

A recovery that is itself interrupted is made up for by the next one: behind a
crash in the first loop all blocks are replayed again, and behind one in the
second loop the rest of them, which includes the last for every position that any
of the rest covers.
-/
namespace BurstBuffer.Guarantees

open Source Library

variable {C : CuckoohashMap} {N : Nat} {cwd : String} {s t : State C N}

/-- What recovery_start, started on `s`, leaves when it is interrupted: behind `k`
rounds of its first loop, in the same loop with only some of the bytes written so
far on the disk, or behind `k` rounds of its second loop. -/
inductive Interrupted (cwd : String) (s : State C N) : State C N → Prop where
  | writing (k : Nat) (t : State C N) :
      ((List.finRange N).take k).foldlM (recoverBlock cwd) s = some t → Interrupted cwd s t
  | lost (bytes : FileBytes) :
      (∀ x, (∀ i, (recoveryWrites cwd s).covers i x = false) → bytes x = bytesOf s.files x) →
      Interrupted cwd s (s.withFiles (filesOf bytes))
  | settling (k : Nat) (t : State C N) :
      (List.finRange N).foldlM (recoverBlock cwd) s = some t →
      Interrupted cwd s (((List.finRange N).take k).foldl settleInode t)

/-- A crash in the first loop leaves bytes of recovery or of before. -/
theorem recoveryStart_of_writing {k : Nat}
    (recovered : ((List.finRange N).take k).foldlM (recoverBlock cwd) s = some t) :
    recoveryStart cwd t = recoveryStart cwd s := by
  obtain ⟨_, frame⟩ := recoverable_of_recovered recovered
  rw [frame]
  apply recoveryStart_withFiles
  intro x uncovered
  apply Overwrites.replay_of_uncovered
  intro i _
  exact uncovered i

/-- A crash in the second loop leaves all bytes of recovery. -/
theorem recoveryStart_of_settling (k : Nat)
    (recovered : (List.finRange N).foldlM (recoverBlock cwd) s = some t) :
    recoveryStart cwd (((List.finRange N).take k).foldl settleInode t) = recoveryStart cwd s := by
  obtain ⟨fine, frame⟩ := recoverable_of_recovered recovered
  have first : ((List.finRange N).take k).Nodup :=
    (List.nodup_finRange N).sublist (List.take_sublist k _)
  rw [frame, settleInode_foldl_eq first]
  exact recoveryStart_settled fine (List.take_append_drop k _)

/-- One interruption makes no difference to a recovery that is run again. -/
theorem recoveryStart_of_interrupted (interrupted : Interrupted cwd s t) :
    recoveryStart cwd t = recoveryStart cwd s := by
  cases interrupted with
  | writing k _ recovered => exact recoveryStart_of_writing recovered
  | lost bytes same => exact recoveryStart_withFiles same
  | settling k u recovered => exact recoveryStart_of_settling k recovered

/-- However often recovery_start is interrupted, on any tables and files, running
it again to the end gives what one uninterrupted run gives. -/
theorem recovery_idempotent (C : CuckoohashMap) (N : Nat) (cwd : String) (s t : State C N)
    (interrupted : Relation.ReflTransGen (Interrupted cwd) s t) :
    recoveryStart cwd t = recoveryStart cwd s := by
  induction interrupted with
  | refl => rfl
  | tail _ last ih => rw [recoveryStart_of_interrupted last, ih]

/-- Two inodes of one volume that both resolve to the front of its file. -/
def samePosition (N : Nat) : State functionMap N :=
  { blankMemory N with
    inodeTable := fun i => ⟨i.val * 2 ^ 18, .dirty, some 0, Fin.castAdd maxVolumeEntry i, false⟩ }

/-- A crash when the first of them is CLEAN already. -/
theorem recovery_idempotent_overlapping : ∃ t, t ≠ samePosition 2 ∧
    recoveryStart "/" t = recoveryStart "/" (samePosition 2) := by
  have fine : ∀ i ∈ List.finRange 2, Recoverable (samePosition 2) i := fun _ _ _ => rfl
  have whole := recoverBlocks_eq "/" fine (bytesOf (samePosition 2).files)
  refine ⟨_, ?_, recovery_idempotent functionMap 2 "/" (samePosition 2) _
    (Relation.ReflTransGen.single (Interrupted.settling 1 _ whole))⟩
  intro same
  have state := congrArg (fun s => (State.inodeTable s 0).state) same
  cases state

end BurstBuffer.Guarantees
