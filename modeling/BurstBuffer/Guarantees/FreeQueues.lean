import BurstBuffer.Invariants.FreeQueues
import BurstBuffer.Invariants.WideIndex

/-!
# Free inodes for every writer

The test of a writer is on the count of all free inodes, and its inode comes from one
queue. The two queues never get apart far enough for that one to be empty.
-/
namespace BurstBuffer.Guarantees

open Source Library

/-- The count is that of both queues, they are nearly equally full, and a writer that may
take an inode finds one in the queue its turn selects. A taken inode can be given back. -/
structure NeverStarves {C : CuckoohashMap} {N : Nat} (p : State C N × List (InodeIdx N)) :
    Prop where
  total : p.1.inodeFreeCount = freeSize p.1 0 + freeSize p.1 1
  close : freeSize p.1 0 ≤ freeSize p.1 1 + 2 ∧ freeSize p.1 1 ≤ freeSize p.1 0 + 2
  selected : isFreeLFQueueEnough p.1 →
    (p.1.inodeFreeLfqueue (roundRobin defaultNumFree p.1.freeDequeueIdx)).values ≠ []
  get : isFreeLFQueueEnough p.1 → ∀ v lbn, ∃ q, freeNext p (.getFreeInode v lbn) = some q
  release : ∀ idx ∈ p.2, ∃ q, freeNext p (.releaseInode idx) = some q

/-- After any allocations and releases the two free queues hold what `inode_free_count` says,
in sizes close to each other, and with enough free inodes neither operation fails. -/
theorem never_starves (C : CuckoohashMap) (N : Nat) (cwd : String)
    (p : State C N × List (InodeIdx N)) (reach : (freeQueues C N cwd).Reachable p) :
    NeverStarves p := by
  have balance := FreeBalance.of_reachable reach
  constructor
  · exact balance.total
  · exact ⟨balance.rotates.close 0 1, balance.rotates.close 1 0⟩
  · intro enough empty
    have filled := balance.nonempty enough (roundRobin defaultNumFree p.1.freeDequeueIdx)
    rw [freeSize, empty] at filled
    cases filled
  · intro enough v lbn
    obtain ⟨⟨idx, t⟩, got⟩ := balance.get_returns enough v lbn
    exact ⟨(t, idx :: p.2), by rw [freeNext, if_pos enough, got]; rfl⟩
  · intro idx member
    obtain ⟨t, released⟩ := balance.release_returns member
    exact ⟨(t, p.2.erase idx), by rw [freeNext, if_pos member, released]; rfl⟩

/-- Three inodes of 103 are taken, and the second one is given back. -/
def freeRun : List (FreeEvent 103) :=
  [.getFreeInode 0 7, .getFreeInode 0 8, .getFreeInode 1 7, .releaseInode 1]

theorem never_starves_run : ∃ p : State functionMap 103 × List (InodeIdx 103),
    p.2 = [2, 0] ∧ NeverStarves p := by
  have runs : ((nvmSystemInit "/" (nvmStructureBuild (blankMemory 103))).bind fun s =>
      (freeQueues functionMap 103 "/").run (s, []) freeRun).any (fun p => p.2 = [2, 0]) = true := by
    decide +kernel
  obtain ⟨p, reached, held⟩ := (Option.any_eq_true _ _).mp runs
  obtain ⟨s, started, steps⟩ := Option.bind_eq_some_iff.mp reached
  have initial : (freeQueues functionMap 103 "/").init (s, []) := ⟨⟨_, started⟩, rfl⟩
  exact ⟨p, of_decide_eq_true held,
    never_starves functionMap 103 "/" p (Machine.Reachable.run (.init initial) steps)⟩

end BurstBuffer.Guarantees
