import BurstBuffer.Invariants.DirtyCount
import BurstBuffer.Invariants.Reservation

/-!
# The counts of free and dirty inodes

`inode_free_count` and `inode_dirty_count` are changed apart from the queues they count. In no
interleaving, races included, do they lose track of the entries, and no thread counts down at
zero.
-/
namespace BurstBuffer.Guarantees

open Library Source

variable {C : CuckoohashMap} {W : Type} {N S : Nat}

/-- Each count is that of the entries of its queues and of those a thread has taken out and not
counted down, or counted up and not put in. -/
structure InodeCounts [Fintype W] (s : CallState C W N S) : Prop where
  free : s.freeCount = poolSize (contents s.freeQueue) +
    poolSize (fun b => (s.balloon b).counted) + poolSize (fun w => (s.call w).uncounted)
  dirty : s.core.dirtyCount = poolSize (contents s.core.dirtyQueue) +
    poolSize (fun v => (s.core.flusher v).counted) + poolSize (fun w => (s.core.writer w).counted)
  freeDown : ∀ w c found idx, s.call w = .uncount c found idx → 0 < s.freeCount
  dirtyDown : ∀ v idx batch rest, s.core.flusher v = .handOff (idx :: batch) rest →
    0 < s.core.dirtyCount

/-- In every interleaving, races included, both counts are what the queues hold and what is
between a queue and its count. -/
theorem inode_counts (C : CuckoohashMap) (W : Type) [Fintype W] [DecidableEq W] (N S : Nat)
    [NeZero S] (s : CallState C W N S) (reach : (dealtCalls C W N S).Reachable s) :
    InodeCounts s := by
  have free := Reserved.of_reachable reach
  have dirty := DirtyCounted.of_reachable reach
  refine ⟨free.count, dirty.tally.count, fun w c found idx at_ => ?_,
    fun v idx batch rest at_ => ?_⟩
  · exact free.count_pos (w := w) (by rw [at_]; exact List.cons_ne_nil _ _)
  · exact dirty.tally.count_pos (v := v) (by rw [at_]; exact List.cons_ne_nil _ _)

/-- The first call has its inode out of the free queues before it counts down. -/
theorem inode_counts_first : ∃ s : CallState functionMap Unit 112 2,
    poolSize (fun w => (s.call w).uncounted) = 1 ∧ InodeCounts s := by
  have runs : ((dealtCalls functionMap Unit 112 2).run (blankCalls Unit 112 2)
      (callSteps () 0 7)).any (fun s => poolSize (fun w => (s.call w).uncounted) = 1) = true := by
    decide +kernel
  obtain ⟨s, steps, out⟩ := (Option.any_eq_true _ _).mp runs
  have reach : (dealtCalls functionMap Unit 112 2).Reachable s :=
    .run (.init (blankCalls_dealt Unit 112 2)) steps
  exact ⟨s, of_decide_eq_true out, inode_counts functionMap Unit 112 2 s reach⟩

end BurstBuffer.Guarantees
