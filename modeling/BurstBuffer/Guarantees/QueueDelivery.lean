import Mathlib.Data.Fintype.Card
import BurstBuffer.Invariants.LfQueueSteps

/-!
# Delivery by an lfqueue under any interleaving
-/
namespace BurstBuffer.Guarantees

open Library Source

variable {τ α : Type} {capacity : Nat} [NeZero capacity]

/-- The ticket of a thread between its spin and its last store. -/
def pastSpin : QueuePc α → Option Nat
  | .enqueueStore ticket _ => some ticket
  | .enqueuePublish ticket _ => some ticket
  | .dequeueRead ticket => some ticket
  | .dequeueRelease ticket _ => some ticket
  | _ => none

structure Delivery [DecidableEq τ] (s : QueueState τ α capacity) : Prop where
  /-- A dequeue returns what was passed for its ticket, once. -/
  returned : ∀ ticket value, (ticket, value) ∈ s.returned → s.passed ticket = some value
  once : s.taken.Nodup
  /-- No step overwrites a value that has not been returned. -/
  kept : ∀ e t, queueNext s e = some t → ∀ ticket ∈ s.stored, ticket ∉ s.taken →
    t.values (slot capacity ticket) = s.values (slot capacity ticket)
  /-- No two threads are past their spins on one slot. -/
  alone : ∀ θ η ticket other, pastSpin (s.pc θ) = some ticket → pastSpin (s.pc η) = some other →
    slot capacity ticket = slot capacity other → θ = η
  balance : s.returned.length ≤ s.stored.length ∧
    s.stored.length ≤ s.returned.length + capacity

theorem pastSpin_eq_some {pc : QueuePc α} {ticket : Nat} :
    pastSpin pc = some ticket ↔ pc.filling = some ticket ∨ pc.emptying = some ticket := by
  cases pc <;> simp [pastSpin, QueuePc.filling, QueuePc.emptying]

section Derive

variable {s : QueueState τ α capacity}

theorem alone_of_queueOk (ok : QueueOk s) {θ η : τ} {ticket other : Nat}
    (inside : pastSpin (s.pc θ) = some ticket) (inside' : pastSpin (s.pc η) = some other)
    (same : slot capacity ticket = slot capacity other) : θ = η := by
  rcases pastSpin_eq_some.mp inside with filling | emptying <;>
    rcases pastSpin_eq_some.mp inside' with filling' | emptying'
  · exact ok.filling_unique filling filling' same.symm
  · exact absurd same.symm (ok.filling_apart_emptying filling emptying')
  · exact absurd same (ok.filling_apart_emptying filling' emptying)
  · exact ok.emptying_unique emptying emptying' same.symm

/-- Completed enqueues whose value waits are in different slots. -/
theorem waiting_slots (ok : QueueOk s) {ticket other : Nat} (member : ticket ∈ s.stored)
    (waiting : ticket ∉ s.taken) (member' : other ∈ s.stored) (waiting' : other ∉ s.taken)
    (same : slot capacity ticket = slot capacity other) : ticket = other := by
  rcases ok.full ticket member with taken | ⟨seen, _⟩
  · exact absurd taken waiting
  · rcases ok.full other member' with taken' | ⟨seen', _⟩
    · exact absurd taken' waiting'
    · rw [← seen, ← seen', same]

theorem balance_of_queueOk (ok : QueueOk s) : s.returned.length ≤ s.stored.length ∧
    s.stored.length ≤ s.returned.length + capacity := by
  have size : s.taken.length = s.returned.length := List.length_map _
  constructor
  · rw [← size]
    exact (List.subperm_of_subset ok.takenOnce fun t taken =>
      (ok.mem_stored_of_taken taken).1).length_le
  · have split := List.length_eq_length_filter_add (l := s.stored) fun t => decide (t ∈ s.taken)
    have before : (s.stored.filter fun t => decide (t ∈ s.taken)).length ≤ s.taken.length :=
      (List.subperm_of_subset (ok.storedOnce.filter _) fun t member => by
        simpa using (List.mem_filter.mp member).2).length_le
    have apart : ((s.stored.filter fun t => !decide (t ∈ s.taken)).map (slot capacity)).Nodup := by
      refine List.Nodup.map_on ?_ (ok.storedOnce.filter _)
      intro t member u member' same
      obtain ⟨inStored, waiting⟩ := List.mem_filter.mp member
      obtain ⟨inStored', waiting'⟩ := List.mem_filter.mp member'
      exact waiting_slots ok inStored (by simpa using waiting) inStored' (by simpa using waiting')
        same
    have after := apart.length_le_card
    rw [List.length_map, Fintype.card_fin] at after
    omega

/-- Only a producer past its spin stores a value, and nothing waits in its slot. -/
theorem kept_of_queueOk [DecidableEq τ] {t : QueueState τ α capacity} (ok : QueueOk s)
    {e : QueueEvent τ α} (step : queueNext s e = some t) {ticket : Nat}
    (member : ticket ∈ s.stored) (waiting : ticket ∉ s.taken) :
    t.values (slot capacity ticket) = s.values (slot capacity ticket) := by
  cases QueueStep.of_next step with
  | enqueueStore here =>
    rename_i θ mine value
    have inside : (s.pc θ).filling = some mine := by
      rw [here]
      rfl
    have apart : slot capacity ticket ≠ slot capacity mine :=
      fun same => waiting (ok.taken_of_filling inside member same)
    exact Function.update_of_ne apart _ _
  | _ => rfl

end Derive

/-- For every capacity, every set of threads and every interleaving. -/
theorem queue_delivers (τ α : Type) [DecidableEq τ] (capacity : Nat) [NeZero capacity]
    (s : QueueState τ α capacity) (reach : (queueMachine τ α capacity).Reachable s) :
    Delivery s := by
  have ok := QueueOk.of_reachable reach
  exact {
    returned := fun ticket value member => (ok.returned ticket value member).2.2
    once := ok.takenOnce
    kept := fun _ _ step _ member waiting => kept_of_queueOk ok step member waiting
    alone := fun _ _ _ _ inside inside' same => alone_of_queueOk ok inside inside' same
    balance := balance_of_queueOk ok }

/-- A consumer that comes first waits for the producer and gets its value. -/
theorem queue_delivers_seven : ∃ s : QueueState Bool Nat 1,
    s.returned = [(1, 7)] ∧ Delivery s := by
  obtain ⟨s, steps, result⟩ : ∃ s, (queueMachine Bool Nat 1).run (.initial fun _ => 0)
      [.dequeue true, .advance true, .enqueue false 7, .advance true, .advance false,
        .advance false, .advance true, .advance false, .advance true, .advance true,
        .advance true] = some s ∧ s.returned = [(1, 7)] := ⟨_, rfl, rfl⟩
  exact ⟨s, result, queue_delivers Bool Nat 1 s (.run (.init ⟨_, rfl⟩) steps)⟩

end BurstBuffer.Guarantees
