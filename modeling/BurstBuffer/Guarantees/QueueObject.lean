import BurstBuffer.Invariants.LfQueueObject

/-!
# An lfqueue is an atomic bounded queue

The models of the system call the sequential queue where the code calls an lfqueue. What
the callers of an lfqueue see is what they would see of that queue, whatever the threads
inside of it do.
-/
namespace BurstBuffer.Guarantees

open Library Source

/-- In every run of every set of threads, the calls and returns are those of a run of the
sequential queue that performs each call in one step between the two. Outside of all calls,
the two counters give the size of its content. -/
theorem queue_linearizable (τ α : Type) [DecidableEq τ] (capacity : Nat) [NeZero capacity]
    (s t : QueueState τ α capacity) (es : List (QueueEvent τ α))
    (start : (queueMachine τ α capacity).init s)
    (steps : (queueMachine τ α capacity).run s es = some t) :
    ∃ u, (atomicQueue τ α capacity).Shows objectLabel ⟨.new, fun _ => .idle⟩
        ((queueMachine τ α capacity).trace queueLabel s es) u ∧
      ((∀ θ, t.pc θ = .idle) →
        u.content.getSize = t.pCount - t.cCount ∧ ∀ θ, u.status θ = .idle) := by
  have follow : ∀ (s : QueueState τ α capacity) a e t,
      (a = s.object ∧ QueueOk s ∧ ClaimsOk s) → (queueMachine τ α capacity).next s e = some t →
      ∃ b, (atomicQueue τ α capacity).Shows objectLabel a (queueLabel s e) b ∧
        (b = t.object ∧ QueueOk t ∧ ClaimsOk t) := by
    rintro s _ e t ⟨rfl, ok, claims⟩ step
    exact ⟨t.object, followed_next ok claims step, rfl, ok.next step, claims.next ok step⟩
  obtain ⟨values, rfl⟩ := start
  have blank : (⟨.new, fun _ => .idle⟩ :
      ObjectState (LfQueue α capacity) τ (QueueOp α) (Option α)) =
        (QueueState.initial values).object := by
    symm
    apply object_eq
    · have low : (QueueState.initial values : QueueState τ α capacity).dequeued = capacity - 1 :=
        Nat.min_self _
      have high : (QueueState.initial values : QueueState τ α capacity).enqueued = capacity - 1 :=
        Nat.min_eq_left (Nat.le_add_right _ _)
      simp only [QueueState.content, low, high, passedBetween_self]
      rfl
    · exact fun _ => rfl
  obtain ⟨u, shown, rfl, ok, claims⟩ := Machine.trace_simulates follow
    ⟨blank, QueueOk.initial values, ClaimsOk.initial values⟩ steps
  refine ⟨t.object, shown, fun rest => ⟨content_at_rest ok claims rest, fun θ => ?_⟩⟩
  simp only [QueueState.object, rest θ]
  rfl

/-- A dequeue that comes first returns the value of the enqueue that comes second. -/
theorem queue_linearizable_seven : ∃ u, (atomicQueue Bool Nat 1).Shows objectLabel
    ⟨.new, fun _ => .idle⟩ [.call true .dequeue, .call false (.enqueue 7), .ret false none,
      .ret true (some 7)] u := by
  obtain ⟨u, shown, _⟩ := queue_linearizable Bool Nat 1 (.initial fun _ => 0) _
    [.dequeue true, .advance true, .enqueue false 7, .advance true, .advance false,
      .advance false, .advance true, .advance false, .advance true, .advance true,
      .advance true] ⟨_, rfl⟩ rfl
  exact ⟨u, shown⟩

end BurstBuffer.Guarantees
