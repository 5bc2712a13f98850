import BurstBuffer.Invariants.LfQueueSteps
import BurstBuffer.Source.FlushThreads

/-!
# What a step of a call does to its queue

One lemma for the calls of enqueue and one for those of dequeue: the tickets, the
values that wait in the queue, and that the other threads see nothing of the step
but these.
-/
namespace BurstBuffer.Source

open Library

variable {τ α : Type} {capacity : Nat}

/-- The value has been enqueued. -/
def QueueState.Published (q : QueueState τ α capacity) (x : α) : Prop :=
  ∃ ticket ∈ q.stored, q.passed ticket = some x

theorem QueueState.published_congr {q q' : QueueState τ α capacity} (stored : q'.stored = q.stored)
    (passed : ∀ t ∈ q.stored, q'.passed t = q.passed t) (x : α) :
    q'.Published x ↔ q.Published x := by
  unfold QueueState.Published
  rw [stored]
  constructor
  · rintro ⟨t, member, value⟩
    exact ⟨t, member, passed t member ▸ value⟩
  · rintro ⟨t, member, value⟩
    exact ⟨t, member, (passed t member).trans value⟩

section Waits

variable [DecidableEq α] {q q' : QueueState τ α capacity}

/-- How often a value lies in the queue: enqueued, and not yet returned. -/
def QueueState.waits (q : QueueState τ α capacity) (x : α) : Nat :=
  q.stored.countP fun ticket => decide (ticket ∉ q.taken ∧ q.passed ticket = some x)

theorem QueueState.waits_congr (stored : q'.stored = q.stored) (returned : q'.returned = q.returned)
    (passed : ∀ t ∈ q.stored, q'.passed t = q.passed t) (x : α) : q'.waits x = q.waits x := by
  unfold QueueState.waits QueueState.taken
  rw [stored, returned]
  apply List.countP_congr
  intro t member
  simp only [passed t member]

variable [NeZero capacity]

/-- The last store of enqueue adds the value. -/
theorem QueueOk.waits_publish (ok : QueueOk q) {ticket : Nat} {value : α}
    (fresh : ticket ∉ q.stored)
    (passed : q.passed ticket = some value) (stored : q'.stored = ticket :: q.stored)
    (returned : q'.returned = q.returned) (same : q'.passed = q.passed) (x : α) :
    q'.waits x = q.waits x + if value = x then 1 else 0 := by
  have loose : ticket ∉ q.taken := fun taken => fresh (ok.mem_stored_of_taken taken).1
  have taken : q'.taken = q.taken := congrArg (List.map Prod.fst) returned
  unfold QueueState.waits
  rw [stored, taken, same, List.countP_cons]
  congr 1
  simp [loose, passed]

/-- The last store of dequeue removes the value. -/
theorem QueueOk.waits_release (ok : QueueOk q) {ticket : Nat} {value : α}
    (member : ticket ∈ q.stored)
    (loose : ticket ∉ q.taken) (passed : q.passed ticket = some value)
    (stored : q'.stored = q.stored) (returned : q'.returned = (ticket, value) :: q.returned)
    (same : q'.passed = q.passed) (x : α) :
    q.waits x = q'.waits x + if value = x then 1 else 0 := by
  have taken : q'.taken = ticket :: q.taken := congrArg (List.map Prod.fst) returned
  have front := List.perm_cons_erase member
  unfold QueueState.waits
  rw [stored, taken, same, front.countP_eq, front.countP_eq, List.countP_cons, List.countP_cons]
  have others : ∀ t ∈ q.stored.erase ticket, t ≠ ticket := fun t other =>
    (ok.storedOnce.mem_erase_iff.mp other).1
  have rest : (q.stored.erase ticket).countP (fun t => decide (t ∉ q.taken ∧ q.passed t = some x)) =
      (q.stored.erase ticket).countP
        (fun t => decide (t ∉ ticket :: q.taken ∧ q.passed t = some x)) := by
    apply List.countP_congr
    intro t other
    simp [others t other]
  rw [rest]
  simp [loose, passed]

end Waits

/-- What a thread does with a queue. -/
inductive QueueUse (α : Type) where
  | none
  | enqueue (value : α)
  | dequeue

/-- Where a thread is in the queue it uses that way: outside, or in such a call. -/
def QueueUse.At (pc : QueuePc α) : QueueUse α → Prop
  | .none => pc = .idle
  | .enqueue value => pc = .idle ∨ ∃ ticket, pc.producing = some (ticket, value)
  | .dequeue => pc = .idle ∨ ∃ ticket, pc.consuming = some ticket

theorem QueueUse.at_idle (use : QueueUse α) : use.At (.idle : QueuePc α) := by
  cases use with
  | none => rfl
  | enqueue | dequeue => exact Or.inl rfl

theorem QueueUse.at_of_idle {use : QueueUse α} {pc : QueuePc α} (idle : pc = .idle) :
    use.At pc := by
  rw [idle]
  exact use.at_idle

/-- A thread outside the queue. -/
def QueuePc.outside : QueuePc α → Bool
  | .idle => true
  | _ => false

theorem QueuePc.outside_iff {pc : QueuePc α} : pc.outside = true ↔ pc = .idle := by
  cases pc <;> simp [QueuePc.outside]

section Calls

variable [NeZero capacity] [DecidableEq α] {q q' : QueueState τ α capacity}

/-- One step of a call of enqueue. -/
structure Enqueued (θ : τ) (value : α) (q q' : QueueState τ α capacity) (returned : Bool) :
    Prop where
  others : ∀ η, η ≠ θ → q'.pc η = q.pc η
  mine : if returned then q'.pc θ = .idle
    else ∃ ticket, (q'.pc θ).producing = some (ticket, value)
  inside : returned = true → (q.pc θ).outside = false
  pCount : q'.pCount = q.pCount + if (q.pc θ).outside then 1 else 0
  cCount : q'.cCount = q.cCount
  waits : ∀ x, q'.waits x = q.waits x + if returned = true ∧ value = x then 1 else 0
  published : ∀ x, q'.Published x ↔ q.Published x ∨ returned = true ∧ value = x

/-- One step of a call of dequeue. -/
structure Dequeued (θ : τ) (q q' : QueueState τ α capacity) (returned : Option α) : Prop where
  others : ∀ η, η ≠ θ → q'.pc η = q.pc η
  mine : if returned.isSome then q'.pc θ = .idle
    else ∃ ticket, (q'.pc θ).consuming = some ticket
  inside : returned.isSome → (q.pc θ).outside = false
  pCount : q'.pCount = q.pCount
  cCount : q'.cCount = q.cCount + if (q.pc θ).outside then 1 else 0
  waits : ∀ x, q.waits x = q'.waits x + if returned = some x then 1 else 0
  published : ∀ x, q'.Published x ↔ q.Published x

variable [DecidableEq τ]

omit [DecidableEq α] in
/-- A step of a call is a step of the queue. -/
theorem callEnqueue_next {θ : τ} {value : α} {returned : Bool}
    (called : callEnqueue θ value q = some (returned, q')) : ∃ e, queueNext q e = some q' := by
  unfold callEnqueue at called
  split at called
  · obtain ⟨_, claimed, same⟩ := Option.map_eq_some_iff.mp called
    cases same
    exact ⟨.enqueue θ value, claimed⟩
  all_goals
    obtain ⟨_, step, same⟩ := Option.map_eq_some_iff.mp called
    cases same
    exact ⟨.advance θ, step⟩

omit [DecidableEq α] in
theorem callDequeue_next {θ : τ} {returned : Option α}
    (called : callDequeue θ q = some (returned, q')) : ∃ e, queueNext q e = some q' := by
  unfold callDequeue at called
  split at called
  · obtain ⟨_, claimed, same⟩ := Option.map_eq_some_iff.mp called
    cases same
    exact ⟨.dequeue θ, claimed⟩
  all_goals
    obtain ⟨_, step, same⟩ := Option.map_eq_some_iff.mp called
    cases same
    exact ⟨.advance θ, step⟩

omit [NeZero capacity] in
/-- A step before the last store. -/
theorem Enqueued.inner {θ : τ} {value : α} {pc : QueuePc α} {ticket : Nat}
    (moved : q'.pc = Function.update q.pc θ pc) (holds : pc.producing = some (ticket, value))
    (pCount : q'.pCount = q.pCount + if (q.pc θ).outside then 1 else 0)
    (cCount : q'.cCount = q.cCount) (stored : q'.stored = q.stored)
    (returned : q'.returned = q.returned) (passed : ∀ t ∈ q.stored, q'.passed t = q.passed t) :
    Enqueued θ value q q' false := by
  refine ⟨fun η other => ?_, ?_, nofun, pCount, cCount, fun x => ?_, fun x => ?_⟩
  · rw [moved, Function.update_of_ne other]
  · rw [if_neg (by decide), moved, Function.update_self]
    exact ⟨ticket, holds⟩
  · rw [QueueState.waits_congr stored returned passed]
    simp
  · rw [QueueState.published_congr stored passed]
    simp

omit [NeZero capacity] in
theorem Dequeued.inner {θ : τ} {pc : QueuePc α} {ticket : Nat}
    (moved : q'.pc = Function.update q.pc θ pc) (holds : pc.consuming = some ticket)
    (pCount : q'.pCount = q.pCount)
    (cCount : q'.cCount = q.cCount + if (q.pc θ).outside then 1 else 0)
    (stored : q'.stored = q.stored) (returned : q'.returned = q.returned)
    (passed : q'.passed = q.passed) : Dequeued θ q q' none := by
  refine ⟨fun η other => ?_, ?_, nofun, pCount, cCount, fun x => ?_, fun x => ?_⟩
  · rw [moved, Function.update_of_ne other]
  · rw [if_neg (by simp), moved, Function.update_self]
    exact ⟨ticket, holds⟩
  · rw [QueueState.waits_congr stored returned (fun t _ => congrFun passed t)]
    simp
  · rw [QueueState.published_congr stored fun t _ => congrFun passed t]

/-- The last store of a call of enqueue. -/
theorem Enqueued.last (ok : QueueOk q) {θ : τ} {value : α} {ticket : Nat}
    (here : q.pc θ = .enqueuePublish ticket value) (moved : q'.pc = Function.update q.pc θ .idle)
    (pCount : q'.pCount = q.pCount) (cCount : q'.cCount = q.cCount)
    (stored : q'.stored = ticket :: q.stored) (returned : q'.returned = q.returned)
    (passed : q'.passed = q.passed) : Enqueued θ value q q' true := by
  obtain ⟨_, _, fresh, mine⟩ := (ok.threads θ).producer ticket value (by rw [here]; rfl)
  refine ⟨fun η other => ?_, ?_, fun _ => by rw [here]; rfl, ?_, cCount, fun x => ?_, fun x => ?_⟩
  · rw [moved, Function.update_of_ne other]
  · rw [if_pos rfl, moved, Function.update_self]
  · rw [pCount, here]
    rfl
  · rw [ok.waits_publish fresh mine stored returned passed]
    simp
  · unfold QueueState.Published
    rw [stored, passed]
    simp [mine, or_comm]

theorem Dequeued.last (ok : QueueOk q) {θ : τ} {value : α} {ticket : Nat}
    (here : q.pc θ = .dequeueRelease ticket value) (moved : q'.pc = Function.update q.pc θ .idle)
    (pCount : q'.pCount = q.pCount) (cCount : q'.cCount = q.cCount)
    (stored : q'.stored = q.stored) (returned : q'.returned = (ticket, value) :: q.returned)
    (passed : q'.passed = q.passed) : Dequeued θ q q' (some value) := by
  have inside : (q.pc θ).emptying = some ticket := by
    rw [here]
    rfl
  have member := (ok.full_of_emptying inside).1
  obtain ⟨_, _, loose⟩ := (ok.threads θ).consumer ticket (QueuePc.consuming_of_emptying inside)
  have mine := (ok.threads θ).read ticket value here
  refine ⟨fun η other => ?_, ?_, fun _ => by rw [here]; rfl, pCount, ?_, fun x => ?_, fun x => ?_⟩
  · rw [moved, Function.update_of_ne other]
  · rw [if_pos (by rfl), moved, Function.update_self]
  · rw [cCount, here]
    rfl
  · rw [ok.waits_release member loose mine stored returned passed]
    simp
  · rw [QueueState.published_congr stored fun t _ => congrFun passed t]

theorem QueueOk.callEnqueue (ok : QueueOk q) {θ : τ} {value : α} {returned : Bool}
    (use : (QueueUse.enqueue value).At (q.pc θ))
    (called : callEnqueue θ value q = some (returned, q')) : Enqueued θ value q q' returned := by
  unfold Source.callEnqueue at called
  cases pc : q.pc θ with
  | idle =>
    rw [pc] at called
    obtain ⟨x, claimed, same⟩ := Option.map_eq_some_iff.mp called
    cases same
    unfold Source.claimProducer at claimed
    rw [pc] at claimed
    dsimp only at claimed
    split at claimed <;> cases claimed
    refine Enqueued.inner rfl rfl (by rw [pc]; rfl) rfl rfl rfl fun t member => ?_
    have bound := (ok.stored t member).2
    exact Function.update_of_ne (by omega) _ _
  | enqueueSpin ticket held =>
    obtain rfl : held = value := by simpa [QueueUse.At, pc, QueuePc.producing] using use
    rw [pc] at called
    obtain ⟨x, step, same⟩ := Option.map_eq_some_iff.mp called
    cases same
    unfold Source.advance at step
    rw [pc] at step
    dsimp only at step
    split at step <;> cases step
    · exact Enqueued.inner rfl rfl (by rw [pc]; rfl) rfl rfl rfl fun _ _ => rfl
    · exact Enqueued.inner (Function.update_eq_self θ q.pc).symm (by rw [pc]; rfl)
        (by rw [pc]; rfl) rfl rfl rfl fun _ _ => rfl
  | enqueueStore ticket held =>
    obtain rfl : held = value := by simpa [QueueUse.At, pc, QueuePc.producing] using use
    rw [pc] at called
    obtain ⟨x, step, same⟩ := Option.map_eq_some_iff.mp called
    cases same
    unfold Source.advance at step
    rw [pc] at step
    cases step
    exact Enqueued.inner rfl rfl (by rw [pc]; rfl) rfl rfl rfl fun _ _ => rfl
  | enqueuePublish ticket held =>
    obtain rfl : held = value := by simpa [QueueUse.At, pc, QueuePc.producing] using use
    rw [pc] at called
    obtain ⟨x, step, same⟩ := Option.map_eq_some_iff.mp called
    cases same
    unfold Source.advance at step
    rw [pc] at step
    cases step
    exact Enqueued.last ok pc rfl rfl rfl rfl rfl rfl
  | dequeueSpin | dequeueRead | dequeueRelease => simp [QueueUse.At, pc, QueuePc.producing] at use

theorem QueueOk.callDequeue (ok : QueueOk q) {θ : τ} {returned : Option α}
    (use : QueueUse.dequeue.At (q.pc θ)) (called : callDequeue θ q = some (returned, q')) :
    Dequeued θ q q' returned := by
  unfold Source.callDequeue at called
  cases pc : q.pc θ with
  | idle =>
    rw [pc] at called
    obtain ⟨x, claimed, same⟩ := Option.map_eq_some_iff.mp called
    cases same
    unfold Source.claimConsumer at claimed
    rw [pc] at claimed
    dsimp only at claimed
    split at claimed <;> cases claimed
    exact Dequeued.inner rfl rfl rfl (by rw [pc]; rfl) rfl rfl rfl
  | dequeueSpin ticket =>
    rw [pc] at called
    obtain ⟨x, step, same⟩ := Option.map_eq_some_iff.mp called
    cases same
    unfold Source.advance at step
    rw [pc] at step
    dsimp only at step
    split at step <;> cases step
    · exact Dequeued.inner rfl rfl rfl (by rw [pc]; rfl) rfl rfl rfl
    · exact Dequeued.inner (Function.update_eq_self θ q.pc).symm (by rw [pc]; rfl) rfl
        (by rw [pc]; rfl) rfl rfl rfl
  | dequeueRead ticket =>
    rw [pc] at called
    obtain ⟨x, step, same⟩ := Option.map_eq_some_iff.mp called
    cases same
    unfold Source.advance at step
    rw [pc] at step
    cases step
    exact Dequeued.inner rfl rfl rfl (by rw [pc]; rfl) rfl rfl rfl
  | dequeueRelease ticket value =>
    rw [pc] at called
    obtain ⟨x, step, same⟩ := Option.map_eq_some_iff.mp called
    cases same
    unfold Source.advance at step
    rw [pc] at step
    cases step
    exact Dequeued.last ok pc rfl rfl rfl rfl rfl rfl
  | enqueueSpin | enqueueStore | enqueuePublish => simp [QueueUse.At, pc, QueuePc.consuming] at use

end Calls

/-- Every ticket up to `p_count` has been claimed by a call of enqueue. -/
theorem passed_of_reachable [NeZero capacity] [DecidableEq τ] {q : QueueState τ α capacity}
    (reach : (queueMachine τ α capacity).Reachable q) {ticket : Nat} (low : capacity ≤ ticket)
    (claimed : ticket ≤ q.pCount) : ∃ value, q.passed ticket = some value := by
  induction reach with
  | init initial =>
    obtain ⟨values, rfl⟩ := initial
    have positive := Nat.pos_of_neZero capacity
    simp only [QueueState.initial] at claimed
    omega
  | @step s t e _ step ih =>
    cases QueueStep.of_next step with
    | claimProducer =>
      rename_i value _ _
      by_cases new : ticket = s.pCount + 1
      · subst new
        exact ⟨value, Function.update_self _ _ _⟩
      · dsimp only at claimed ⊢
        rw [Function.update_of_ne new]
        exact ih (by omega)
    | _ => exact ih claimed

/-- What has been enqueued stays so in the history of the queue. -/
theorem QueueOk.published_next [NeZero capacity] [DecidableEq τ] {q q' : QueueState τ α capacity}
    (ok : QueueOk q) {e : QueueEvent τ α} (step : queueNext q e = some q') {x : α}
    (enqueued : q.Published x) : q'.Published x := by
  obtain ⟨ticket, member, passed⟩ := enqueued
  cases QueueStep.of_next step with
  | claimProducer =>
    have bound := (ok.stored ticket member).2
    refine ⟨ticket, member, ?_⟩
    dsimp only
    rw [Function.update_of_ne (by omega)]
    exact passed
  | enqueuePublish => exact ⟨ticket, List.mem_cons_of_mem _ member, passed⟩
  | _ => exact ⟨ticket, member, passed⟩

end BurstBuffer.Source
