import BurstBuffer.Library.AtomicObject
import BurstBuffer.Source.LfQueue
import BurstBuffer.Invariants.LfQueueProgress

/-!
# An lfqueue as an atomic queue

What the threads inside of an lfqueue stand for in the sequential queue. An enqueue has
taken effect as soon as its ticket is claimed and at most `capacity` ahead of the dequeues,
a dequeue as soon as both sides have claimed its ticket. So one claim can perform two
calls: an enqueue and the dequeue that waits for it, or a dequeue and the enqueue that
waits for its slot.
-/
namespace BurstBuffer.Source

open Library

variable {τ α : Type} {capacity : Nat}

inductive QueueOp (α : Type) where
  | enqueue (value : α)
  | dequeue

/-- The sequential queue. A dequeue returns a value, an enqueue returns nothing. -/
def applyQueue : QueueOp α → LfQueue α capacity → Option (Option α × LfQueue α capacity)
  | .enqueue value, q => (q.enqueue value).map fun q => (none, q)
  | .dequeue, q => q.dequeue.map fun (value, q) => (some value, q)

/-- The calls and returns of a run of the queue. -/
def queueLabel (s : QueueState τ α capacity) :
    QueueEvent τ α → List (Visible τ (QueueOp α) (Option α))
  | .enqueue θ value => [.call θ (.enqueue value)]
  | .dequeue θ => [.call θ .dequeue]
  | .advance θ =>
    match s.pc θ with
    | .enqueuePublish _ _ => [.ret θ none]
    | .dequeueRelease _ value => [.ret θ (some value)]
    | _ => []

/-- The tickets that both sides have claimed end here. -/
def QueueState.dequeued (s : QueueState τ α capacity) : Nat := min s.cCount s.pCount

/-- The tickets whose enqueue has taken effect end here. -/
def QueueState.enqueued (s : QueueState τ α capacity) : Nat :=
  min s.pCount (s.cCount + capacity)

/-- The values passed for the tickets after `low` up to `high`, oldest first. -/
def passedBetween (passed : Nat → Option α) (low high : Nat) : List α :=
  (List.range' (low + 1) (high - low)).filterMap passed

def QueueState.content (s : QueueState τ α capacity) : LfQueue α capacity where
  values := passedBetween s.passed s.dequeued s.enqueued
  fits := by
    refine (List.length_filterMap_le _ _).trans ?_
    rw [List.length_range', QueueState.dequeued, QueueState.enqueued]
    omega

/-- What a thread stands for. -/
def QueueState.statusOf (s : QueueState τ α capacity) :
    QueuePc α → CallStatus (QueueOp α) (Option α)
  | .idle => .idle
  | .enqueueSpin ticket value | .enqueueStore ticket value | .enqueuePublish ticket value =>
    if ticket ≤ s.cCount + capacity then .done none else .called (.enqueue value)
  | .dequeueSpin ticket | .dequeueRead ticket | .dequeueRelease ticket _ =>
    match s.passed ticket with
    | some value => .done (some value)
    | none => .called .dequeue

def QueueState.object (s : QueueState τ α capacity) :
    ObjectState (LfQueue α capacity) τ (QueueOp α) (Option α) where
  content := s.content
  status θ := s.statusOf (s.pc θ)

section Window

variable {passed passed' : Nat → Option α} {low high : Nat} {value : α}

theorem passedBetween_self : passedBetween passed low low = [] := by
  simp [passedBetween]

theorem passedBetween_push (ordered : low ≤ high) (next : passed (high + 1) = some value) :
    passedBetween passed low (high + 1) = passedBetween passed low high ++ [value] := by
  have size : high + 1 - low = high - low + 1 := by omega
  have last : low + 1 + (high - low) = high + 1 := by omega
  simp only [passedBetween, size, List.range'_1_concat, List.filterMap_append, last,
    List.filterMap_cons, next, List.filterMap_nil]

theorem passedBetween_pop (ordered : low < high) (first : passed (low + 1) = some value) :
    passedBetween passed low high = value :: passedBetween passed (low + 1) high := by
  have size : high - low = high - (low + 1) + 1 := by omega
  simp only [passedBetween, size, List.range'_succ, List.filterMap_cons, first]

theorem passedBetween_congr (same : ∀ t, low < t → t ≤ high → passed' t = passed t) :
    passedBetween passed' low high = passedBetween passed low high := by
  apply List.filterMap_congr
  intro t member
  rw [List.mem_range'_1] at member
  exact same t (by omega) (by omega)

end Window

variable [NeZero capacity]

/-- Who has claimed what, for any capacity. -/
structure ClaimsOk (s : QueueState τ α capacity) : Prop where
  producers : ∀ t, capacity ≤ t → t ≤ s.pCount →
    t ∈ s.stored ∨ ∃ θ v, (s.pc θ).producing = some (t, v)
  consumers : ∀ t, capacity ≤ t → t ≤ s.cCount →
    t ∈ s.taken ∨ ∃ θ, (s.pc θ).consuming = some t
  passed : ∀ t, (s.passed t).isSome ↔ capacity ≤ t ∧ t ≤ s.pCount
  released : ∀ i, s.cCounts i ≤ s.cCount + capacity
  stored : ∀ t ∈ s.stored, t ≤ s.cCount + capacity

namespace ClaimsOk

theorem initial (values : Fin capacity → α) :
    ClaimsOk (QueueState.initial values : QueueState τ α capacity) where
  producers t low high := by
    simp only [QueueState.initial] at high
    have positive := Nat.pos_of_neZero capacity
    omega
  consumers t low high := by
    simp only [QueueState.initial] at high
    have positive := Nat.pos_of_neZero capacity
    omega
  passed t := by
    have positive := Nat.pos_of_neZero capacity
    simp only [QueueState.initial, Option.isSome_none, Bool.false_eq_true, false_iff]
    omega
  released i := by
    have inside := i.isLt
    have small := Nat.mod_le (i.val + capacity) (2 ^ 32)
    simp only [QueueState.initial]
    omega
  stored _ member := absurd member List.not_mem_nil

variable [DecidableEq τ] {s t : QueueState τ α capacity}

omit [NeZero capacity] in
/-- A step inside a call. -/
theorem moved (ok : ClaimsOk s) {θ : τ} {pc : QueuePc α}
    (producing : pc.producing = (s.pc θ).producing) (consuming : pc.consuming = (s.pc θ).consuming)
    (values : Fin capacity → α) :
    ClaimsOk { s with values, pc := Function.update s.pc θ pc } where
  producers ticket low high := by
    apply (ok.producers ticket low high).imp_right
    apply producer_update
    intro v held
    rw [producing]
    exact held
  consumers ticket low high := by
    apply (ok.consumers ticket low high).imp_right
    apply consumer_update
    intro held
    rw [consuming]
    exact held
  passed := ok.passed
  released := ok.released
  stored := ok.stored

theorem claimProducer (ok : ClaimsOk s) (queue : QueueOk s) {θ : τ} {value : α}
    (idle : s.pc θ = .idle) :
    ClaimsOk { s with
      pCount := s.pCount + 1
      pc := Function.update s.pc θ (.enqueueSpin (s.pCount + 1) value)
      passed := Function.update s.passed (s.pCount + 1) (some value) } := by
  constructor
  · intro ticket low high
    rcases Nat.lt_or_ge s.pCount ticket with new | old
    · obtain rfl : ticket = s.pCount + 1 := Nat.le_antisymm high new
      exact .inr ⟨θ, value, by simp [QueuePc.producing]⟩
    · apply (ok.producers ticket low old).imp_right
      apply producer_update
      intro v held
      rw [idle] at held
      cases held
  · intro ticket low high
    apply (ok.consumers ticket low high).imp_right
    apply consumer_update
    intro held
    rw [idle] at held
    cases held
  · intro ticket
    have start := queue.pStart
    dsimp only
    by_cases new : ticket = s.pCount + 1
    · subst new
      simp only [Function.update_self, Option.isSome_some, true_iff]
      omega
    · rw [Function.update_of_ne new, ok.passed]
      omega
  · exact ok.released
  · exact ok.stored

omit [NeZero capacity] in
theorem claimConsumer (ok : ClaimsOk s) {θ : τ} (idle : s.pc θ = .idle) :
    ClaimsOk { s with
      cCount := s.cCount + 1
      pc := Function.update s.pc θ (.dequeueSpin (s.cCount + 1)) } := by
  constructor
  · intro ticket low high
    apply (ok.producers ticket low high).imp_right
    apply producer_update
    intro v held
    rw [idle] at held
    cases held
  · intro ticket low high
    rcases Nat.lt_or_ge s.cCount ticket with new | old
    · obtain rfl : ticket = s.cCount + 1 := Nat.le_antisymm high new
      exact .inr ⟨θ, by simp [QueuePc.consuming]⟩
    · apply (ok.consumers ticket low old).imp_right
      apply consumer_update
      intro held
      rw [idle] at held
      cases held
  · exact ok.passed
  · intro i
    have before := ok.released i
    dsimp only
    omega
  · intro ticket member
    have before := ok.stored ticket member
    dsimp only
    omega

theorem enqueuePublish (ok : ClaimsOk s) (queue : QueueOk s) {θ : τ} {ticket : Nat} {value : α}
    (here : s.pc θ = .enqueuePublish ticket value) :
    ClaimsOk { s with
      pCounts := Function.update s.pCounts (slot capacity ticket) ticket
      pc := Function.update s.pc θ .idle
      stored := ticket :: s.stored } := by
  constructor
  · intro other low high
    rcases ok.producers other low high with stored | ⟨η, v, held⟩
    · exact .inl (List.mem_cons_of_mem _ stored)
    · by_cases same : η = θ
      · subst η
        rw [here] at held
        cases held
        exact .inl List.mem_cons_self
      · exact .inr ⟨η, v, by simpa [Function.update_of_ne same] using held⟩
  · intro other low high
    apply (ok.consumers other low high).imp_right
    apply consumer_update
    intro held
    rw [here] at held
    cases held
  · exact ok.passed
  · exact ok.released
  · intro other member
    rcases List.mem_cons.mp member with rfl | old
    · have inside : (s.pc θ).filling = some other := by rw [here]; rfl
      rw [← (queue.threads θ).filling other inside]
      exact ok.released _
    · exact ok.stored other old

theorem dequeueRelease (ok : ClaimsOk s) (queue : QueueOk s) {θ : τ} {ticket : Nat} {value : α}
    (here : s.pc θ = .dequeueRelease ticket value) :
    ClaimsOk { s with
      cCounts := Function.update s.cCounts (slot capacity ticket) ((ticket + capacity) % 2 ^ 64)
      pc := Function.update s.pc θ .idle
      returned := (ticket, value) :: s.returned } := by
  have holds : (s.pc θ).consuming = some ticket := by rw [here]; rfl
  have bound := ((queue.threads θ).consumer ticket holds).2.1
  constructor
  · intro other low high
    apply (ok.producers other low high).imp_right
    apply producer_update
    intro v held
    rw [here] at held
    cases held
  · intro other low high
    rcases ok.consumers other low high with taken | ⟨η, held⟩
    · exact .inl (List.mem_cons_of_mem _ taken)
    · by_cases same : η = θ
      · subst η
        cases holds.symm.trans held
        exact .inl List.mem_cons_self
      · exact .inr ⟨η, by simpa [Function.update_of_ne same] using held⟩
  · exact ok.passed
  · intro i
    dsimp only
    by_cases same : i = slot capacity ticket
    · subst same
      rw [Function.update_self]
      have small := Nat.mod_le (ticket + capacity) (2 ^ 64)
      omega
    · rw [Function.update_of_ne same]
      exact ok.released i
  · exact ok.stored

theorem next (ok : ClaimsOk s) (queue : QueueOk s) {e : QueueEvent τ α}
    (step : queueNext s e = some t) : ClaimsOk t := by
  cases QueueStep.of_next step with
  | claimProducer idle => exact ok.claimProducer queue idle
  | claimConsumer idle => exact ok.claimConsumer idle
  | enqueueWait | dequeueWait => exact ok
  | enqueueSpin here => exact ok.moved (by rw [here]; rfl) (by rw [here]; rfl) s.values
  | enqueueStore here => exact ok.moved (by rw [here]; rfl) (by rw [here]; rfl) _
  | enqueuePublish here => exact ok.enqueuePublish queue here
  | dequeueSpin here => exact ok.moved (by rw [here]; rfl) (by rw [here]; rfl) s.values
  | dequeueRead here => exact ok.moved (by rw [here]; rfl) (by rw [here]; rfl) s.values
  | dequeueRelease here => exact ok.dequeueRelease queue here

end ClaimsOk

section Status

variable {s t : QueueState τ α capacity} {pc : QueuePc α}

omit [NeZero capacity] in
theorem statusOf_producing {ticket : Nat} {value : α}
    (holds : pc.producing = some (ticket, value)) :
    s.statusOf pc =
      if ticket ≤ s.cCount + capacity then .done none else .called (.enqueue value) := by
  cases pc <;> cases holds <;> rfl

omit [NeZero capacity] in
theorem statusOf_consuming {ticket : Nat} (holds : pc.consuming = some ticket) :
    s.statusOf pc = match s.passed ticket with
      | some value => .done (some value)
      | none => .called .dequeue := by
  cases pc <;> cases holds <;> rfl

omit [NeZero capacity] in
/-- A thread stands for the same as long as its own ticket does. -/
theorem statusOf_congr
    (producer : ∀ ticket value, pc.producing = some (ticket, value) →
      (ticket ≤ t.cCount + capacity ↔ ticket ≤ s.cCount + capacity))
    (consumer : ∀ ticket, pc.consuming = some ticket → t.passed ticket = s.passed ticket) :
    t.statusOf pc = s.statusOf pc := by
  cases pc with
  | idle => rfl
  | enqueueSpin ticket value | enqueueStore ticket value | enqueuePublish ticket value =>
    rw [statusOf_producing rfl, statusOf_producing rfl]
    simp only [producer ticket value rfl]
  | dequeueSpin ticket | dequeueRead ticket | dequeueRelease ticket value =>
    rw [statusOf_consuming rfl, statusOf_consuming rfl, consumer ticket rfl]

end Status

section Follow

variable [DecidableEq τ] {s t : QueueState τ α capacity}

/-- The sequential queue, one call at a time. -/
abbrev atomicQueue (τ α : Type) [DecidableEq τ] (capacity : Nat) :
    Machine (ObjectState (LfQueue α capacity) τ (QueueOp α) (Option α))
      (ObjectEvent τ (QueueOp α)) :=
  atomicObject τ applyQueue .new

/-- The sequential queue shows what the step shows. -/
def Followed (s : QueueState τ α capacity) (e : QueueEvent τ α) (t : QueueState τ α capacity) :
    Prop :=
  (atomicQueue τ α capacity).Shows objectLabel s.object (queueLabel s e) t.object

omit [NeZero capacity] [DecidableEq τ] in
theorem object_eq {content : LfQueue α capacity} {status : τ → CallStatus (QueueOp α) (Option α)}
    (values : t.content.values = content.values) (each : ∀ θ, t.statusOf (t.pc θ) = status θ) :
    t.object = ⟨content, status⟩ := by
  rw [QueueState.object, LfQueue.ext values]
  simp only [each]

omit [NeZero capacity] in
/-- A step inside a call shows nothing and performs nothing. -/
theorem followed_inside {e : QueueEvent τ α} (label : queueLabel s e = [])
    (counts : t.pCount = s.pCount ∧ t.cCount = s.cCount ∧ t.passed = s.passed)
    (each : ∀ θ, s.statusOf (t.pc θ) = s.statusOf (s.pc θ)) : Followed s e t := by
  obtain ⟨pCount, cCount, passed⟩ := counts
  have same : t.object = s.object := by
    apply object_eq
    · simp only [QueueState.content, QueueState.dequeued, QueueState.enqueued, pCount, cCount,
        passed]
    · intro θ
      rw [statusOf_congr (s := s) (fun _ _ _ => by rw [cCount]) (fun _ _ => by rw [passed])]
      exact each θ
  rw [Followed, label, same]
  exact .refl _

omit [NeZero capacity] in
theorem statusOf_update {θ : τ} {pc : QueuePc α} (same : s.statusOf pc = s.statusOf (s.pc θ))
    (η : τ) : s.statusOf (Function.update s.pc θ pc η) = s.statusOf (s.pc η) := by
  by_cases here : η = θ
  · subst η
    rw [Function.update_self, same]
  · rw [Function.update_of_ne here]

omit [NeZero capacity] in
/-- A step that ends a call. -/
theorem followed_return {θ : τ} {e : QueueEvent τ α} {result : Option α}
    (label : queueLabel s e = [.ret θ result])
    (counts : t.pCount = s.pCount ∧ t.cCount = s.cCount ∧ t.passed = s.passed)
    (pcs : t.pc = Function.update s.pc θ .idle) (done : s.statusOf (s.pc θ) = .done result) :
    Followed s e t := by
  obtain ⟨pCount, cCount, passed⟩ := counts
  have after : t.object = ⟨s.content, Function.update s.object.status θ .idle⟩ := by
    apply object_eq
    · simp only [QueueState.content, QueueState.dequeued, QueueState.enqueued, pCount, cCount,
        passed]
    · intro η
      rw [statusOf_congr (s := s) (fun _ _ _ => by rw [cCount]) (fun _ _ => by rw [passed]), pcs]
      by_cases here : η = θ
      · subst η
        rw [Function.update_self, Function.update_self]
        rfl
      · rw [Function.update_of_ne here, Function.update_of_ne here]
        rfl
  rw [Followed, label, after]
  exact shows_ret (.refl s.object) done

/-- The state after a claim of `p_count`. -/
def QueueState.producerClaim (s : QueueState τ α capacity) (θ : τ) (value : α) :
    QueueState τ α capacity :=
  { s with
    pCount := s.pCount + 1
    pc := Function.update s.pc θ (.enqueueSpin (s.pCount + 1) value)
    passed := Function.update s.passed (s.pCount + 1) (some value) }

/-- The state after a claim of `c_count`. -/
def QueueState.consumerClaim (s : QueueState τ α capacity) (θ : τ) : QueueState τ α capacity :=
  { s with
    cCount := s.cCount + 1
    pc := Function.update s.pc θ (.dequeueSpin (s.cCount + 1)) }

section Claims

variable {θ η : τ} {value : α}

omit [NeZero capacity] in
theorem producerClaim_mine : (s.producerClaim θ value).object.status θ =
    if s.pCount + 1 ≤ s.cCount + capacity then .done none else .called (.enqueue value) := by
  simp only [QueueState.object, QueueState.producerClaim, Function.update_self]
  exact statusOf_producing rfl

omit [NeZero capacity] in
theorem producerClaim_other (other : η ≠ θ)
    (elsewhere : (s.pc η).consuming ≠ some (s.pCount + 1)) :
    (s.producerClaim θ value).object.status η = s.object.status η := by
  have pc : (s.producerClaim θ value).pc η = s.pc η := Function.update_of_ne other _ _
  simp only [QueueState.object, pc]
  refine statusOf_congr (fun _ _ _ => Iff.rfl) fun ticket holds => ?_
  refine Function.update_of_ne (fun same => ?_) _ _
  exact elsewhere (same ▸ holds)

omit [NeZero capacity] in
theorem producerClaim_between {low high : Nat} (inside : high ≤ s.pCount) :
    passedBetween (s.producerClaim θ value).passed low high = passedBetween s.passed low high :=
  passedBetween_congr fun ticket _ below => Function.update_of_ne (by omega) _ _

omit [NeZero capacity] in
theorem shows_claim (op : QueueOp α) (idle : s.pc θ = .idle) :
    (atomicQueue τ α capacity).Shows objectLabel s.object [.call θ op]
      ⟨s.content, Function.update s.object.status θ (.called op)⟩ := by
  have outside : s.object.status θ = .idle := by
    simp only [QueueState.object, idle]
    rfl
  have start : (atomicQueue τ α capacity).Shows objectLabel s.object [] s.object := .refl _
  exact shows_call start op outside

/-- A claim on a full queue only calls. -/
theorem followed_producer_full (ok : QueueOk s) (idle : s.pc θ = .idle)
    (full : s.cCount + capacity < s.pCount + 1) :
    Followed s (.enqueue θ value) (s.producerClaim θ value) := by
  have called := shows_claim (.enqueue value) idle
  have after : (s.producerClaim θ value).object =
      ⟨s.content, Function.update s.object.status θ (.called (.enqueue value))⟩ := by
    apply object_eq
    · have low : (s.producerClaim θ value).dequeued = s.dequeued := by
        simp only [QueueState.dequeued, QueueState.producerClaim]
        omega
      have high : (s.producerClaim θ value).enqueued = s.enqueued := by
        simp only [QueueState.enqueued, QueueState.producerClaim]
        omega
      simp only [QueueState.content, low, high]
      exact producerClaim_between (Nat.min_le_left _ _)
    · intro η
      by_cases here : η = θ
      · subst η
        rw [Function.update_self]
        exact producerClaim_mine.trans (if_neg (Nat.not_le_of_lt full))
      · rw [Function.update_of_ne here]
        refine producerClaim_other here fun holds => ?_
        have bound := ((ok.threads η).consumer _ holds).2.1
        omega
  rw [Followed, after]
  exact called

/-- A claim with room in the queue performs the enqueue. -/
theorem shows_enqueue (value : α) (idle : s.pc θ = .idle)
    (room : s.pCount + 1 ≤ s.cCount + capacity) :
    ∃ q : LfQueue α capacity, q.values = s.content.values ++ [value] ∧
      (atomicQueue τ α capacity).Shows objectLabel s.object [.call θ (.enqueue value)]
        ⟨q, Function.update s.object.status θ (.done none)⟩ := by
  have short : s.content.values.length < capacity := by
    refine Nat.lt_of_le_of_lt (List.length_filterMap_le _ _) ?_
    rw [List.length_range', QueueState.dequeued, QueueState.enqueued]
    have positive := Nat.pos_of_neZero capacity
    omega
  obtain ⟨q, entered, appended⟩ := LfQueue.enqueue_isSome value short
  have called := shows_claim (.enqueue value) idle
  have performed := shows_perform called (Function.update_self _ _ _)
    (show applyQueue (.enqueue value) s.content = some (none, q) by
      rw [applyQueue, entered, Option.map_some])
  rw [Function.update_idem] at performed
  exact ⟨q, appended, performed⟩

theorem followed_producer_room (ok : QueueOk s) (idle : s.pc θ = .idle)
    (room : s.pCount + 1 ≤ s.cCount + capacity) (ahead : s.cCount ≤ s.pCount) :
    Followed s (.enqueue θ value) (s.producerClaim θ value) := by
  obtain ⟨q, appended, performed⟩ := shows_enqueue value idle room
  have after : (s.producerClaim θ value).object =
      ⟨q, Function.update s.object.status θ (.done none)⟩ := by
    apply object_eq
    · have low : (s.producerClaim θ value).dequeued = s.cCount := by
        simp only [QueueState.dequeued, QueueState.producerClaim]
        omega
      have high : (s.producerClaim θ value).enqueued = s.pCount + 1 := by
        simp only [QueueState.enqueued, QueueState.producerClaim]
        omega
      have low' : s.dequeued = s.cCount := Nat.min_eq_left ahead
      have high' : s.enqueued = s.pCount := by
        simp only [QueueState.enqueued]
        omega
      rw [appended]
      simp only [QueueState.content, low, high, low', high']
      have now : (s.producerClaim θ value).passed (s.pCount + 1) = some value :=
        Function.update_self _ _ _
      rw [passedBetween_push ahead now, producerClaim_between (Nat.le_refl _)]
    · intro η
      by_cases here : η = θ
      · subst η
        rw [Function.update_self]
        exact producerClaim_mine.trans (if_pos room)
      · rw [Function.update_of_ne here]
        refine producerClaim_other here fun holds => ?_
        have bound := ((ok.threads η).consumer _ holds).2.1
        omega
  rw [Followed, after]
  exact performed

/-- A claim of the ticket a dequeue waits for performs both calls. -/
theorem followed_producer_waiting (ok : QueueOk s) (claims : ClaimsOk s) (idle : s.pc θ = .idle)
    (behind : s.pCount < s.cCount) :
    Followed s (.enqueue θ value) (s.producerClaim θ value) := by
  obtain ⟨q, appended, performed⟩ := shows_enqueue value idle (by omega)
  have start := ok.pStart
  obtain ⟨η, holds⟩ : ∃ η, (s.pc η).consuming = some (s.pCount + 1) := by
    rcases claims.consumers (s.pCount + 1) start behind with taken | held
    · have stored := (ok.stored _ (ok.mem_stored_of_taken taken).1).2
      omega
    · exact held
  have other : η ≠ θ := by
    rintro rfl
    rw [idle] at holds
    cases holds
  have unclaimed : s.passed (s.pCount + 1) = none := by
    have absent : ¬ (s.passed (s.pCount + 1)).isSome := by
      rw [claims.passed]
      omega
    simpa using absent
  have empty : s.content.values = [] := by
    have low : s.dequeued = s.pCount := Nat.min_eq_right behind.le
    have high : s.enqueued = s.pCount := by
      simp only [QueueState.enqueued]
      omega
    simp only [QueueState.content, low, high, passedBetween_self]
  have waits : Function.update s.object.status θ (.done none) η = .called .dequeue := by
    rw [Function.update_of_ne other]
    simp only [QueueState.object]
    rw [statusOf_consuming holds, unclaimed]
  have popped : q.dequeue = some (value, LfQueue.new) := by
    rw [LfQueue.dequeue_eq_some, appended, empty]
    rfl
  have taken := shows_perform performed waits
    (show applyQueue .dequeue q = some (some value, LfQueue.new) by
      rw [applyQueue, popped, Option.map_some])
  have after : (s.producerClaim θ value).object = ⟨LfQueue.new,
      Function.update (Function.update s.object.status θ (.done none)) η
        (.done (some value))⟩ := by
    apply object_eq
    · have low : (s.producerClaim θ value).dequeued = s.pCount + 1 := by
        simp only [QueueState.dequeued, QueueState.producerClaim]
        omega
      have high : (s.producerClaim θ value).enqueued = s.pCount + 1 := by
        simp only [QueueState.enqueued, QueueState.producerClaim]
        omega
      simp only [QueueState.content, low, high, passedBetween_self]
      rfl
    · intro ζ
      by_cases theirs : ζ = η
      · subst ζ
        have pc : (s.producerClaim θ value).pc η = s.pc η := Function.update_of_ne other _ _
        have now : (s.producerClaim θ value).passed (s.pCount + 1) = some value :=
          Function.update_self _ _ _
        rw [Function.update_self, pc, statusOf_consuming holds, now]
      · rw [Function.update_of_ne theirs]
        by_cases here : ζ = θ
        · subst ζ
          rw [Function.update_self]
          exact producerClaim_mine.trans (if_pos (by omega))
        · rw [Function.update_of_ne here]
          exact producerClaim_other here fun holds' =>
            (ok.apart η ζ (Ne.symm theirs)).consumers _ holds holds'
  rw [Followed, after]
  exact taken

omit [NeZero capacity] in
theorem consumerClaim_mine : (s.consumerClaim θ).object.status θ =
    match s.passed (s.cCount + 1) with
      | some value => .done (some value)
      | none => .called .dequeue := by
  simp only [QueueState.object, QueueState.consumerClaim, Function.update_self]
  exact statusOf_consuming rfl

omit [NeZero capacity] in
theorem consumerClaim_other (other : η ≠ θ)
    (elsewhere : ∀ v, (s.pc η).producing ≠ some (s.cCount + 1 + capacity, v)) :
    (s.consumerClaim θ).object.status η = s.object.status η := by
  have pc : (s.consumerClaim θ).pc η = s.pc η := Function.update_of_ne other _ _
  simp only [QueueState.object, pc]
  refine statusOf_congr (fun ticket v holds => ?_) fun _ _ => rfl
  have different : ticket ≠ s.cCount + 1 + capacity := by
    rintro rfl
    exact elsewhere v holds
  simp only [QueueState.consumerClaim]
  omega

/-- A claim on an empty queue only calls. -/
theorem followed_consumer_empty (ok : QueueOk s) (claims : ClaimsOk s) (idle : s.pc θ = .idle)
    (empty : s.pCount < s.cCount + 1) : Followed s (.dequeue θ) (s.consumerClaim θ) := by
  have called := shows_claim .dequeue idle
  have unclaimed : s.passed (s.cCount + 1) = none := by
    have absent : ¬ (s.passed (s.cCount + 1)).isSome := by
      rw [claims.passed]
      omega
    simpa using absent
  have after : (s.consumerClaim θ).object =
      ⟨s.content, Function.update s.object.status θ (.called .dequeue)⟩ := by
    apply object_eq
    · have low : (s.consumerClaim θ).dequeued = s.dequeued := by
        simp only [QueueState.dequeued, QueueState.consumerClaim]
        omega
      have high : (s.consumerClaim θ).enqueued = s.enqueued := by
        simp only [QueueState.enqueued, QueueState.consumerClaim]
        omega
      simp only [QueueState.content, low, high]
      rfl
    · intro η
      by_cases here : η = θ
      · subst η
        rw [Function.update_self]
        refine consumerClaim_mine.trans ?_
        rw [unclaimed]
      · rw [Function.update_of_ne here]
        refine consumerClaim_other here fun v holds => ?_
        have bound := ((ok.threads η).producer _ v holds).2.1
        omega
  rw [Followed, after]
  exact called

omit [NeZero capacity] in
/-- A claim with a value in the queue performs the dequeue. -/
theorem shows_dequeue {q : LfQueue α capacity} (idle : s.pc θ = .idle)
    (first : s.content.values = value :: q.values) :
    (atomicQueue τ α capacity).Shows objectLabel s.object [.call θ .dequeue]
      ⟨q, Function.update s.object.status θ (.done (some value))⟩ := by
  have called := shows_claim .dequeue idle
  have popped : s.content.dequeue = some (value, q) := LfQueue.dequeue_eq_some.mpr first
  have performed := shows_perform called (Function.update_self _ _ _)
    (show applyQueue .dequeue s.content = some (some value, q) by
      rw [applyQueue, popped, Option.map_some])
  rwa [Function.update_idem] at performed

theorem followed_consumer (ok : QueueOk s) (claims : ClaimsOk s) (idle : s.pc θ = .idle)
    (present : s.cCount < s.pCount) : Followed s (.dequeue θ) (s.consumerClaim θ) := by
  have start := ok.cStart
  obtain ⟨value, passed⟩ : ∃ value, s.passed (s.cCount + 1) = some value := by
    apply Option.isSome_iff_exists.mp
    rw [claims.passed]
    omega
  have low : s.dequeued = s.cCount := Nat.min_eq_left present.le
  have low' : (s.consumerClaim θ).dequeued = s.cCount + 1 := by
    simp only [QueueState.dequeued, QueueState.consumerClaim]
    omega
  have positive := Nat.pos_of_neZero capacity
  have ahead : s.cCount < s.enqueued := by
    simp only [QueueState.enqueued]
    omega
  have first : s.content.values = value :: passedBetween s.passed (s.cCount + 1) s.enqueued := by
    simp only [QueueState.content, low]
    exact passedBetween_pop ahead passed
  have mine : (s.consumerClaim θ).object.status θ = .done (some value) := by
    refine consumerClaim_mine.trans ?_
    rw [passed]
  have fits : (passedBetween s.passed (s.cCount + 1) s.enqueued).length ≤ capacity := by
    have bound := s.content.fits
    rw [first, List.length_cons] at bound
    omega
  have performed := shows_dequeue (q := ⟨_, fits⟩) idle first
  by_cases waiting : s.cCount + 1 + capacity ≤ s.pCount
  · -- The slot this dequeue frees lets the first waiting enqueue in.
    obtain ⟨η, v, holds⟩ : ∃ η v, (s.pc η).producing = some (s.cCount + 1 + capacity, v) := by
      rcases claims.producers (s.cCount + 1 + capacity) (by omega) waiting with stored | held
      · have bound := claims.stored _ stored
        omega
      · exact held
    have other : η ≠ θ := by
      rintro rfl
      rw [idle] at holds
      cases holds
    have waits : Function.update s.object.status θ (.done (some value)) η =
        .called (.enqueue v) := by
      rw [Function.update_of_ne other]
      simp only [QueueState.object]
      rw [statusOf_producing holds, if_neg (by omega)]
    have short : (passedBetween s.passed (s.cCount + 1) s.enqueued).length < capacity := by
      have bound := s.content.fits
      rw [first, List.length_cons] at bound
      omega
    obtain ⟨q, entered, appended⟩ := LfQueue.enqueue_isSome
      (q := ⟨passedBetween s.passed (s.cCount + 1) s.enqueued, fits⟩) v short
    have both := shows_perform performed waits
      (show applyQueue (.enqueue v) _ = some (none, q) by
        rw [applyQueue, entered, Option.map_some])
    have own := ((ok.threads η).producer _ v holds).2.2.2
    have after : (s.consumerClaim θ).object = ⟨q, Function.update
        (Function.update s.object.status θ (.done (some value))) η (.done none)⟩ := by
      apply object_eq
      · have high : s.enqueued = s.cCount + capacity := by
          simp only [QueueState.enqueued]
          omega
        have high' : (s.consumerClaim θ).enqueued = s.cCount + capacity + 1 := by
          simp only [QueueState.enqueued, QueueState.consumerClaim]
          omega
        have last : (s.consumerClaim θ).passed (s.cCount + capacity + 1) = some v := by
          have same : s.cCount + capacity + 1 = s.cCount + 1 + capacity := by omega
          rw [same]
          exact own
        rw [appended]
        simp only [QueueState.content, low', high', high]
        exact passedBetween_push (by omega) last
      · intro ζ
        by_cases theirs : ζ = η
        · subst ζ
          have pc : (s.consumerClaim θ).pc η = s.pc η := Function.update_of_ne other _ _
          rw [Function.update_self, pc, statusOf_producing holds]
          exact if_pos (Nat.le_refl _)
        · rw [Function.update_of_ne theirs]
          by_cases here : ζ = θ
          · subst ζ
            rw [Function.update_self]
            exact mine
          · rw [Function.update_of_ne here]
            exact consumerClaim_other here fun w holds' =>
              (ok.apart η ζ (Ne.symm theirs)).producers _ v w holds holds'
    rw [Followed, after]
    exact both
  · have after : (s.consumerClaim θ).object =
        ⟨⟨_, fits⟩, Function.update s.object.status θ (.done (some value))⟩ := by
      apply object_eq
      · have high : (s.consumerClaim θ).enqueued = s.enqueued := by
          simp only [QueueState.enqueued, QueueState.consumerClaim]
          omega
        simp only [QueueState.content, low', high]
        rfl
      · intro ζ
        by_cases here : ζ = θ
        · subst ζ
          rw [Function.update_self]
          exact mine
        · rw [Function.update_of_ne here]
          refine consumerClaim_other here fun w holds => ?_
          have bound := ((ok.threads ζ).producer _ w holds).2.1
          omega
    rw [Followed, after]
    exact performed

end Claims

/-- Whatever the queue does is followed by the sequential queue. -/
theorem followed_next (ok : QueueOk s) (claims : ClaimsOk s) {e : QueueEvent τ α}
    (step : queueNext s e = some t) : Followed s e t := by
  have kept : s.pCount = s.pCount ∧ s.cCount = s.cCount ∧ s.passed = s.passed := ⟨rfl, rfl, rfl⟩
  cases QueueStep.of_next step with
  | claimProducer idle =>
    rcases Nat.lt_or_ge s.pCount s.cCount with behind | ahead
    · exact followed_producer_waiting ok claims idle behind
    · rcases Nat.lt_or_ge (s.cCount + capacity) (s.pCount + 1) with full | room
      · exact followed_producer_full ok idle full
      · exact followed_producer_room ok idle room ahead
  | claimConsumer idle =>
    rcases Nat.lt_or_ge s.cCount s.pCount with present | empty
    · exact followed_consumer ok claims idle present
    · exact followed_consumer_empty ok claims idle (Nat.lt_succ_of_le empty)
  | enqueueWait here | dequeueWait here =>
    exact followed_inside (by simp [queueLabel, here]) kept fun _ => rfl
  | enqueueSpin here | enqueueStore here | dequeueSpin here | dequeueRead here =>
    exact followed_inside (by simp [queueLabel, here]) kept
      (statusOf_update (by rw [here]; rfl))
  | enqueuePublish here =>
    rename_i θ ticket value
    refine followed_return (by simp [queueLabel, here]; rfl) kept rfl ?_
    have inside : (s.pc θ).filling = some ticket := by rw [here]; rfl
    have turn := (ok.threads θ).filling ticket inside
    have released := claims.released (slot capacity ticket)
    rw [turn] at released
    rw [here, statusOf_producing rfl, if_pos released]
  | dequeueRelease here =>
    rename_i θ ticket value
    refine followed_return (by simp [queueLabel, here]; rfl) kept rfl ?_
    rw [here, statusOf_consuming rfl, (ok.threads θ).read ticket value here]

end Follow

section Rest

variable {s : QueueState τ α capacity}

/-- Outside of all calls the counters are as far apart as the content is long. -/
theorem counts_at_rest (ok : QueueOk s) (claims : ClaimsOk s) (rest : ∀ θ, s.pc θ = .idle) :
    s.cCount ≤ s.pCount ∧ s.pCount ≤ s.cCount + capacity := by
  have pStart := ok.pStart
  have cStart := ok.cStart
  constructor
  · by_contra behind
    rcases claims.consumers s.cCount (by omega) (Nat.le_refl _) with taken | ⟨θ, holds⟩
    · have stored := (ok.stored _ (ok.mem_stored_of_taken taken).1).2
      exact behind stored
    · rw [rest θ] at holds
      cases holds
  · by_contra beyond
    rcases claims.producers s.pCount (by omega) (Nat.le_refl _) with stored | ⟨θ, v, holds⟩
    · exact beyond (claims.stored _ stored)
    · rw [rest θ] at holds
      cases holds

omit [NeZero capacity] in
theorem length_passedBetween (claims : ClaimsOk s) {low high : Nat} (start : capacity ≤ low + 1)
    (ordered : low ≤ high) (inside : high ≤ s.pCount) :
    (passedBetween s.passed low high).length = high - low := by
  induction high, ordered using Nat.le_induction with
  | base => simp [passedBetween_self]
  | succ n ordered ih =>
    obtain ⟨value, passed⟩ : ∃ value, s.passed (n + 1) = some value := by
      apply Option.isSome_iff_exists.mp
      rw [claims.passed]
      omega
    rw [passedBetween_push ordered passed, List.length_append, ih (by omega)]
    simp only [List.length_singleton]
    omega

theorem content_at_rest (ok : QueueOk s) (claims : ClaimsOk s) (rest : ∀ θ, s.pc θ = .idle) :
    s.content.getSize = s.pCount - s.cCount := by
  obtain ⟨ordered, fits⟩ := counts_at_rest ok claims rest
  have low : s.dequeued = s.cCount := Nat.min_eq_left ordered
  have high : s.enqueued = s.pCount := Nat.min_eq_left fits
  simp only [LfQueue.getSize, QueueState.content, low, high]
  exact length_passedBetween claims ok.cStart ordered (Nat.le_refl _)

end Rest

end BurstBuffer.Source
