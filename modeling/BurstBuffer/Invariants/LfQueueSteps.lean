import BurstBuffer.Source.LfQueueSteps

/-!
# Who owns a slot of an lfqueue

A thread past its spin owns the slot of its ticket: a producer while `c_counts`
holds the ticket and `p_counts` does not, a consumer while both do. The value of
a completed enqueue stays in its slot until the dequeue of the same ticket has
returned it.
-/
namespace BurstBuffer.Source

open Library

variable {τ α : Type}

namespace QueuePc

/-- The ticket of a call of enqueue. -/
def producing : QueuePc α → Option (Nat × α)
  | .enqueueSpin ticket value => some (ticket, value)
  | .enqueueStore ticket value => some (ticket, value)
  | .enqueuePublish ticket value => some (ticket, value)
  | _ => none

/-- The ticket of a call of dequeue. -/
def consuming : QueuePc α → Option Nat
  | .dequeueSpin ticket => some ticket
  | .dequeueRead ticket => some ticket
  | .dequeueRelease ticket _ => some ticket
  | _ => none

/-- The ticket of a producer between its spin and its last store. -/
def filling : QueuePc α → Option Nat
  | .enqueueStore ticket _ => some ticket
  | .enqueuePublish ticket _ => some ticket
  | _ => none

/-- The ticket of a consumer between its spin and its last store. -/
def emptying : QueuePc α → Option Nat
  | .dequeueRead ticket => some ticket
  | .dequeueRelease ticket _ => some ticket
  | _ => none

theorem producing_of_filling {pc : QueuePc α} {ticket : Nat} (inside : pc.filling = some ticket) :
    ∃ value, pc.producing = some (ticket, value) := by
  cases pc <;> cases inside <;> exact ⟨_, rfl⟩

theorem consuming_of_emptying {pc : QueuePc α} {ticket : Nat}
    (inside : pc.emptying = some ticket) : pc.consuming = some ticket := by
  cases pc <;> cases inside <;> rfl

end QueuePc

variable {capacity : Nat} [NeZero capacity]

/-- The tickets whose value has been returned. -/
def QueueState.taken (s : QueueState τ α capacity) : List Nat := s.returned.map Prod.fst

/-- What the program counter of one thread says about the queue. -/
structure ThreadOk (s : QueueState τ α capacity) (pc : QueuePc α) : Prop where
  producer : ∀ t v, pc.producing = some (t, v) →
    capacity ≤ t ∧ t ≤ s.pCount ∧ t ∉ s.stored ∧ s.passed t = some v
  consumer : ∀ t, pc.consuming = some t → capacity ≤ t ∧ t ≤ s.cCount ∧ t ∉ s.taken
  filling : ∀ t, pc.filling = some t → s.cCounts (slot capacity t) = t
  filled : ∀ t v, pc = .enqueuePublish t v → s.values (slot capacity t) = v
  emptying : ∀ t, pc.emptying = some t → s.pCounts (slot capacity t) = t
  read : ∀ t v, pc = .dequeueRelease t v → s.passed t = some v

/-- Two threads hold different tickets. -/
structure Apart (pc other : QueuePc α) : Prop where
  producers : ∀ t v w, pc.producing = some (t, v) → other.producing ≠ some (t, w)
  consumers : ∀ t, pc.consuming = some t → other.consuming ≠ some t

theorem Apart.symm {pc other : QueuePc α} (apart : Apart pc other) : Apart other pc where
  producers t v w held same := apart.producers t w v same held
  consumers t held same := apart.consumers t same held

structure QueueOk (s : QueueState τ α capacity) : Prop where
  pStart : capacity ≤ s.pCount + 1
  cStart : capacity ≤ s.cCount + 1
  threads : ∀ θ, ThreadOk s (s.pc θ)
  apart : ∀ θ η, θ ≠ η → Apart (s.pc θ) (s.pc η)
  stored : ∀ t ∈ s.stored, capacity ≤ t ∧ t ≤ s.pCount
  returned : ∀ t v, (t, v) ∈ s.returned → t ∈ s.stored ∧ t ≤ s.cCount ∧ s.passed t = some v
  published : ∀ i, capacity ≤ s.pCounts i → s.pCounts i ∈ s.stored
  full : ∀ t ∈ s.stored, t ∈ s.taken ∨ s.pCounts (slot capacity t) = t ∧
    s.cCounts (slot capacity t) = t ∧ s.passed t = some (s.values (slot capacity t))
  storedOnce : s.stored.Nodup
  takenOnce : s.taken.Nodup

theorem threadOk_idle (s : QueueState τ α capacity) : ThreadOk s .idle := by
  constructor <;> intros <;> contradiction

theorem apart_idle (pc : QueuePc α) : Apart .idle pc := by
  constructor <;> intros <;> contradiction

theorem QueueOk.initial (values : Fin capacity → α) :
    QueueOk (QueueState.initial values : QueueState τ α capacity) where
  pStart := by
    have positive := Nat.pos_of_neZero capacity
    simp [QueueState.initial]
    omega
  cStart := by
    have positive := Nat.pos_of_neZero capacity
    simp [QueueState.initial]
    omega
  threads _ := threadOk_idle _
  apart _ _ _ := apart_idle _
  stored _ member := absurd member List.not_mem_nil
  returned _ _ member := absurd member List.not_mem_nil
  published i low := absurd i.isLt (Nat.not_lt_of_le low)
  full _ member := absurd member List.not_mem_nil
  storedOnce := List.nodup_nil
  takenOnce := List.nodup_nil

/-- Every step of the queue, with the conditions under which it is taken. -/
inductive QueueStep [DecidableEq τ] (s : QueueState τ α capacity) :
    QueueEvent τ α → QueueState τ α capacity → Prop
  | claimProducer {θ : τ} {value : α} (idle : s.pc θ = .idle) (bounded : s.pCount + 1 < 2 ^ 64) :
    QueueStep s (.enqueue θ value) { s with
      pCount := s.pCount + 1
      pc := Function.update s.pc θ (.enqueueSpin (s.pCount + 1) value)
      passed := Function.update s.passed (s.pCount + 1) (some value) }
  | claimConsumer {θ : τ} (idle : s.pc θ = .idle) (bounded : s.cCount + 1 < 2 ^ 64) :
    QueueStep s (.dequeue θ) { s with
      cCount := s.cCount + 1
      pc := Function.update s.pc θ (.dequeueSpin (s.cCount + 1)) }
  | enqueueWait {θ : τ} {ticket : Nat} {value : α} (here : s.pc θ = .enqueueSpin ticket value) :
    QueueStep s (.advance θ) s
  | enqueueSpin {θ : τ} {ticket : Nat} {value : α} (here : s.pc θ = .enqueueSpin ticket value)
    (turn : ticket = s.cCounts (slot capacity ticket)) :
    QueueStep s (.advance θ)
      { s with pc := Function.update s.pc θ (.enqueueStore ticket value) }
  | enqueueStore {θ : τ} {ticket : Nat} {value : α} (here : s.pc θ = .enqueueStore ticket value) :
    QueueStep s (.advance θ) { s with
      values := Function.update s.values (slot capacity ticket) value
      pc := Function.update s.pc θ (.enqueuePublish ticket value) }
  | enqueuePublish {θ : τ} {ticket : Nat} {value : α}
    (here : s.pc θ = .enqueuePublish ticket value) :
    QueueStep s (.advance θ) { s with
      pCounts := Function.update s.pCounts (slot capacity ticket) ticket
      pc := Function.update s.pc θ .idle
      stored := ticket :: s.stored }
  | dequeueWait {θ : τ} {ticket : Nat} (here : s.pc θ = .dequeueSpin ticket) :
    QueueStep s (.advance θ) s
  | dequeueSpin {θ : τ} {ticket : Nat} (here : s.pc θ = .dequeueSpin ticket)
    (turn : ticket = s.pCounts (slot capacity ticket)) :
    QueueStep s (.advance θ) { s with pc := Function.update s.pc θ (.dequeueRead ticket) }
  | dequeueRead {θ : τ} {ticket : Nat} (here : s.pc θ = .dequeueRead ticket) :
    QueueStep s (.advance θ) { s with
      pc := Function.update s.pc θ (.dequeueRelease ticket (s.values (slot capacity ticket))) }
  | dequeueRelease {θ : τ} {ticket : Nat} {value : α}
    (here : s.pc θ = .dequeueRelease ticket value) :
    QueueStep s (.advance θ) { s with
      cCounts := Function.update s.cCounts (slot capacity ticket) ((ticket + capacity) % 2 ^ 64)
      pc := Function.update s.pc θ .idle
      returned := (ticket, value) :: s.returned }

theorem QueueStep.of_next [DecidableEq τ] {s t : QueueState τ α capacity} {e : QueueEvent τ α}
    (step : queueNext s e = some t) : QueueStep s e t := by
  cases e with
  | enqueue θ value =>
    simp only [queueNext, Source.claimProducer] at step
    split at step
    case h_2 => cases step
    rename_i idle
    split at step
    case isFalse => cases step
    rename_i bounded
    cases step
    exact .claimProducer idle bounded
  | dequeue θ =>
    simp only [queueNext, Source.claimConsumer] at step
    split at step
    case h_2 => cases step
    rename_i idle
    split at step
    case isFalse => cases step
    rename_i bounded
    cases step
    exact .claimConsumer idle bounded
  | advance θ =>
    simp only [queueNext, advance] at step
    split at step
    case h_1 => cases step
    case h_2 ticket value here =>
      split at step <;> cases step
      · rename_i turn
        exact .enqueueSpin here turn
      · exact .enqueueWait here
    case h_3 ticket value here =>
      cases step
      exact .enqueueStore here
    case h_4 ticket value here =>
      cases step
      exact .enqueuePublish here
    case h_5 ticket here =>
      split at step <;> cases step
      · rename_i turn
        exact .dequeueSpin here turn
      · exact .dequeueWait here
    case h_6 ticket here =>
      cases step
      exact .dequeueRead here
    case h_7 ticket value here =>
      cases step
      exact .dequeueRelease here

namespace QueueOk

section Slots

variable {s : QueueState τ α capacity}

theorem mem_stored_of_taken (ok : QueueOk s) {ticket : Nat} (taken : ticket ∈ s.taken) :
    ticket ∈ s.stored ∧ ticket ≤ s.cCount := by
  obtain ⟨⟨_, value⟩, member, rfl⟩ := List.mem_map.mp taken
  exact ⟨(ok.returned _ value member).1, (ok.returned _ value member).2.1⟩

/-- The slot of a consumer past its spin holds the value passed for its ticket. -/
theorem full_of_emptying (ok : QueueOk s) {θ : τ} {ticket : Nat}
    (inside : (s.pc θ).emptying = some ticket) : ticket ∈ s.stored ∧
      s.cCounts (slot capacity ticket) = ticket ∧
      s.passed ticket = some (s.values (slot capacity ticket)) := by
  obtain ⟨low, _, fresh⟩ :=
    (ok.threads θ).consumer ticket (QueuePc.consuming_of_emptying inside)
  have seen := (ok.threads θ).emptying ticket inside
  have member := ok.published (slot capacity ticket) (by rw [seen]; exact low)
  rw [seen] at member
  rcases ok.full ticket member with taken | ⟨_, turn, value⟩
  · exact absurd taken fresh
  · exact ⟨member, turn, value⟩

/-- Nothing waits in the slot of a producer past its spin. -/
theorem taken_of_filling (ok : QueueOk s) {θ : τ} {ticket other : Nat}
    (inside : (s.pc θ).filling = some ticket) (member : other ∈ s.stored)
    (same : slot capacity other = slot capacity ticket) : other ∈ s.taken := by
  obtain ⟨value, holds⟩ := QueuePc.producing_of_filling inside
  rcases ok.full other member with taken | ⟨_, turn, _⟩
  · exact taken
  · rw [same, (ok.threads θ).filling ticket inside] at turn
    exact absurd (turn ▸ member) ((ok.threads θ).producer ticket value holds).2.2.1

/-- Two producers past their spins are in different slots. -/
theorem filling_unique (ok : QueueOk s) {θ η : τ} {ticket other : Nat}
    (inside : (s.pc θ).filling = some ticket) (inside' : (s.pc η).filling = some other)
    (same : slot capacity other = slot capacity ticket) : θ = η := by
  have turn := (ok.threads θ).filling ticket inside
  have turn' := (ok.threads η).filling other inside'
  have equal : ticket = other := by rw [← turn, ← same, turn']
  subst equal
  obtain ⟨value, holds⟩ := QueuePc.producing_of_filling inside
  obtain ⟨value', holds'⟩ := QueuePc.producing_of_filling inside'
  by_contra different
  exact (ok.apart θ η different).producers ticket value value' holds holds'

theorem emptying_unique (ok : QueueOk s) {θ η : τ} {ticket other : Nat}
    (inside : (s.pc θ).emptying = some ticket) (inside' : (s.pc η).emptying = some other)
    (same : slot capacity other = slot capacity ticket) : θ = η := by
  have seen := (ok.threads θ).emptying ticket inside
  have seen' := (ok.threads η).emptying other inside'
  have equal : ticket = other := by rw [← seen, ← same, seen']
  subst equal
  by_contra different
  exact (ok.apart θ η different).consumers ticket (QueuePc.consuming_of_emptying inside)
    (QueuePc.consuming_of_emptying inside')

/-- A producer and a consumer past their spins are in different slots. -/
theorem filling_apart_emptying (ok : QueueOk s) {θ η : τ} {ticket other : Nat}
    (inside : (s.pc θ).filling = some ticket) (inside' : (s.pc η).emptying = some other) :
    slot capacity other ≠ slot capacity ticket := by
  intro same
  obtain ⟨member, _⟩ := ok.full_of_emptying inside'
  have taken := ok.taken_of_filling inside member same
  exact ((ok.threads η).consumer other (QueuePc.consuming_of_emptying inside')).2.2 taken

end Slots

section Steps

variable [DecidableEq τ] {s t : QueueState τ α capacity}

theorem threads_update {θ : τ} {pc : QueuePc α} (moved : t.pc = Function.update s.pc θ pc)
    (mine : ThreadOk t pc) (others : ∀ η, η ≠ θ → ThreadOk t (s.pc η)) (η : τ) :
    ThreadOk t (t.pc η) := by
  rw [moved]
  by_cases same : η = θ
  · subst η
    rw [Function.update_self]
    exact mine
  · rw [Function.update_of_ne same]
    exact others η same

omit [NeZero capacity] in
theorem apart_update {θ : τ} {pc : QueuePc α} (moved : t.pc = Function.update s.pc θ pc)
    (before : ∀ θ η, θ ≠ η → Apart (s.pc θ) (s.pc η)) (mine : ∀ η, η ≠ θ → Apart pc (s.pc η))
    (η ζ : τ) (different : η ≠ ζ) : Apart (t.pc η) (t.pc ζ) := by
  rw [moved]
  by_cases first : η = θ <;> by_cases second : ζ = θ
  · exact absurd (first.trans second.symm) different
  · rw [first, Function.update_self, Function.update_of_ne second]
    exact mine ζ second
  · rw [second, Function.update_self, Function.update_of_ne first]
    exact (mine η first).symm
  · rw [Function.update_of_ne first, Function.update_of_ne second]
    exact before η ζ different

/-- A step of one thread that keeps its ticket and changes no shared field. -/
theorem moved (ok : QueueOk s) {θ : τ} {pc : QueuePc α}
    (producing : pc.producing = (s.pc θ).producing) (consuming : pc.consuming = (s.pc θ).consuming)
    (mine : ThreadOk { s with pc := Function.update s.pc θ pc } pc) :
    QueueOk { s with pc := Function.update s.pc θ pc } where
  pStart := ok.pStart
  cStart := ok.cStart
  threads := threads_update (s := s) rfl mine fun η _ => by
    have before := ok.threads η
    exact ⟨before.producer, before.consumer, before.filling, before.filled, before.emptying,
      before.read⟩
  apart := apart_update (s := s) rfl ok.apart fun η other => by
    have before := ok.apart θ η other.symm
    exact ⟨fun t v w held => before.producers t v w (producing ▸ held),
      fun t held => before.consumers t (consuming ▸ held)⟩
  stored := ok.stored
  returned := ok.returned
  published := ok.published
  full := ok.full
  storedOnce := ok.storedOnce
  takenOnce := ok.takenOnce

theorem claimProducer (ok : QueueOk s) (θ : τ) (value : α) :
    QueueOk { s with
      pCount := s.pCount + 1
      pc := Function.update s.pc θ (.enqueueSpin (s.pCount + 1) value)
      passed := Function.update s.passed (s.pCount + 1) (some value) } := by
  have start := ok.pStart
  have old : ∀ ticket, ticket ≤ s.pCount →
      Function.update s.passed (s.pCount + 1) (some value) ticket = s.passed ticket :=
    fun ticket before => Function.update_of_ne (by omega) _ _
  refine ⟨by dsimp only; omega, ok.cStart, ?_, ?_, fun ticket member => ?_,
    fun ticket v member => ?_,
    ok.published, fun ticket member => ?_, ok.storedOnce, ok.takenOnce⟩
  · refine threads_update (s := s) rfl ⟨?_, ?_, ?_, ?_, ?_, ?_⟩ fun η _ => ?_
    · rintro ticket v ⟨⟩
      refine ⟨start, Nat.le_refl _, fun member => ?_, Function.update_self _ _ _⟩
      have bound := (ok.stored _ member).2
      omega
    iterate 5 intros; contradiction
    · have before := ok.threads η
      refine ⟨fun ticket v held => ?_, before.consumer, before.filling, before.filled,
        before.emptying, fun ticket v held => ?_⟩
      · obtain ⟨low, bound, fresh, passed⟩ := before.producer ticket v held
        exact ⟨low, Nat.le_succ_of_le bound, fresh, (old ticket bound).trans passed⟩
      · have inside : (s.pc η).emptying = some ticket := by
          rw [held]
          rfl
        have bound := (ok.stored ticket (ok.full_of_emptying inside).1).2
        dsimp only
        rw [old ticket bound, before.read ticket v held]
  · refine apart_update (s := s) rfl ok.apart fun η other =>
      ⟨?_, (fun _ none => by cases none)⟩
    rintro ticket v w ⟨⟩ same
    have bound := ((ok.threads η).producer _ w same).2.1
    omega
  · exact ⟨(ok.stored ticket member).1, Nat.le_succ_of_le (ok.stored ticket member).2⟩
  · obtain ⟨stored, bound, passed⟩ := ok.returned ticket v member
    exact ⟨stored, bound, (old ticket (ok.stored ticket stored).2).trans passed⟩
  · dsimp only
    rw [old ticket (ok.stored ticket member).2]
    exact ok.full ticket member

theorem claimConsumer (ok : QueueOk s) (θ : τ) :
    QueueOk { s with
      cCount := s.cCount + 1
      pc := Function.update s.pc θ (.dequeueSpin (s.cCount + 1)) } := by
  have start := ok.cStart
  refine ⟨ok.pStart, by dsimp only; omega, ?_, ?_, ok.stored, fun ticket v member => ?_,
    ok.published, ok.full, ok.storedOnce, ok.takenOnce⟩
  · refine threads_update (s := s) rfl ⟨?_, ?_, ?_, ?_, ?_, ?_⟩ fun η _ => ?_
    · intros
      contradiction
    · rintro ticket ⟨⟩
      refine ⟨start, Nat.le_refl _, fun taken => ?_⟩
      have bound := (ok.mem_stored_of_taken taken).2
      omega
    iterate 4 intros; contradiction
    · have before := ok.threads η
      refine ⟨before.producer, fun ticket held => ?_, before.filling, before.filled,
        before.emptying, before.read⟩
      obtain ⟨low, bound, fresh⟩ := before.consumer ticket held
      exact ⟨low, Nat.le_succ_of_le bound, fresh⟩
  · refine apart_update (s := s) rfl ok.apart fun η other =>
      ⟨(fun _ _ _ none => by cases none), ?_⟩
    rintro ticket ⟨⟩ same
    have bound := ((ok.threads η).consumer _ same).2.1
    omega
  · obtain ⟨stored, bound, passed⟩ := ok.returned ticket v member
    exact ⟨stored, Nat.le_succ_of_le bound, passed⟩

/-- The spin of enqueue ends: the slot is the producer's now. -/
theorem enqueueSpin (ok : QueueOk s) {θ : τ} {ticket : Nat} {value : α}
    (here : s.pc θ = .enqueueSpin ticket value) (turn : ticket = s.cCounts (slot capacity ticket)) :
    QueueOk { s with pc := Function.update s.pc θ (.enqueueStore ticket value) } := by
  have before := ok.threads θ
  rw [here] at before
  refine ok.moved (by rw [here]; rfl) (by rw [here]; rfl) ⟨before.producer, ?_, ?_, ?_, ?_, ?_⟩
  · intros
    contradiction
  · rintro t ⟨⟩
    exact turn.symm
  iterate 3 intros; contradiction

theorem enqueueStore (ok : QueueOk s) {θ : τ} {ticket : Nat} {value : α}
    (here : s.pc θ = .enqueueStore ticket value) :
    QueueOk { s with
      values := Function.update s.values (slot capacity ticket) value
      pc := Function.update s.pc θ (.enqueuePublish ticket value) } := by
  have before := ok.threads θ
  have inside : (s.pc θ).filling = some ticket := by
    rw [here]
    rfl
  rw [here] at before
  refine ⟨ok.pStart, ok.cStart, ?_, ?_, ok.stored, ok.returned, ok.published,
    fun other member => ?_, ok.storedOnce, ok.takenOnce⟩
  · refine threads_update (s := s) rfl ⟨before.producer, ?_, before.filling, ?_, ?_, ?_⟩
      fun η different => ?_
    · intros
      contradiction
    · rintro t v ⟨⟩
      exact Function.update_self _ _ _
    iterate 2 intros; contradiction
    · have theirs := ok.threads η
      refine ⟨theirs.producer, theirs.consumer, theirs.filling, fun other v held => ?_,
        theirs.emptying, theirs.read⟩
      have inside' : (s.pc η).filling = some other := by
        rw [held]
        rfl
      have apart : slot capacity other ≠ slot capacity ticket :=
        fun same => different (ok.filling_unique inside inside' same).symm
      dsimp only
      rw [Function.update_of_ne apart]
      exact theirs.filled other v held
  · refine apart_update (s := s) rfl ok.apart fun η other => ?_
    have theirs := ok.apart θ η other.symm
    rw [here] at theirs
    exact ⟨theirs.producers, theirs.consumers⟩
  · rcases ok.full other member with taken | ⟨seen, turn, passed⟩
    · exact Or.inl taken
    · by_cases same : slot capacity other = slot capacity ticket
      · exact Or.inl (ok.taken_of_filling inside member same)
      · refine Or.inr ⟨seen, turn, ?_⟩
        dsimp only
        rw [Function.update_of_ne same]
        exact passed

theorem enqueuePublish (ok : QueueOk s) {θ : τ} {ticket : Nat} {value : α}
    (here : s.pc θ = .enqueuePublish ticket value) :
    QueueOk { s with
      pCounts := Function.update s.pCounts (slot capacity ticket) ticket
      pc := Function.update s.pc θ .idle
      stored := ticket :: s.stored } := by
  have before := ok.threads θ
  have inside : (s.pc θ).filling = some ticket := by
    rw [here]
    rfl
  rw [here] at before
  obtain ⟨low, bound, fresh, passed⟩ := before.producer ticket value rfl
  refine ⟨ok.pStart, ok.cStart, ?_, ?_, fun other member => ?_, fun other v member => ?_,
    fun i high => ?_, fun other member => ?_, List.nodup_cons.mpr ⟨fresh, ok.storedOnce⟩,
    ok.takenOnce⟩
  · refine threads_update (s := s) rfl (threadOk_idle _) fun η different => ?_
    have theirs := ok.threads η
    refine ⟨fun other v held => ?_, theirs.consumer, theirs.filling, theirs.filled,
      fun other held => ?_, theirs.read⟩
    · obtain ⟨low', bound', fresh', passed'⟩ := theirs.producer other v held
      refine ⟨low', bound', fun member => ?_, passed'⟩
      rcases List.mem_cons.mp member with rfl | old
      · have apart := ok.apart θ η different.symm
        rw [here] at apart
        exact apart.producers other value v rfl held
      · exact fresh' old
    · have apart := ok.filling_apart_emptying inside held
      dsimp only
      rw [Function.update_of_ne apart]
      exact theirs.emptying other held
  · exact apart_update (s := s) rfl ok.apart fun η _ => apart_idle _
  · rcases List.mem_cons.mp member with rfl | old
    · exact ⟨low, bound⟩
    · exact ok.stored other old
  · obtain ⟨stored, rest⟩ := ok.returned other v member
    exact ⟨List.mem_cons_of_mem ticket stored, rest⟩
  · dsimp only at high ⊢
    by_cases same : i = slot capacity ticket
    · subst i
      rw [Function.update_self]
      exact List.mem_cons_self
    · rw [Function.update_of_ne same] at high ⊢
      exact List.mem_cons_of_mem ticket (ok.published i high)
  · rcases List.mem_cons.mp member with rfl | old
    · refine Or.inr ⟨Function.update_self _ _ _, before.filling other rfl, ?_⟩
      dsimp only
      rw [passed, before.filled other value rfl]
    · rcases ok.full other old with taken | ⟨seen, turn, value'⟩
      · exact Or.inl taken
      · by_cases same : slot capacity other = slot capacity ticket
        · exact Or.inl (ok.taken_of_filling inside old same)
        · refine Or.inr ⟨?_, turn, value'⟩
          dsimp only
          rw [Function.update_of_ne same]
          exact seen

/-- The spin of dequeue ends: the slot is the consumer's now. -/
theorem dequeueSpin (ok : QueueOk s) {θ : τ} {ticket : Nat} (here : s.pc θ = .dequeueSpin ticket)
    (turn : ticket = s.pCounts (slot capacity ticket)) :
    QueueOk { s with pc := Function.update s.pc θ (.dequeueRead ticket) } := by
  have before := ok.threads θ
  rw [here] at before
  refine ok.moved (by rw [here]; rfl) (by rw [here]; rfl) ⟨?_, before.consumer, ?_, ?_, ?_, ?_⟩
  iterate 3 intros; contradiction
  · rintro t ⟨⟩
    exact turn.symm
  · intros
    contradiction

theorem dequeueRead (ok : QueueOk s) {θ : τ} {ticket : Nat} (here : s.pc θ = .dequeueRead ticket) :
    QueueOk { s with
      pc := Function.update s.pc θ
        (.dequeueRelease ticket (s.values (slot capacity ticket))) } := by
  have before := ok.threads θ
  have inside : (s.pc θ).emptying = some ticket := by
    rw [here]
    rfl
  rw [here] at before
  refine ok.moved (by rw [here]; rfl) (by rw [here]; rfl)
    ⟨?_, before.consumer, ?_, ?_, before.emptying, ?_⟩
  iterate 3 intros; contradiction
  · rintro t v ⟨⟩
    exact (ok.full_of_emptying inside).2.2

theorem dequeueRelease (ok : QueueOk s) {θ : τ} {ticket : Nat} {value : α}
    (here : s.pc θ = .dequeueRelease ticket value) :
    QueueOk { s with
      cCounts := Function.update s.cCounts (slot capacity ticket) ((ticket + capacity) % 2 ^ 64)
      pc := Function.update s.pc θ .idle
      returned := (ticket, value) :: s.returned } := by
  have before := ok.threads θ
  have inside : (s.pc θ).emptying = some ticket := by
    rw [here]
    rfl
  rw [here] at before
  obtain ⟨low, bound, fresh⟩ := before.consumer ticket rfl
  obtain ⟨stored, turn, _⟩ := ok.full_of_emptying inside
  refine ⟨ok.pStart, ok.cStart, ?_, ?_, ok.stored, fun other v member => ?_, ok.published,
    fun other member => ?_, ok.storedOnce, List.nodup_cons.mpr ⟨fresh, ok.takenOnce⟩⟩
  · refine threads_update (s := s) rfl (threadOk_idle _) fun η different => ?_
    have theirs := ok.threads η
    refine ⟨theirs.producer, fun other held => ?_, fun other held => ?_, theirs.filled,
      theirs.emptying, theirs.read⟩
    · obtain ⟨low', bound', fresh'⟩ := theirs.consumer other held
      refine ⟨low', bound', fun taken => ?_⟩
      rcases List.mem_cons.mp taken with same | old
      · have apart := ok.apart θ η different.symm
        rw [here] at apart
        exact apart.consumers other (by rw [same]; rfl) held
      · exact fresh' old
    · have apart := ok.filling_apart_emptying held inside
      dsimp only
      rw [Function.update_of_ne apart.symm]
      exact theirs.filling other held
  · exact apart_update (s := s) rfl ok.apart fun η _ => apart_idle _
  · rcases List.mem_cons.mp member with same | old
    · cases same
      exact ⟨stored, bound, before.read ticket value rfl⟩
    · exact ok.returned other v old
  · rcases ok.full other member with taken | ⟨seen, turn', value'⟩
    · exact Or.inl (List.mem_cons_of_mem ticket taken)
    · by_cases same : slot capacity other = slot capacity ticket
      · have equal : other = ticket := by
          rw [← seen, same]
          exact before.emptying ticket rfl
        subst equal
        exact Or.inl List.mem_cons_self
      · refine Or.inr ⟨seen, ?_, value'⟩
        dsimp only
        rw [Function.update_of_ne same]
        exact turn'

theorem next (ok : QueueOk s) {e : QueueEvent τ α} (step : queueNext s e = some t) :
    QueueOk t := by
  cases QueueStep.of_next step with
  | claimProducer => exact ok.claimProducer _ _
  | claimConsumer => exact ok.claimConsumer _
  | enqueueWait | dequeueWait => exact ok
  | enqueueSpin here turn => exact ok.enqueueSpin here turn
  | enqueueStore here => exact ok.enqueueStore here
  | enqueuePublish here => exact ok.enqueuePublish here
  | dequeueSpin here turn => exact ok.dequeueSpin here turn
  | dequeueRead here => exact ok.dequeueRead here
  | dequeueRelease here => exact ok.dequeueRelease here

theorem of_reachable (reach : (queueMachine τ α capacity).Reachable s) : QueueOk s := by
  refine reach.invariant ?_ fun _ _ _ _ ok step => ok.next step
  rintro _ ⟨values, rfl⟩
  exact QueueOk.initial values

end Steps

end QueueOk

end BurstBuffer.Source
