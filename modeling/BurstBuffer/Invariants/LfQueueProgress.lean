import Mathlib.Data.Int.ModEq
import BurstBuffer.Invariants.LfQueueSteps

/-!
# No ticket of an lfqueue is lost

Every ticket that was handed out is finished or held by a thread, and `c_counts`
of a slot is the ticket whose turn it is there: the first one in the slot that no
dequeue has finished. So a thread in a spin waits for a smaller ticket of its
slot, and the smallest of these can go on.
-/
namespace BurstBuffer.Source

open Library

variable {τ α : Type} {capacity : Nat} [NeZero capacity]

theorem slot_eq_iff {t n : Nat} :
    slot capacity t = slot capacity n ↔ t % capacity = n % capacity := by
  unfold slot
  rw [Fin.ext_iff]
  exact Iff.rfl

theorem slot_add_capacity (t : Nat) : slot capacity (t + capacity) = slot capacity t := by
  apply slot_eq_iff.mpr
  exact Nat.add_mod_right t capacity

/-- Tickets of one slot are whole rounds apart. -/
theorem round_le_of_slot_eq {t n : Nat} (same : slot capacity t = slot capacity n)
    (before : t < n) : t + capacity ≤ n := by
  have whole : capacity ∣ n - t := (Nat.modEq_iff_dvd' before.le).mp (slot_eq_iff.mp same)
  have round := Nat.le_of_dvd (by omega) whole
  omega

/-- Ticket `n` is the next one to pass through slot `i`. -/
structure Turn (s : QueueState τ α capacity) (i : Fin capacity) (n : Nat) : Prop where
  low : capacity ≤ n
  home : slot capacity n = i
  count : s.cCounts i = n % 2 ^ 64
  taken : ∀ t, capacity ≤ t → slot capacity t = i → (t ∈ s.taken ↔ t < n)

structure TicketsOk (s : QueueState τ α capacity) : Prop where
  producers : ∀ t, capacity ≤ t → t ≤ s.pCount →
    t ∈ s.stored ∨ ∃ θ v, (s.pc θ).producing = some (t, v)
  consumers : ∀ t, capacity ≤ t → t ≤ s.cCount →
    t ∈ s.taken ∨ ∃ θ, (s.pc θ).consuming = some t
  turns : ∀ i, ∃ n, Turn s i n
  bounded : s.pCount < 2 ^ 64

/-- In the constructor the sum `i + capacity` must not leave its 32 bits. -/
theorem TicketsOk.initial (fits : capacity ≤ 2 ^ 31) (values : Fin capacity → α) :
    TicketsOk (QueueState.initial values : QueueState τ α capacity) where
  producers t low high := by
    simp only [QueueState.initial] at high
    have positive := Nat.pos_of_neZero capacity
    omega
  consumers t low high := by
    simp only [QueueState.initial] at high
    have positive := Nat.pos_of_neZero capacity
    omega
  turns i := by
    have inside := i.isLt
    refine ⟨i.val + capacity, by omega, ?_, ?_, fun t low same => ?_⟩
    · rw [slot_add_capacity]
      apply Fin.ext
      exact Nat.mod_eq_of_lt inside
    · simp only [QueueState.initial]
      rw [Nat.mod_eq_of_lt (by omega), Nat.mod_eq_of_lt (by omega)]
    · constructor
      · intro taken
        cases taken
      · intro early
        have round := round_le_of_slot_eq (t := i.val) (n := t) (by
          rw [same]
          apply Fin.ext
          exact Nat.mod_eq_of_lt inside) (by omega)
        omega
  bounded := by
    simp only [QueueState.initial]
    omega

section Steps

variable [DecidableEq τ] {s t : QueueState τ α capacity}

/-- A thread that moves on leaves the tickets of the others with them. -/
theorem producer_update {pcs : τ → QueuePc α} {θ : τ} {pc : QueuePc α} {ticket : Nat}
    (kept : ∀ v, (pcs θ).producing = some (ticket, v) → pc.producing = some (ticket, v))
    (held : ∃ η v, (pcs η).producing = some (ticket, v)) :
    ∃ η v, (Function.update pcs θ pc η).producing = some (ticket, v) := by
  obtain ⟨η, v, here⟩ := held
  by_cases same : η = θ
  · subst η
    exact ⟨θ, v, by rw [Function.update_self]; exact kept v here⟩
  · exact ⟨η, v, by rw [Function.update_of_ne same]; exact here⟩

theorem consumer_update {pcs : τ → QueuePc α} {θ : τ} {pc : QueuePc α} {ticket : Nat}
    (kept : (pcs θ).consuming = some ticket → pc.consuming = some ticket)
    (held : ∃ η, (pcs η).consuming = some ticket) :
    ∃ η, (Function.update pcs θ pc η).consuming = some ticket := by
  obtain ⟨η, here⟩ := held
  by_cases same : η = θ
  · subst η
    exact ⟨θ, by rw [Function.update_self]; exact kept here⟩
  · exact ⟨η, by rw [Function.update_of_ne same]; exact here⟩

namespace TicketsOk

/-- A step inside a call. -/
theorem moved (ok : TicketsOk s) {θ : τ} {pc : QueuePc α}
    (producing : pc.producing = (s.pc θ).producing) (consuming : pc.consuming = (s.pc θ).consuming)
    (values : Fin capacity → α) :
    TicketsOk { s with values, pc := Function.update s.pc θ pc } where
  producers ticket low high := by
    apply (ok.producers ticket low high).imp_right
    apply producer_update
    intro v held
    rw [producing]
    exact held
  consumers ticket low high := by
    apply (ok.consumers ticket low high).imp_right
    apply consumer_update
    intro held
    rw [consuming]
    exact held
  turns i := by
    obtain ⟨n, turn⟩ := ok.turns i
    exact ⟨n, turn.low, turn.home, turn.count, turn.taken⟩
  bounded := ok.bounded

theorem claimProducer (ok : TicketsOk s) {θ : τ} {value : α} (idle : s.pc θ = .idle)
    (bounded : s.pCount + 1 < 2 ^ 64) :
    TicketsOk { s with
      pCount := s.pCount + 1
      pc := Function.update s.pc θ (.enqueueSpin (s.pCount + 1) value)
      passed := Function.update s.passed (s.pCount + 1) (some value) } := by
  constructor
  · intro ticket low high
    rcases Nat.lt_or_ge s.pCount ticket with new | old
    · have equal : ticket = s.pCount + 1 := Nat.le_antisymm high new
      subst equal
      right
      exact ⟨θ, value, by simp [QueuePc.producing]⟩
    · apply (ok.producers ticket low old).imp_right
      apply producer_update
      intro v held
      rw [idle] at held
      cases held
  · intro ticket low high
    apply (ok.consumers ticket low high).imp_right
    apply consumer_update
    intro held
    rw [idle] at held
    cases held
  · intro i
    obtain ⟨n, turn⟩ := ok.turns i
    exact ⟨n, turn.low, turn.home, turn.count, turn.taken⟩
  · exact bounded

theorem claimConsumer (ok : TicketsOk s) {θ : τ} (idle : s.pc θ = .idle) :
    TicketsOk { s with
      cCount := s.cCount + 1
      pc := Function.update s.pc θ (.dequeueSpin (s.cCount + 1)) } := by
  constructor
  · intro ticket low high
    apply (ok.producers ticket low high).imp_right
    apply producer_update
    intro v held
    rw [idle] at held
    cases held
  · intro ticket low high
    rcases Nat.lt_or_ge s.cCount ticket with new | old
    · have equal : ticket = s.cCount + 1 := Nat.le_antisymm high new
      subst equal
      right
      exact ⟨θ, by simp [QueuePc.consuming]⟩
    · apply (ok.consumers ticket low old).imp_right
      apply consumer_update
      intro held
      rw [idle] at held
      cases held
  · intro i
    obtain ⟨n, turn⟩ := ok.turns i
    exact ⟨n, turn.low, turn.home, turn.count, turn.taken⟩
  · exact ok.bounded

theorem enqueuePublish (ok : TicketsOk s) {θ : τ} {ticket : Nat} {value : α}
    (here : s.pc θ = .enqueuePublish ticket value) :
    TicketsOk { s with
      pCounts := Function.update s.pCounts (slot capacity ticket) ticket
      pc := Function.update s.pc θ .idle
      stored := ticket :: s.stored } := by
  constructor
  · intro other low high
    by_cases mine : other = ticket
    · left
      rw [mine]
      exact List.mem_cons_self
    · rcases ok.producers other low high with stored | held
      · left
        exact List.mem_cons_of_mem ticket stored
      · right
        apply producer_update _ held
        intro v holds
        rw [here] at holds
        cases holds
        exact absurd rfl mine
  · intro other low high
    apply (ok.consumers other low high).imp_right
    apply consumer_update
    intro held
    rw [here] at held
    cases held
  · intro i
    obtain ⟨n, turn⟩ := ok.turns i
    exact ⟨n, turn.low, turn.home, turn.count, turn.taken⟩
  · exact ok.bounded

/-- The dequeue that releases a slot passes the turn on to the next round. -/
theorem dequeueRelease (ok : TicketsOk s) (queue : QueueOk s) {θ : τ} {ticket : Nat} {value : α}
    (here : s.pc θ = .dequeueRelease ticket value) :
    TicketsOk { s with
      cCounts := Function.update s.cCounts (slot capacity ticket) ((ticket + capacity) % 2 ^ 64)
      pc := Function.update s.pc θ .idle
      returned := (ticket, value) :: s.returned } := by
  have inside : (s.pc θ).emptying = some ticket := by
    rw [here]
    rfl
  obtain ⟨low, high, fresh⟩ :=
    (queue.threads θ).consumer ticket (QueuePc.consuming_of_emptying inside)
  obtain ⟨_, count, _⟩ := queue.full_of_emptying inside
  constructor
  · intro other low high
    apply (ok.producers other low high).imp_right
    apply producer_update
    intro v holds
    rw [here] at holds
    cases holds
  · intro other low high
    by_cases mine : other = ticket
    · left
      rw [mine]
      exact List.mem_cons_self
    · rcases ok.consumers other low high with taken | held
      · left
        exact List.mem_cons_of_mem ticket taken
      · right
        apply consumer_update _ held
        intro holds
        rw [here] at holds
        cases holds
        exact absurd rfl mine
  · intro i
    obtain ⟨n, turn⟩ := ok.turns i
    by_cases same : i = slot capacity ticket
    · subst i
      have notBefore : ¬ ticket < n := fun early => fresh ((turn.taken ticket low rfl).mpr early)
      have atMost : ticket ≤ n := by
        rw [← count, turn.count]
        exact Nat.mod_le n _
      have equal : n = ticket := by omega
      subst equal
      refine ⟨n + capacity, by omega, slot_add_capacity n, Function.update_self _ _ _,
        fun other low' home => ?_⟩
      constructor
      · intro taken
        rcases List.mem_cons.mp taken with same | old
        · rw [same]
          exact Nat.lt_add_of_pos_right (Nat.pos_of_neZero capacity)
        · have early := (turn.taken other low' home).mp old
          omega
      · intro early
        rcases Nat.lt_trichotomy other n with before | same | after
        · exact List.mem_cons_of_mem _ ((turn.taken other low' home).mpr before)
        · rw [same]
          exact List.mem_cons_self
        · have round := round_le_of_slot_eq home.symm after
          omega
    · refine ⟨n, turn.low, turn.home, ?_, fun other low' home => ?_⟩
      · dsimp only
        rw [Function.update_of_ne same]
        exact turn.count
      · have different : other ≠ ticket := fun equal => same (home.symm.trans (by rw [equal]))
        rw [← turn.taken other low' home]
        simp [QueueState.taken, different]
  · exact ok.bounded

theorem next (ok : TicketsOk s) (queue : QueueOk s) {e : QueueEvent τ α}
    (step : queueNext s e = some t) : TicketsOk t := by
  cases QueueStep.of_next step with
  | claimProducer idle bounded => exact ok.claimProducer idle bounded
  | claimConsumer idle => exact ok.claimConsumer idle
  | enqueueWait | dequeueWait => exact ok
  | enqueueSpin here => exact ok.moved (by rw [here]; rfl) (by rw [here]; rfl) s.values
  | enqueueStore here => exact ok.moved (by rw [here]; rfl) (by rw [here]; rfl) _
  | enqueuePublish here => exact ok.enqueuePublish here
  | dequeueSpin here => exact ok.moved (by rw [here]; rfl) (by rw [here]; rfl) s.values
  | dequeueRead here => exact ok.moved (by rw [here]; rfl) (by rw [here]; rfl) s.values
  | dequeueRelease here => exact ok.dequeueRelease queue here

theorem of_reachable (fits : capacity ≤ 2 ^ 31)
    (reach : (queueMachine τ α capacity).Reachable s) : TicketsOk s := by
  apply reach.invariant
  · rintro _ ⟨values, rfl⟩
    exact TicketsOk.initial fits values
  · intro s e t before ok step
    exact ok.next (QueueOk.of_reachable before) step

end TicketsOk

end Steps

section Chain

variable {s : QueueState τ α capacity}

/-- It is the turn of a ticket not yet taken when the ticket one round before it
is taken, or belongs to no call. -/
theorem Turn.count_eq {i : Fin capacity} {n : Nat} (turn : Turn s i n) {ticket : Nat}
    (bounded : ticket < 2 ^ 64) (low : capacity ≤ ticket) (here : slot capacity ticket = i)
    (fresh : ticket ∉ s.taken)
    (before : ticket < 2 * capacity ∨ ticket - capacity ∈ s.taken) : s.cCounts i = ticket := by
  have notBefore : ¬ ticket < n := fun early => fresh ((turn.taken ticket low here).mpr early)
  have notAfter : ¬ n < ticket := by
    intro late
    have round := round_le_of_slot_eq (turn.home.trans here.symm) late
    have above := turn.low
    rcases before with first | taken
    · omega
    · have same : slot capacity (ticket - capacity) = i := by
        rw [← slot_add_capacity, Nat.sub_add_cancel low, here]
      have early := (turn.taken (ticket - capacity) (by omega) same).mp taken
      omega
  have equal : n = ticket := by omega
  rw [turn.count, equal, Nat.mod_eq_of_lt bounded]

variable [DecidableEq τ]

/-- A call that can take a step other than spinning. -/
def CanAdvance (s : QueueState τ α capacity) (θ : τ) : Prop :=
  ∃ t, queueNext s (.advance θ) = some t ∧ t.pc θ ≠ s.pc θ

theorem canAdvance_of_filling {θ : τ} {ticket : Nat} (inside : (s.pc θ).filling = some ticket) :
    CanAdvance s θ := by
  unfold CanAdvance
  cases pc : s.pc θ with
  | enqueueStore | enqueuePublish =>
    simp only [queueNext, advance, pc]
    refine ⟨_, rfl, ?_⟩
    simp
  | idle | enqueueSpin | dequeueSpin | dequeueRead | dequeueRelease =>
    rw [pc] at inside
    cases inside

theorem canAdvance_of_emptying {θ : τ} {ticket : Nat} (inside : (s.pc θ).emptying = some ticket) :
    CanAdvance s θ := by
  unfold CanAdvance
  cases pc : s.pc θ with
  | dequeueRead | dequeueRelease =>
    simp only [queueNext, advance, pc]
    refine ⟨_, rfl, ?_⟩
    simp
  | idle | enqueueSpin | enqueueStore | enqueuePublish | dequeueSpin =>
    rw [pc] at inside
    cases inside

theorem canAdvance_of_turn {θ : τ} {ticket : Nat} {value : α}
    (here : s.pc θ = .enqueueSpin ticket value) (turn : s.cCounts (slot capacity ticket) = ticket) :
    CanAdvance s θ := by
  unfold CanAdvance
  simp only [queueNext, advance, here]
  refine ⟨_, if_pos turn.symm, ?_⟩
  simp

theorem canAdvance_of_published {θ : τ} {ticket : Nat} (here : s.pc θ = .dequeueSpin ticket)
    (turn : s.pCounts (slot capacity ticket) = ticket) : CanAdvance s θ := by
  unfold CanAdvance
  simp only [queueNext, advance, here]
  refine ⟨_, if_pos turn.symm, ?_⟩
  simp

/-- A dequeue whose ticket an enqueue has: some call goes on. The induction is on
the ticket, down the rounds of its slot. -/
theorem dequeue_progress (ok : QueueOk s) (tickets : TicketsOk s) (ticket : Nat) :
    ∀ θ, (s.pc θ).consuming = some ticket → ticket ≤ s.pCount → ∃ η, CanAdvance s η := by
  induction ticket using Nat.strong_induction_on with
  | h ticket ih =>
    intro θ waits claimed
    obtain ⟨low, high, fresh⟩ := (ok.threads θ).consumer ticket waits
    cases pc : s.pc θ with
    | dequeueRead | dequeueRelease =>
      have empties : (s.pc θ).emptying = some ticket := by
        rw [← waits, pc]
        rfl
      exact ⟨θ, canAdvance_of_emptying empties⟩
    | idle | enqueueSpin | enqueueStore | enqueuePublish =>
      rw [pc] at waits
      cases waits
    | dequeueSpin other =>
      have same : other = ticket := by
        rw [pc] at waits
        exact Option.some.inj waits
      subst other
      rcases tickets.producers ticket low claimed with stored | ⟨η, value, produces⟩
      · rcases ok.full ticket stored with taken | ⟨published, _⟩
        · exact absurd taken fresh
        · exact ⟨θ, canAdvance_of_published pc published⟩
      · cases pc' : s.pc η with
        | enqueueStore | enqueuePublish =>
          exact ⟨η, canAdvance_of_filling (by rw [pc']; rfl)⟩
        | idle | dequeueSpin | dequeueRead | dequeueRelease =>
          rw [pc'] at produces
          cases produces
        | enqueueSpin other value' =>
          rw [pc'] at produces
          cases produces
          obtain ⟨n, turn⟩ := tickets.turns (slot capacity ticket)
          have bounded := Nat.lt_of_le_of_lt claimed tickets.bounded
          by_cases first : ticket < 2 * capacity
          · exact ⟨η, canAdvance_of_turn pc'
              (turn.count_eq bounded low rfl fresh (Or.inl first))⟩
          · have positive := Nat.pos_of_neZero capacity
            rcases tickets.consumers (ticket - capacity) (by omega) (by omega) with taken | waiting
            · exact ⟨η, canAdvance_of_turn pc'
                (turn.count_eq bounded low rfl fresh (Or.inr taken))⟩
            · obtain ⟨ζ, waits'⟩ := waiting
              apply ih (ticket - capacity) (by omega) ζ waits'
              omega

/-- An enqueue in the first round, or whose slot a dequeue is to empty. -/
theorem enqueue_progress (ok : QueueOk s) (tickets : TicketsOk s) {θ : τ} {ticket : Nat} {value : α}
    (waits : (s.pc θ).producing = some (ticket, value))
    (claimed : ticket < 2 * capacity ∨ ticket - capacity ≤ s.cCount) : ∃ η, CanAdvance s η := by
  obtain ⟨low, high, notStored, _⟩ := (ok.threads θ).producer ticket value waits
  cases pc : s.pc θ with
  | enqueueStore | enqueuePublish => exact ⟨θ, canAdvance_of_filling (by rw [pc]; rfl)⟩
  | idle | dequeueSpin | dequeueRead | dequeueRelease =>
    rw [pc] at waits
    cases waits
  | enqueueSpin other value' =>
    rw [pc] at waits
    cases waits
    have fresh : ticket ∉ s.taken := fun taken => notStored (ok.mem_stored_of_taken taken).1
    have bounded := Nat.lt_of_le_of_lt high tickets.bounded
    obtain ⟨n, turn⟩ := tickets.turns (slot capacity ticket)
    by_cases first : ticket < 2 * capacity
    · exact ⟨θ, canAdvance_of_turn pc (turn.count_eq bounded low rfl fresh (Or.inl first))⟩
    · have dequeued : ticket - capacity ≤ s.cCount := by omega
      rcases tickets.consumers (ticket - capacity) (by omega) dequeued with taken | ⟨η, waits'⟩
      · exact ⟨θ, canAdvance_of_turn pc (turn.count_eq bounded low rfl fresh (Or.inr taken))⟩
      · apply dequeue_progress ok tickets (ticket - capacity) η waits'
        omega

end Chain

end BurstBuffer.Source
