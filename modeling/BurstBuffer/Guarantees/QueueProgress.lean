import BurstBuffer.Invariants.LfQueueProgress

/-!
# Progress of an lfqueue under any interleaving
-/
namespace BurstBuffer.Guarantees

open Library Source

/-- A dequeue holds a ticket that an enqueue has claimed. -/
def DequeueWaits {τ α : Type} {capacity : Nat} (s : QueueState τ α capacity) : Prop :=
  ∃ θ ticket, (s.pc θ).consuming = some ticket ∧ ticket ≤ s.pCount

/-- An enqueue holds a ticket of the first round, or one whose slot a dequeue has
claimed a round earlier. -/
def EnqueueWaits {τ α : Type} {capacity : Nat} (s : QueueState τ α capacity) : Prop :=
  ∃ θ ticket value, (s.pc θ).producing = some (ticket, value) ∧
    (ticket < 2 * capacity ∨ ticket - capacity ≤ s.cCount)

/-- In no reachable state do all calls spin while one of them should go on. -/
def NeverStuck (capacity : Nat) [NeZero capacity] : Prop :=
  ∀ (τ α : Type) [DecidableEq τ] (s : QueueState τ α capacity),
    (queueMachine τ α capacity).Reachable s → DequeueWaits s ∨ EnqueueWaits s →
      ∃ θ, CanAdvance s θ

variable {capacity : Nat} [NeZero capacity]

theorem neverStuck_of_fits (fits : capacity ≤ 2 ^ 31) : NeverStuck capacity := by
  intro τ α _ s reach waits
  have ok := QueueOk.of_reachable reach
  have tickets := TicketsOk.of_reachable fits reach
  rcases waits with ⟨θ, ticket, consumes, claimed⟩ | ⟨θ, ticket, value, produces, claimed⟩
  · exact dequeue_progress ok tickets ticket θ consumes claimed
  · exact enqueue_progress ok tickets produces claimed

/-- One thread alone has enqueued `k` values. -/
structure Enqueued (k : Nat) (s : QueueState Unit Unit capacity) : Prop where
  reach : (queueMachine Unit Unit capacity).Reachable s
  idle : s.pc () = .idle
  count : s.pCount + 1 = capacity + k
  cCounts : ∀ i, s.cCounts i = (i.val + capacity) % 2 ^ 32

/-- Up to ticket `2^32 - 1` the initial counters let it pass. -/
theorem Enqueued.exists (k : Nat) (low : capacity + k ≤ 2 ^ 32) (round : k ≤ capacity) :
    ∃ s : QueueState Unit Unit capacity, Enqueued k s := by
  have positive := Nat.pos_of_neZero capacity
  induction k with
  | zero =>
    refine ⟨.initial fun _ => (), .init ⟨_, rfl⟩, rfl, ?_, fun _ => rfl⟩
    simp only [QueueState.initial]
    omega
  | succ k ih =>
    obtain ⟨s, before⟩ := ih (by omega) (by omega)
    have ticket : s.pCount + 1 = capacity + k := before.count
    have home : (slot capacity (s.pCount + 1)).val = k := by
      rw [ticket, Nat.add_comm]
      change (k + capacity) % capacity = k
      rw [Nat.add_mod_right, Nat.mod_eq_of_lt (by omega)]
    have turn : s.pCount + 1 = s.cCounts (slot capacity (s.pCount + 1)) := by
      rw [before.cCounts, home, Nat.mod_eq_of_lt (by omega)]
      omega
    have claim : ∃ t, (queueMachine Unit Unit capacity).run s
        [.enqueue () (), .advance (), .advance (), .advance ()] = some t ∧ t.pc () = .idle ∧
        t.pCount = s.pCount + 1 ∧ t.cCounts = s.cCounts := by
      have idle := before.idle
      have bounded : s.pCount + 1 < 18446744073709551616 := by omega
      simp [Machine.run, queueMachine, queueNext, claimProducer, advance, idle, bounded, ← turn]
    obtain ⟨t, steps, idle, count, same⟩ := claim
    refine ⟨t, before.reach.run steps, idle, ?_, fun i => ?_⟩
    · omega
    · rw [same]
      exact before.cCounts i

/-- Ticket `2^32` finds `0` in its slot, the 32-bit sum of index and capacity. -/
theorem stuck_of_wide (wide : 2 ^ 31 < capacity) (fits : capacity < 2 ^ 32) :
    ¬ NeverStuck capacity := by
  intro never
  obtain ⟨s, before⟩ : ∃ s : QueueState Unit Unit capacity, Enqueued (2 ^ 32 - capacity) s :=
    Enqueued.exists (2 ^ 32 - capacity) (by omega) (by omega)
  have ticket : s.pCount + 1 = 2 ^ 32 := by
    have count := before.count
    omega
  have home : (slot capacity (2 ^ 32)).val = 2 ^ 32 - capacity := by
    change 2 ^ 32 % capacity = 2 ^ 32 - capacity
    rw [Nat.mod_eq_sub_mod (by omega), Nat.mod_eq_of_lt (by omega)]
  have idle := before.idle
  obtain ⟨t, claimed, pc, cCounts⟩ : ∃ t, claimProducer () () s = some t ∧
      t.pc () = .enqueueSpin (2 ^ 32) () ∧ t.cCounts = s.cCounts := by
    rw [claimProducer, idle]
    refine ⟨_, if_pos (by omega), ?_, rfl⟩
    simp [ticket]
  have other : 2 ^ 32 ≠ t.cCounts (slot capacity (2 ^ 32)) := by
    rw [cCounts, before.cCounts, home, Nat.sub_add_cancel (by omega), Nat.mod_self]
    decide
  have waits : EnqueueWaits t := ⟨(), 2 ^ 32, (), by rw [pc]; rfl, Or.inl (by omega)⟩
  have reach : (queueMachine Unit Unit capacity).Reachable t :=
    before.reach.step (e := .enqueue () ()) claimed
  obtain ⟨θ, u, step, moved⟩ := never Unit Unit t reach (Or.inr waits)
  have spins : queueNext t (.advance ()) = some t := by
    simp only [queueNext, advance, pc]
    exact if_neg other
  cases spins.symm.trans step
  exact moved rfl

/-- A capacity is a 32-bit number. -/
theorem queue_never_stuck (capacity : Nat) [NeZero capacity] (fits : capacity < 2 ^ 32) :
    NeverStuck capacity ↔ capacity ≤ 2 ^ 31 := by
  constructor
  · intro never
    by_contra wide
    exact stuck_of_wide (by omega) fits never
  · exact neverStuck_of_fits

theorem queue_never_stuck_small : NeverStuck 4 :=
  (queue_never_stuck 4 (by decide)).mpr (by decide)

theorem queue_never_stuck_wide : ¬ ∀ (capacity : Nat) [NeZero capacity], capacity < 2 ^ 32 →
    NeverStuck capacity := by
  intro never
  exact stuck_of_wide (by decide) (by decide) (never (2 ^ 31 + 1) (by decide))

end BurstBuffer.Guarantees
