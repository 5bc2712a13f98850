import Mathlib.Algebra.Order.Ring.Int
import Mathlib.Data.Option.Basic

/-!
# Machines and loops with partial steps

A machine has a set of initial states and a step function that is partial: an
event that cannot be taken in a state (its thread waits, or its guard fails)
steps to `none`. Invariants are proved once per step and hold of every state of
every run by `Reachable.invariant`. Loops over lists with partial rounds follow
the same two patterns.
-/
namespace BurstBuffer.Library

universe u v w

structure Machine (σ : Type u) (ε : Type v) where
  init : σ → Prop
  next : σ → ε → Option σ

namespace Machine

variable {σ : Type u} {ε : Type v} {M : Machine σ ε}

/-- The state after a list of events, when each of them can be taken. -/
def run (M : Machine σ ε) : σ → List ε → Option σ
  | s, [] => some s
  | s, e :: es => (M.next s e).bind fun t => M.run t es

inductive Reachable (M : Machine σ ε) : σ → Prop where
  | init {s : σ} : M.init s → Reachable M s
  | step {s t : σ} {e : ε} : Reachable M s → M.next s e = some t → Reachable M t

/-- A run that starts in a reachable state ends in one. -/
theorem Reachable.run {s t : σ} {es : List ε} (reach : M.Reachable s)
    (steps : M.run s es = some t) : M.Reachable t := by
  induction es generalizing s with
  | nil =>
    cases steps
    exact reach
  | cons e es ih =>
    obtain ⟨u, first, rest⟩ := Option.bind_eq_some_iff.mp steps
    exact ih (reach.step first) rest

/-- The induction rule: what holds initially and is kept by every step out of a
reachable state holds of every reachable state. -/
theorem Reachable.invariant {I : σ → Prop} (start : ∀ s, M.init s → I s)
    (keep : ∀ s e t, M.Reachable s → I s → M.next s e = some t → I t) {s : σ}
    (reach : M.Reachable s) : I s := by
  induction reach with
  | init initial => exact start _ initial
  | step before step ih => exact keep _ _ _ before ih step

/-- The states reached by steps that all meet a guard. -/
inductive ReachableBy (M : Machine σ ε) (guard : σ → ε → Prop) : σ → Prop where
  | init {s : σ} : M.init s → ReachableBy M guard s
  | step {s t : σ} {e : ε} : ReachableBy M guard s → guard s e → M.next s e = some t →
      ReachableBy M guard t

theorem ReachableBy.reachable {guard : σ → ε → Prop} {s : σ} (reach : M.ReachableBy guard s) :
    M.Reachable s := by
  induction reach with
  | init initial => exact .init initial
  | step _ _ step ih => exact ih.step step

/-- The induction rule for guarded runs. -/
theorem ReachableBy.invariant {guard : σ → ε → Prop} {I : σ → Prop} (start : ∀ s, M.init s → I s)
    (keep : ∀ s e t, I s → guard s e → M.next s e = some t → I t) {s : σ}
    (reach : M.ReachableBy guard s) : I s := by
  induction reach with
  | init initial => exact start _ initial
  | step before allowed step ih => exact keep _ _ _ ih allowed step

theorem ReachableBy.run {guard : σ → ε → Prop} {s t : σ} {es : List ε}
    (reach : M.ReachableBy guard s) (allowed : ∀ e ∈ es, ∀ u, guard u e)
    (steps : M.run s es = some t) : M.ReachableBy guard t := by
  induction es generalizing s with
  | nil =>
    cases steps
    exact reach
  | cons e es ih =>
    obtain ⟨u, first, rest⟩ := Option.bind_eq_some_iff.mp steps
    have next := reach.step (allowed e List.mem_cons_self s) first
    exact ih next (fun f later => allowed f (List.mem_cons_of_mem e later)) rest

/-- A run is allowed throughout if an invariant allows each of its events. -/
theorem ReachableBy.run_while {guard : σ → ε → Prop} {I : σ → Prop} {s t : σ} {es : List ε}
    (keep : ∀ u e v, I u → e ∈ es → M.next u e = some v → guard u e ∧ I v)
    (reach : M.ReachableBy guard s) (before : I s) (steps : M.run s es = some t) :
    M.ReachableBy guard t ∧ I t := by
  induction es generalizing s with
  | nil =>
    cases steps
    exact ⟨reach, before⟩
  | cons e es ih =>
    obtain ⟨u, first, rest⟩ := Option.bind_eq_some_iff.mp steps
    obtain ⟨allowed, middle⟩ := keep s e u before List.mem_cons_self first
    exact ih (fun u f v holds later => keep u f v holds (List.mem_cons_of_mem e later))
      (reach.step allowed first) middle rest

/-- The state after a list of events, when each of them can be taken and is allowed. -/
def runBy (M : Machine σ ε) (guard : σ → ε → Prop) [∀ s e, Decidable (guard s e)] :
    σ → List ε → Option σ
  | s, [] => some s
  | s, e :: es => if guard s e then (M.next s e).bind fun t => runBy M guard t es else none

theorem ReachableBy.runBy {guard : σ → ε → Prop} [∀ s e, Decidable (guard s e)] {s t : σ}
    {es : List ε} (reach : M.ReachableBy guard s) (steps : M.runBy guard s es = some t) :
    M.ReachableBy guard t := by
  induction es generalizing s with
  | nil =>
    cases steps
    exact reach
  | cons e es ih =>
    unfold Machine.runBy at steps
    split at steps
    · next allowed =>
      obtain ⟨u, first, rest⟩ := Option.bind_eq_some_iff.mp steps
      exact ih (reach.step allowed first) rest
    · cases steps

/-- Steps that make a measure smaller come to an end. -/
theorem runBy_bounded {guard : σ → ε → Prop} [∀ s e, Decidable (guard s e)] {I : σ → Prop}
    {m : σ → Nat}
    (less : ∀ s e t, I s → guard s e → M.next s e = some t → I t ∧ m t < m s)
    {s t : σ} {es : List ε} (before : I s) (steps : M.runBy guard s es = some t) :
    I t ∧ es.length + m t ≤ m s := by
  induction es generalizing s with
  | nil =>
    cases steps
    exact ⟨before, by simp⟩
  | cons e es ih =>
    unfold Machine.runBy at steps
    split at steps
    · next allowed =>
      obtain ⟨u, first, rest⟩ := Option.bind_eq_some_iff.mp steps
      obtain ⟨middle, smaller⟩ := less s e u before allowed first
      obtain ⟨last, bound⟩ := ih middle rest
      refine ⟨last, ?_⟩
      rw [List.length_cons]
      omega
    · cases steps

/-- So they can be taken until none is left. -/
theorem runBy_ends {guard : σ → ε → Prop} [∀ s e, Decidable (guard s e)] {I : σ → Prop}
    {m : σ → Nat} (less : ∀ s e t, I s → guard s e → M.next s e = some t → I t ∧ m t < m s)
    (s : σ) (before : I s) :
    ∃ es t, M.runBy guard s es = some t ∧ ∀ e, guard t e → M.next t e = none := by
  induction s using (measure m).wf.induction with
  | _ s ih =>
    by_cases ends : ∀ e, guard s e → M.next s e = none
    · exact ⟨[], s, rfl, ends⟩
    · push Not at ends
      obtain ⟨e, allowed, some⟩ := ends
      obtain ⟨t, step⟩ := Option.ne_none_iff_exists'.mp some
      obtain ⟨after, smaller⟩ := less s e t before allowed step
      obtain ⟨es, u, rest, done⟩ := ih t smaller after
      refine ⟨e :: es, u, ?_, done⟩
      rw [Machine.runBy, if_pos allowed, step]
      exact rest

/-- Runs under a guard are runs under another one that an invariant makes weaker. -/
theorem ReachableBy.weaken {guard guard' : σ → ε → Prop} {I : σ → Prop}
    (start : ∀ s, M.init s → I s) (keep : ∀ s e t, I s → guard s e → M.next s e = some t → I t)
    (weaker : ∀ s e, I s → guard s e → guard' s e) {s : σ} (reach : M.ReachableBy guard s) :
    M.ReachableBy guard' s ∧ I s := by
  induction reach with
  | init initial => exact ⟨.init initial, start _ initial⟩
  | step _ allowed step ih =>
    obtain ⟨before, holds⟩ := ih
    exact ⟨before.step (weaker _ _ holds allowed) step, keep _ _ _ holds allowed step⟩

/-- A run whose events pass a test is a run under a guard, when an invariant makes the
test sound. -/
theorem ReachableBy.of_test {test : σ → ε → Bool} {guard : σ → ε → Prop} {I : σ → Prop}
    (keep : ∀ s e t, I s → guard s e → M.next s e = some t → I t)
    (sound : ∀ s e, I s → test s e = true → guard s e) {s t : σ} {es : List ε}
    (reach : M.ReachableBy guard s) (before : I s)
    (steps : M.runBy (fun s e => test s e = true) s es = some t) : M.ReachableBy guard t := by
  induction es generalizing s with
  | nil =>
    cases steps
    exact reach
  | cons e es ih =>
    unfold Machine.runBy at steps
    split at steps
    · next passed =>
      obtain ⟨u, first, rest⟩ := Option.bind_eq_some_iff.mp steps
      have allowed := sound s e before passed
      exact ih (reach.step allowed first) (keep s e u before allowed first) rest
    · cases steps

/-- The rule along one run, from any state where the invariant holds. -/
theorem run_invariant {I : σ → Prop} (keep : ∀ s e t, I s → M.next s e = some t → I t) {s t : σ}
    {es : List ε} (before : I s) (steps : M.run s es = some t) : I t := by
  induction es generalizing s with
  | nil =>
    cases steps
    exact before
  | cons e es ih =>
    obtain ⟨u, first, rest⟩ := Option.bind_eq_some_iff.mp steps
    exact ih (keep s e u before first) rest

/-- When one machine can follow each step of another one, it can follow its runs. -/
theorem run_simulates {σ' : Type w} {M' : Machine σ' ε} {R : σ → σ' → Prop}
    (follow : ∀ s s' e t, R s s' → M.next s e = some t → ∃ t', M'.next s' e = some t' ∧ R t t')
    {s t : σ} {s' : σ'} {es : List ε} (related : R s s') (steps : M.run s es = some t) :
    ∃ t', M'.run s' es = some t' ∧ R t t' := by
  induction es generalizing s s' with
  | nil =>
    cases steps
    exact ⟨s', rfl, related⟩
  | cons e es ih =>
    obtain ⟨u, first, rest⟩ := Option.bind_eq_some_iff.mp steps
    obtain ⟨u', first', middle⟩ := follow s s' e u related first
    obtain ⟨t', rest', last⟩ := ih middle rest
    refine ⟨t', ?_, last⟩
    simp only [run, first', Option.bind_some]
    exact rest'

end Machine

section Loop

variable {σ : Type u} {α : Type v}

/-- A loop over a list whose rounds all succeed while `I` holds, of the elements
still to come and the state, runs to its end. -/
theorem foldlM_total {f : σ → α → Option σ} {I : List α → σ → Prop}
    (round : ∀ a rest s, I (a :: rest) s → ∃ t, f s a = some t ∧ I rest t) {l : List α} {s : σ}
    (start : I l s) : ∃ t, l.foldlM f s = some t ∧ I [] t := by
  induction l generalizing s with
  | nil => exact ⟨s, rfl, start⟩
  | cons a rest ih =>
    obtain ⟨t, first, middle⟩ := round a rest s start
    obtain ⟨u, others, last⟩ := ih middle
    exact ⟨u, by rw [List.foldlM_cons, first]; exact others, last⟩

/-- What every successful round keeps holds at the end of a loop that succeeds. -/
theorem foldlM_invariant {f : σ → α → Option σ} {I : List α → σ → Prop}
    (round : ∀ a rest s t, I (a :: rest) s → f s a = some t → I rest t) {l : List α} {s t : σ}
    (start : I l s) (done : l.foldlM f s = some t) : I [] t := by
  induction l generalizing s with
  | nil =>
    cases done
    exact start
  | cons a rest ih =>
    obtain ⟨u, first, others⟩ := Option.bind_eq_some_iff.mp done
    exact ih (round a rest s u start first) others

end Loop

end BurstBuffer.Library
