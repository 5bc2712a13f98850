import Mathlib.Data.Bool.Basic

/-!
# Replaying overwrites

A family of writes, each of which puts its own values on the places it covers.
Replaying a list of them leaves at every place the value of the last one that
covers it, so a place is either as the writes say or as it was before, and
replaying a list again after any first part of it makes no difference.
-/
namespace BurstBuffer.Library

universe u v w

structure Overwrites (ι : Type u) (X : Type v) (β : Type w) where
  covers : ι → X → Bool
  value : ι → X → β

namespace Overwrites

variable {ι : Type u} {X : Type v} {β : Type w} (W V : Overwrites ι X β)

def write (f : X → β) (i : ι) : X → β := fun x => if W.covers i x then W.value i x else f x

def replay (l : List ι) (f : X → β) : X → β := l.foldl W.write f

variable {W V} {l l₁ l₂ : List ι} {f g : X → β} {x : X}

@[simp] theorem replay_nil : W.replay [] f = f := rfl

@[simp] theorem replay_cons (i : ι) : W.replay (i :: l) f = W.replay l (W.write f i) := rfl

theorem replay_append : W.replay (l₁ ++ l₂) f = W.replay l₂ (W.replay l₁ f) := List.foldl_append

/-- Places that no write covers keep their value. -/
theorem replay_of_uncovered (uncovered : ∀ i ∈ l, W.covers i x = false) :
    W.replay l f x = f x := by
  induction l generalizing f with
  | nil => rfl
  | cons i l ih =>
    rw [replay_cons, ih fun j member => uncovered j (List.mem_cons_of_mem i member), write,
      uncovered i List.mem_cons_self]
    rfl

/-- Elsewhere the value before does not matter. -/
theorem replay_of_covered (covered : ∃ i ∈ l, W.covers i x = true) :
    W.replay l f x = W.replay l g x := by
  induction l generalizing f g with
  | nil =>
    obtain ⟨i, member, _⟩ := covered
    cases member
  | cons i l ih =>
    rw [replay_cons, replay_cons]
    by_cases later : ∃ j ∈ l, W.covers j x = true
    · exact ih later
    · have uncovered : ∀ j ∈ l, W.covers j x = false := by
        intro j member
        exact Bool.eq_false_iff.mpr fun covers => later ⟨j, member, covers⟩
      have here : W.covers i x = true := by
        obtain ⟨j, member, covers⟩ := covered
        rcases List.mem_cons.mp member with rfl | member
        · exact covers
        · exact absurd ⟨j, member, covers⟩ later
      rw [replay_of_uncovered uncovered, replay_of_uncovered uncovered, write, write, here]
      rfl

/-- What differs on covered places only comes out the same. -/
theorem replay_congr (same : ∀ x, (∀ i ∈ l, W.covers i x = false) → f x = g x) :
    W.replay l f = W.replay l g := by
  funext x
  by_cases covered : ∃ i ∈ l, W.covers i x = true
  · exact replay_of_covered covered
  · have uncovered : ∀ i ∈ l, W.covers i x = false := by
      intro i member
      exact Bool.eq_false_iff.mpr fun covers => covered ⟨i, member, covers⟩
    rw [replay_of_uncovered uncovered, replay_of_uncovered uncovered]
    exact same x uncovered

/-- A first part of the list may have been replayed before. -/
theorem replay_replay_front : W.replay (l₁ ++ l₂) (W.replay l₁ f) = W.replay (l₁ ++ l₂) f := by
  apply replay_congr
  intro x uncovered
  exact replay_of_uncovered fun i member => uncovered i (List.mem_append_left l₂ member)

/-- The whole list may have been replayed before its second part. -/
theorem replay_back_replay : W.replay l₂ (W.replay (l₁ ++ l₂) f) = W.replay (l₁ ++ l₂) f := by
  have twice : W.replay (l₂ ++ []) (W.replay l₂ (W.replay l₁ f)) =
      W.replay (l₂ ++ []) (W.replay l₁ f) := replay_replay_front
  rw [List.append_nil] at twice
  rw [replay_append]
  exact twice

/-- Writes that agree on the list are replayed alike. -/
theorem replay_eq_of_agree (agree : ∀ i ∈ l, W.covers i = V.covers i ∧ W.value i = V.value i) :
    W.replay l f = V.replay l f := by
  induction l generalizing f with
  | nil => rfl
  | cons i l ih =>
    obtain ⟨covers, value⟩ := agree i List.mem_cons_self
    have first : W.write f i = V.write f i := by
      funext x
      rw [write, write, covers, value]
    rw [replay_cons, replay_cons, first]
    exact ih fun j member => agree j (List.mem_cons_of_mem i member)

/-- Writes that cover nothing change nothing. -/
theorem replay_of_idle (idle : ∀ i ∈ l, ∀ x, W.covers i x = false) : W.replay l f = f := by
  funext x
  exact replay_of_uncovered fun i member => idle i member x

end Overwrites

end BurstBuffer.Library
