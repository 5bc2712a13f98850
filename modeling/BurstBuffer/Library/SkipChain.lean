import Mathlib.Data.List.Pairwise
import Mathlib.Logic.Function.Basic
import Mathlib.Logic.Relation

/-!
# Chains that skip

Nodes with numbers in the order of their arrival, linked from `0` on. A link goes
forward and may skip nodes, as long as these have been given up before.
-/
namespace BurstBuffer.Library

/-- Following links. -/
def Follows (link : Nat → Option Nat) : Nat → Nat → Prop :=
  Relation.ReflTransGen fun a b => link a = some b

/-- Every link goes forward up to `last`, over nodes that have been given up. -/
structure Skips (link : Nat → Option Nat) (gone : Nat → Prop) (last : Nat) : Prop where
  forward : ∀ a b, link a = some b → a < b ∧ b ≤ last
  jumps : ∀ a b c, link a = some b → a < c → c < b → gone c

namespace Skips

variable {link : Nat → Option Nat} {gone gone' : Nat → Prop} {last last' a b : Nat}

theorem mono (skips : Skips link gone last) (more : ∀ c, gone c → gone' c) (order : last ≤ last') :
    Skips link gone' last' where
  forward a b linked := by
    obtain ⟨less, bounded⟩ := skips.forward a b linked
    exact ⟨less, Nat.le_trans bounded order⟩
  jumps a b c linked low high := more c (skips.jumps a b c linked low high)

/-- A new link over nodes that have been given up. -/
theorem update (skips : Skips link gone last) (less : a < b) (bounded : b ≤ last)
    (between : ∀ c, a < c → c < b → gone c) :
    Skips (Function.update link a (some b)) gone last where
  forward x y linked := by
    by_cases here : x = a
    · subst x
      rw [Function.update_self] at linked
      cases linked
      exact ⟨less, bounded⟩
    · rw [Function.update_of_ne here] at linked
      exact skips.forward x y linked
  jumps x y c linked low high := by
    by_cases here : x = a
    · subst x
      rw [Function.update_self] at linked
      cases linked
      exact between c low high
    · rw [Function.update_of_ne here] at linked
      exact skips.jumps x y c linked low high

/-- A chain of links without a gap before `a` leads to `a`, or `a` has been given up. -/
theorem follows_or_gone (skips : Skips link gone last) (linked : ∀ c < a, (link c).isSome) {b : Nat}
    (order : b ≤ a) : Follows link b a ∨ gone a := by
  rcases Nat.eq_or_lt_of_le order with rfl | less
  · exact Or.inl .refl
  · obtain ⟨next, here⟩ := Option.isSome_iff_exists.mp (linked b less)
    have forward := (skips.forward b next here).1
    rcases Nat.lt_or_ge a next with behind | before
    · exact Or.inr (skips.jumps b next a here less behind)
    · rcases skips.follows_or_gone linked before with later | given
      · exact Or.inl (.head here later)
      · exact Or.inr given
termination_by a - b

/-- A node that is followed has no gap before it, if given up nodes are linked. -/
theorem linked_of_follows (skips : Skips link gone last)
    (still : ∀ c, gone c → (link c).isSome) (follows : Follows link b a) {c : Nat} (low : b ≤ c)
    (high : c < a) : (link c).isSome := by
  induction follows using Relation.ReflTransGen.head_induction_on with
  | refl => exact absurd high (Nat.not_lt_of_le low)
  | @head x y here _ ih =>
    rcases Nat.lt_trichotomy c x with before | same | behind
    · exact absurd low (Nat.not_le_of_lt before)
    · subst c
      rw [here]
      rfl
    · rcases Nat.lt_or_ge c y with inside | later
      · exact still c (skips.jumps x y c here behind inside)
      · exact ih later

theorem le_of_follows (skips : Skips link gone last) (follows : Follows link b a) : b ≤ a := by
  induction follows with
  | refl => exact Nat.le_refl b
  | tail _ step ih => exact Nat.le_trans ih (Nat.le_of_lt (skips.forward _ _ step).1)

/-- Followed nodes come in the order of their numbers. -/
theorem sorted (skips : Skips link gone last) {path : List Nat}
    (chain : path.IsChain fun a b => link a = some b) : path.Pairwise (· < ·) :=
  List.isChain_iff_pairwise.mp (chain.imp fun a b linked => (skips.forward a b linked).1)

end Skips

end BurstBuffer.Library
