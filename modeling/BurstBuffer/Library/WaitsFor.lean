import Mathlib.Logic.Relation

/-!
# Waiting

Threads that wait for others, with a rank that every wait lowers.
-/
namespace BurstBuffer.Library

variable {τ : Type*} {waits : τ → τ → Prop} {rank : τ → Nat}

theorem rank_lt_of_chain (lowers : ∀ x y, waits x y → rank y < rank x) {x y : τ}
    (chain : Relation.TransGen waits x y) : rank y < rank x := by
  induction chain with
  | single last => exact lowers _ _ last
  | tail _ last ih => exact Nat.lt_trans (lowers _ _ last) ih

/-- No thread waits for itself, directly or through others. -/
theorem no_cycle (lowers : ∀ x y, waits x y → rank y < rank x) (x : τ) :
    ¬ Relation.TransGen waits x x := fun chain =>
  Nat.lt_irrefl _ (rank_lt_of_chain lowers chain)

/-- If a busy thread is able to go on or waits for a busy one, it waits, at the end of a chain,
for one that is able to go on. -/
theorem chain_to_able (lowers : ∀ x y, waits x y → rank y < rank x) {busy able : τ → Prop}
    (progress : ∀ x, busy x → able x ∨ ∃ y, waits x y ∧ busy y) {x : τ} (begun : busy x) :
    ∃ y, Relation.ReflTransGen waits x y ∧ busy y ∧ able y := by
  induction level : rank x using Nat.strongRecOn generalizing x with
  | _ n ih =>
    rcases progress x begun with able | ⟨y, first, busy⟩
    · exact ⟨x, .refl, begun, able⟩
    · obtain ⟨z, rest, found⟩ := ih (rank y) (level ▸ lowers x y first) busy rfl
      exact ⟨z, .head first rest, found⟩

end BurstBuffer.Library
