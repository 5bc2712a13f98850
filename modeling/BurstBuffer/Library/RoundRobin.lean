import Mathlib.Algebra.BigOperators.Fin
import Mathlib.Data.Int.CardIntervalMod
import Mathlib.Data.List.FinRange

/-!
# Taking turns

How often each of `m` places comes up in the first `n` turns, and what that says about
places that are filled and emptied in turn.
-/
namespace BurstBuffer.Library

/-- How many of the first `n` turns are those of place `k`. -/
def turns (m k n : Nat) : Nat := n.count fun i => i % m = k

@[simp] theorem turns_zero (m k : Nat) : turns m k 0 = 0 := Nat.count_zero _

theorem turns_succ (m k n : Nat) : turns m k (n + 1) = turns m k n + if n % m = k then 1 else 0 :=
  Nat.count_succ _ n

theorem turns_eq {m k : Nat} (place : k < m) (n : Nat) :
    turns m k n = n / m + if k < n % m then 1 else 0 := by
  have congruent := Nat.count_modEq_card n (Nat.zero_lt_of_lt place) k
  rw [Nat.mod_eq_of_lt place] at congruent
  rw [← congruent, turns]
  congr 1
  funext i
  rw [Nat.ModEq, Nat.mod_eq_of_lt place]

theorem turns_le_of_le {m j k : Nat} (order : j ≤ k) (place : k < m) (n : Nat) :
    turns m k n ≤ turns m j n := by
  rw [turns_eq place, turns_eq (Nat.lt_of_le_of_lt order place)]
  split <;> split <;> omega

theorem turns_le_succ {m j k : Nat} (first : j < m) (second : k < m) (n : Nat) :
    turns m j n ≤ turns m k n + 1 := by
  rw [turns_eq first, turns_eq second]
  split <;> split <;> omega

/-- Among the first `n` numbers. -/
theorem countP_finRange (m k n : Nat) :
    (List.finRange n).countP (fun i => i.val % m = k) = turns m k n := by
  induction n with
  | zero => rfl
  | succ n ih =>
    rw [List.finRange_succ_last, List.countP_append, List.countP_map, List.countP_singleton,
      turns_succ, ← ih]
    simp [Function.comp_def]

theorem sum_turns (m : Nat) [NeZero m] (n : Nat) : ∑ k : Fin m, turns m k n = n := by
  induction n with
  | zero => simp
  | succ n ih =>
    have once : ∀ k : Fin m, (n % m = k) ↔ k = Fin.ofNat m n := by
      intro k
      rw [Fin.ext_iff, eq_comm]
      rfl
    simp only [turns_succ, Finset.sum_add_distrib, ih, once, Finset.sum_ite_eq', Finset.mem_univ,
      if_true]

/-- Places that start with the turns of `start` items, lose `out` items in turn and get
`back` items in turn. -/
def Rotates {m : Nat} (size : Fin m → Nat) (start out back : Nat) : Prop :=
  ∀ k, size k + turns m k out = turns m k start + turns m k back

section Rotation

variable {m : Nat} {size : Fin m → Nat} {start out back : Nat}

theorem Rotates.total [NeZero m] (rotates : Rotates size start out back) :
    ∑ k, size k + out = start + back := by
  have all : ∑ k, (size k + turns m k out) = ∑ k : Fin m, (turns m k start + turns m k back) :=
    Finset.sum_congr rfl fun k _ => rotates k
  rwa [Finset.sum_add_distrib, Finset.sum_add_distrib, sum_turns, sum_turns, sum_turns] at all

/-- With items on their way in and others yet to be taken out, no place gets more than two
ahead. -/
theorem turns_close (moving waiting : Fin m → Nat)
    (rotates : ∀ k, size k + turns m k out + moving k =
      turns m k start + turns m k back + waiting k) (j k : Fin m) :
    size j + moving j + waiting k ≤ size k + moving k + waiting j + 2 := by
  have here := rotates j
  have there := rotates k
  have first := turns_le_succ j.isLt k.isLt start
  have second := turns_le_succ j.isLt k.isLt back
  rcases Nat.le_total j.val k.val with order | order
  · have lost := turns_le_of_le order k.isLt out
    omega
  · have fewer := turns_le_of_le order j.isLt start
    have lost := turns_le_succ k.isLt j.isLt out
    omega

/-- However often they come up, no place gets more than two items ahead. -/
theorem Rotates.close (rotates : Rotates size start out back) (j k : Fin m) :
    size j ≤ size k + 2 :=
  turns_close (fun _ => 0) (fun _ => 0) rotates j k

end Rotation

end BurstBuffer.Library
