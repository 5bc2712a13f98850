import Mathlib.Data.Nat.Basic
import Mathlib.Tactic.ByContra

/-!
# Boundaries

The boundary behind a position, for tables that start at a multiple of a size. A
position on a boundary is skipped as well.
-/
namespace BurstBuffer.Library

def nextBoundary (size n : Nat) : Nat := n - n % size + size

variable {size n m stop : Nat}

theorem dvd_nextBoundary : size ∣ nextBoundary size n :=
  Nat.dvd_add (Nat.dvd_sub_mod n) (Nat.dvd_refl size)

theorem lt_nextBoundary (positive : 0 < size) : n < nextBoundary size n := by
  have rest := Nat.mod_lt n positive
  unfold nextBoundary
  omega

/-- Nothing lies between a position off the boundaries and the boundary behind it. -/
theorem nextBoundary_le (off : 0 < n % size) (boundary : size ∣ stop) (le : n ≤ stop) :
    nextBoundary size n ≤ stop := by
  obtain ⟨k, rfl⟩ := boundary
  have whole := Nat.div_add_mod n size
  have below : n / size < k := by
    by_contra above
    have product := Nat.mul_le_mul_left size (Nat.le_of_not_lt above)
    omega
  have next := Nat.mul_le_mul_left size (Nat.succ_le_of_lt below)
  rw [Nat.mul_succ] at next
  unfold nextBoundary
  omega

/-- A table of entries of the boundary's size keeps its room behind that boundary. -/
theorem nextBoundary_add_le (off : 0 < n % size) (boundary : size ∣ stop)
    (room : n + size * m ≤ stop) : nextBoundary size n + size * m ≤ stop := by
  have whole : size ∣ stop - size * m := Nat.dvd_sub boundary (Nat.dvd_mul_right size m)
  have le := nextBoundary_le off whole (Nat.le_sub_of_add_le room)
  omega

end BurstBuffer.Library
