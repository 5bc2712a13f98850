import Mathlib.Logic.Function.Basic

/-!
# Files as bytes, read and written in blocks

A file is a function from byte positions to bytes; bytes past the end read as
the function says. `writeAt` overwrites one block, `writeRun` several blocks one
after the other, as one gathered write does. Reading back at block numbers is
`readBlock_writeBlock` and `readBlock_writeRun`, and for a batch of items that
carry consecutive block numbers the two rules of the section `Keyed`.
-/
namespace BurstBuffer.Library

variable {β : Type*} {n : Nat}

abbrev File (β : Type*) := Nat → β

def readAt (n : Nat) (f : File β) (offset : Nat) : Fin n → β := fun i => f (offset + i.val)

def writeAt (f : File β) (offset : Nat) (b : Fin n → β) : File β := fun p =>
  if h : offset ≤ p ∧ p < offset + n then b ⟨p - offset, by omega⟩ else f p

def writeRun (f : File β) (offset : Nat) : List (Fin n → β) → File β
  | [] => f
  | b :: rest => writeRun (writeAt f offset b) (offset + n) rest

/-- The `k`-th block of the file. -/
def readBlock (n : Nat) (f : File β) (k : Nat) : Fin n → β := readAt n f (n * k)

theorem readAt_writeAt_same (f : File β) (offset : Nat) (b : Fin n → β) :
    readAt n (writeAt f offset b) offset = b := by
  funext i
  have inside : offset ≤ offset + i.val ∧ offset + i.val < offset + n := by omega
  simp [readAt, writeAt, inside]

theorem readAt_writeAt_apart (f : File β) (offset other : Nat) (b : Fin n → β)
    (apart : other + n ≤ offset ∨ offset + n ≤ other) :
    readAt n (writeAt f offset b) other = readAt n f other := by
  funext i
  have outside : ¬ (offset ≤ other + i.val ∧ other + i.val < offset + n) := by omega
  simp [readAt, writeAt, outside]

/-- Different blocks do not overlap. -/
theorem blocks_apart (n : Nat) {j k : Nat} (different : j ≠ k) :
    n * j + n ≤ n * k ∨ n * k + n ≤ n * j := by
  rcases Nat.lt_or_gt_of_ne different with less | more
  · exact Or.inl (by simpa [Nat.mul_succ] using Nat.mul_le_mul_left n less)
  · exact Or.inr (by simpa [Nat.mul_succ] using Nat.mul_le_mul_left n more)

theorem readBlock_writeBlock (f : File β) (k j : Nat) (b : Fin n → β) :
    readBlock n (writeAt f (n * k) b) j = if j = k then b else readBlock n f j := by
  by_cases equal : j = k
  · subst j
    rw [if_pos rfl]
    exact readAt_writeAt_same f (n * k) b
  · rw [if_neg equal]
    exact readAt_writeAt_apart f (n * k) (n * j) b (blocks_apart n equal)

/-- A gathered write of `blocks` from block `k` on replaces exactly the blocks
`k .. k + blocks.length - 1`. -/
theorem readBlock_writeRun (blocks : List (Fin n → β)) (f : File β) (k j : Nat) :
    readBlock n (writeRun f (n * k) blocks) j =
      if j < k then readBlock n f j else blocks.getD (j - k) (readBlock n f j) := by
  induction blocks generalizing f k with
  | nil => simp [writeRun]
  | cons b rest ih =>
    rw [writeRun, ← Nat.mul_succ, ih, readBlock_writeBlock]
    by_cases before : j < k
    · have next : j < k + 1 := by omega
      rw [if_pos next, if_pos before, if_neg (by omega)]
    · by_cases first : j = k
      · subst j
        simp
      · obtain ⟨d, rfl⟩ : ∃ d, j = k + (d + 1) := ⟨j - k - 1, by omega⟩
        rw [if_neg (by omega), if_neg before, if_neg first]
        rw [show k + (d + 1) - (k + 1) = d by omega, show k + (d + 1) - k = d + 1 by omega]
        simp

section Keyed

variable {ι : Type*} {key : ι → Nat} {content : ι → Fin n → β} {batch : List ι} {start : Nat}

/-- A gathered write of items with consecutive block numbers puts each at its own. -/
theorem readBlock_writeRun_member (f : File β)
    (run : ∀ (k : Nat) i, batch[k]? = some i → key i = start + k) {i : ι} (member : i ∈ batch) :
    readBlock n (writeRun f (n * start) (batch.map content)) (key i) = content i := by
  obtain ⟨k, here⟩ := List.mem_iff_getElem?.mp member
  rw [run k i here, readBlock_writeRun, if_neg (by omega), Nat.add_sub_cancel_left,
    List.getD_eq_getElem?_getD, List.getElem?_map, here]
  rfl

/-- It leaves every other block alone. -/
theorem readBlock_writeRun_other (f : File β)
    (run : ∀ (k : Nat) i, batch[k]? = some i → key i = start + k) {j : Nat}
    (apart : ∀ i ∈ batch, key i ≠ j) :
    readBlock n (writeRun f (n * start) (batch.map content)) j = readBlock n f j := by
  rw [readBlock_writeRun]
  split
  · rfl
  · rename_i after
    rw [List.getD_eq_getElem?_getD, List.getElem?_map]
    cases here : batch[j - start]? with
    | none => rfl
    | some i =>
      have found := run _ i here
      exact absurd (by omega) (apart i (List.mem_of_getElem? here))

/-- It does what single writes of the items do, one after the other. -/
theorem writeRun_eq_foldl (f : File β)
    (run : ∀ (k : Nat) i, batch[k]? = some i → key i = start + k) :
    writeRun f (n * start) (batch.map content) =
      batch.foldl (fun f i => writeAt f (n * key i) (content i)) f := by
  induction batch generalizing f start with
  | nil => rfl
  | cons i rest ih =>
    have first : key i = start := run 0 i rfl
    have later : ∀ (k : Nat) j, rest[k]? = some j → key j = start + 1 + k := by
      intro k j here
      rw [run (k + 1) j here]
      omega
    rw [List.map_cons, writeRun, List.foldl_cons, ← Nat.mul_succ, ih _ later, first]

end Keyed

end BurstBuffer.Library
