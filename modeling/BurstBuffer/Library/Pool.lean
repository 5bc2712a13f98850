import Mathlib.Algebra.BigOperators.Pi
import Mathlib.Algebra.BigOperators.Ring.Finset
import Mathlib.Algebra.Order.BigOperators.Group.Finset
import Mathlib.Data.Fintype.BigOperators

/-!
# Pools: families of FIFO lists, and tallies of a state field

`copies F i` is the number of entries for `i` in all lists of the family `F`
together, `tally f a` the number of indices whose field is `a`. Both change by
one indicator when one list is extended or shortened, or one field overwritten.
-/
namespace BurstBuffer.Library

variable {κ ι α : Type*} [Fintype κ] [DecidableEq κ] [DecidableEq ι]

def copies (F : κ → List ι) (i : ι) : Nat := ∑ k, (F k).count i

theorem copies_update (F : κ → List ι) (k : κ) (l : List ι) (i : ι) :
    copies (Function.update F k l) i + (F k).count i = copies F i + l.count i := by
  have inside := Finset.mem_univ k
  unfold copies
  rw [← Finset.add_sum_erase _ _ inside, ← Finset.add_sum_erase (a := k) _ _ inside]
  have rest : ∀ j ∈ Finset.univ.erase k, (Function.update F k l j).count i = (F j).count i := by
    intro j other
    rw [Function.update_of_ne (Finset.ne_of_mem_erase other)]
  rw [Finset.sum_congr rfl rest, Function.update_self]
  omega

theorem copies_push (F : κ → List ι) (k : κ) (x i : ι) :
    copies (Function.update F k (F k ++ [x])) i = copies F i + if x = i then 1 else 0 := by
  have moved := copies_update F k (F k ++ [x]) i
  rw [List.count_append, List.count_singleton] at moved
  simp only [beq_iff_eq] at moved
  omega

theorem copies_pop {F : κ → List ι} {k : κ} {x : ι} {rest : List ι} (head : F k = x :: rest)
    (i : ι) : copies (Function.update F k rest) i + (if x = i then 1 else 0) = copies F i := by
  have moved := copies_update F k rest i
  rw [head, List.count_cons] at moved
  simp only [beq_iff_eq] at moved
  omega

omit [DecidableEq κ] in
theorem copies_eq_zero {F : κ → List ι} {i : ι} : copies F i = 0 ↔ ∀ k, i ∉ F k := by
  unfold copies
  rw [Finset.sum_eq_zero_iff]
  simp [List.count_eq_zero]

omit [DecidableEq κ] in
theorem copies_pos {F : κ → List ι} {i : ι} : 0 < copies F i ↔ ∃ k, i ∈ F k := by
  rw [Nat.pos_iff_ne_zero, Ne, copies_eq_zero]
  simp

/-- A single copy lies once in one list and in no other list. -/
theorem copies_eq_one {F : κ → List ι} {i : ι} :
    copies F i = 1 ↔ ∃ k, (F k).count i = 1 ∧ ∀ j, j ≠ k → i ∉ F j := by
  constructor
  · intro single
    obtain ⟨k, member⟩ := copies_pos.mp (single ▸ Nat.one_pos)
    have split := Finset.add_sum_erase Finset.univ (fun j => (F j).count i) (Finset.mem_univ k)
    have total : ∑ j, (F j).count i = 1 := single
    have here := List.count_pos_iff.mpr member
    have others : ∑ j ∈ Finset.univ.erase k, (F j).count i = 0 := by omega
    refine ⟨k, by omega, fun j other => ?_⟩
    have absent := Finset.sum_eq_zero_iff.mp others j (by simp [other])
    exact List.count_eq_zero.mp absent
  · rintro ⟨k, once, others⟩
    unfold copies
    have rest : ∑ j ∈ Finset.univ.erase k, (F j).count i = 0 :=
      Finset.sum_eq_zero fun j member =>
        List.count_eq_zero.mpr (others j (Finset.ne_of_mem_erase member))
    rw [← Finset.add_sum_erase _ _ (Finset.mem_univ k), once, rest]

omit [DecidableEq κ] in
theorem copies_nil (i : ι) : copies (fun _ : κ => []) i = 0 := by
  simp [copies]

omit [DecidableEq κ] in
theorem count_le_copies (F : κ → List ι) (k : κ) (i : ι) : (F k).count i ≤ copies F i := by
  classical
  unfold copies
  rw [← Finset.add_sum_erase _ _ (Finset.mem_univ k)]
  exact Nat.le_add_right _ _

omit [DecidableEq κ] in
/-- What is in at most one list is in no other one. -/
theorem eq_of_copies_le_one {F : κ → List ι} {i : ι} (single : copies F i ≤ 1) {j k : κ}
    (first : i ∈ F j) (second : i ∈ F k) : j = k := by
  classical
  have present := copies_pos.mpr ⟨j, first⟩
  obtain ⟨l, _, others⟩ := copies_eq_one.mp (Nat.le_antisymm single present)
  have home : j = l := by
    by_contra other
    exact others j other first
  have home' : k = l := by
    by_contra other
    exact others k other second
  rw [home, home']

/-- A thread that goes on moves what its program counter stands for. -/
theorem copies_goto {π : Type*} (f : π → List ι) (pcs : κ → π) (k : κ) (pc : π) (i : ι) :
    copies (fun j => f (Function.update pcs k pc j)) i + (f (pcs k)).count i =
      copies (fun j => f (pcs j)) i + (f pc).count i := by
  have moved : (fun j => f (Function.update pcs k pc j)) =
      Function.update (fun j => f (pcs j)) k (f pc) :=
    funext fun j => Function.apply_update (fun _ => f) pcs k pc j
  rw [moved]
  exact copies_update (fun j => f (pcs j)) k (f pc) i

/-- The number of all entries. -/
def poolSize (F : κ → List ι) : Nat := ∑ k, (F k).length

omit [DecidableEq ι] in
theorem poolSize_update (F : κ → List ι) (k : κ) (l : List ι) :
    poolSize (Function.update F k l) + (F k).length = poolSize F + l.length := by
  have inside := Finset.mem_univ k
  unfold poolSize
  rw [← Finset.add_sum_erase _ _ inside, ← Finset.add_sum_erase (a := k) _ _ inside]
  have rest : ∀ j ∈ Finset.univ.erase k,
      (Function.update F k l j).length = (F j).length := by
    intro j other
    rw [Function.update_of_ne (Finset.ne_of_mem_erase other)]
  rw [Finset.sum_congr rfl rest, Function.update_self]
  omega

omit [DecidableEq ι] in
theorem poolSize_goto {π : Type*} (f : π → List ι) (pcs : κ → π) (k : κ) (pc : π) :
    poolSize (fun j => f (Function.update pcs k pc j)) + (f (pcs k)).length =
      poolSize (fun j => f (pcs j)) + (f pc).length := by
  have moved : (fun j => f (Function.update pcs k pc j)) =
      Function.update (fun j => f (pcs j)) k (f pc) :=
    funext fun j => Function.apply_update (fun _ => f) pcs k pc j
  rw [moved]
  exact poolSize_update (fun j => f (pcs j)) k (f pc)

omit [DecidableEq κ] [DecidableEq ι] in
/-- Lists of at most one entry. -/
theorem poolSize_le_card {F : κ → List ι} (single : ∀ k, (F k).length ≤ 1) :
    poolSize F ≤ Fintype.card κ := by
  have bound := Finset.sum_le_card_nsmul Finset.univ (fun k => (F k).length) 1 fun k _ => single k
  simpa [poolSize] using bound

omit [DecidableEq κ] [DecidableEq ι] in
theorem poolSize_le {ι' : Type*} {F : κ → List ι} {G : κ → List ι'}
    (shorter : ∀ k, (F k).length ≤ (G k).length) : poolSize F ≤ poolSize G :=
  Finset.sum_le_sum fun k _ => shorter k

omit [DecidableEq κ] [DecidableEq ι] in
theorem poolSize_add_le {ι' ι'' : Type*} {F : κ → List ι} {G : κ → List ι'} {H : κ → List ι''}
    (part : ∀ k, (F k).length + (G k).length ≤ (H k).length) :
    poolSize F + poolSize G ≤ poolSize H := by
  unfold poolSize
  rw [← Finset.sum_add_distrib]
  exact Finset.sum_le_sum fun k _ => part k

omit [DecidableEq κ] [DecidableEq ι] in
theorem length_le_poolSize (F : κ → List ι) (k : κ) : (F k).length ≤ poolSize F := by
  classical
  unfold poolSize
  rw [← Finset.add_sum_erase _ _ (Finset.mem_univ k)]
  exact Nat.le_add_right _ _

/-- The entries of one list, index by index. -/
theorem sum_count [Fintype ι] (l : List ι) : ∑ i, l.count i = l.length := by
  have total := Multiset.sum_count_eq_card (s := Finset.univ) (m := (l : Multiset ι))
    fun i _ => Finset.mem_univ i
  simpa only [Multiset.coe_count, Multiset.coe_card] using total

omit [DecidableEq κ] in
theorem sum_copies [Fintype ι] (F : κ → List ι) : ∑ i, copies F i = poolSize F := by
  simp only [copies, poolSize]
  rw [Finset.sum_comm]
  exact Finset.sum_congr rfl fun k _ => sum_count (F k)

omit [DecidableEq κ] [DecidableEq ι] in
theorem poolSize_eq_zero {F : κ → List ι} : poolSize F = 0 ↔ ∀ k, F k = [] := by
  simp [poolSize, Finset.sum_eq_zero_iff]

section Tally

variable [Fintype ι] [DecidableEq α]

def tally (f : ι → α) (a : α) : Nat := (Finset.univ.filter fun i => f i = a).card

theorem tally_update (f : ι → α) (i : ι) (b a : α) :
    tally (Function.update f i b) a + (if f i = a then 1 else 0) =
      tally f a + if b = a then 1 else 0 := by
  unfold tally
  simp only [Finset.card_filter]
  have inside := Finset.mem_univ i
  rw [← Finset.add_sum_erase _ _ inside, ← Finset.add_sum_erase (a := i) _ _ inside]
  have rest : ∀ j ∈ Finset.univ.erase i,
      (if Function.update f i b j = a then 1 else 0) = if f j = a then 1 else 0 := by
    intro j other
    rw [Function.update_of_ne (Finset.ne_of_mem_erase other)]
  rw [Finset.sum_congr rfl rest, Function.update_self]
  omega

omit [DecidableEq ι] in
theorem tally_pos {f : ι → α} {i : ι} : 0 < tally f (f i) :=
  Finset.card_pos.mpr ⟨i, by simp⟩

omit [DecidableEq ι] in
theorem tally_const (a b : α) : tally (fun _ : ι => a) b = if a = b then Fintype.card ι else 0 := by
  unfold tally
  by_cases equal : a = b <;> simp [equal]

end Tally

end BurstBuffer.Library
