import Mathlib.Data.Tree.Basic
import Mathlib.Algebra.Order.Ring.Int
import Mathlib.Data.List.Nodup
import Mathlib.Order.Defs.LinearOrder

/-!
# Ordered trees

Binary trees whose values carry keys: what it means that the keys are in order,
rotations, search, the leftmost node and changing one value. The values of a tree
in order are a list, and facts about order are facts about that list.
-/
namespace BurstBuffer.Library

namespace SearchTree

open BinaryTree

universe u v w

variable {α : Type u} {β : Type v} {κ : Type w}

/-- The values of a tree from left to right. -/
def inorder : BinaryTree α → List α
  | nil => []
  | node a l r => inorder l ++ a :: inorder r

@[simp] theorem inorder_nil : inorder (nil : BinaryTree α) = [] := rfl

@[simp] theorem inorder_node (a : α) (l r : BinaryTree α) :
    inorder (node a l r) = inorder l ++ a :: inorder r := rfl

theorem length_inorder (t : BinaryTree α) : (inorder t).length = t.numNodes := by
  induction t with
  | nil => rfl
  | node a l r left right =>
    rw [inorder_node, List.length_append, List.length_cons, left, right, numNodes]
    omega

/-- The left child becomes the root. -/
def rotateRight : BinaryTree α → BinaryTree α
  | node y (node x a b) c => node x a (node y b c)
  | t => t

/-- The right child becomes the root. -/
def rotateLeft : BinaryTree α → BinaryTree α
  | node x a (node y b c) => node y (node x a b) c
  | t => t

@[simp] theorem inorder_rotateRight (t : BinaryTree α) : inorder (rotateRight t) = inorder t := by
  cases t with
  | nil => rfl
  | node y l c =>
    cases l with
    | nil => rfl
    | node x a b => simp [rotateRight]

@[simp] theorem inorder_rotateLeft (t : BinaryTree α) : inorder (rotateLeft t) = inorder t := by
  cases t with
  | nil => rfl
  | node x a r =>
    cases r with
    | nil => rfl
    | node y b c => simp [rotateLeft]

/-- The value of the leftmost node. -/
def leftmost : BinaryTree α → Option α
  | nil => none
  | node a nil _ => some a
  | node _ (node b l r) _ => leftmost (node b l r)

/-- The leftmost value is the first one. -/
theorem inorder_leftmost {t : BinaryTree α} {a : α} (found : leftmost t = some a) :
    ∃ rest, inorder t = a :: rest := by
  induction t with
  | nil => cases found
  | node b l r left right =>
    cases l with
    | nil =>
      cases found
      exact ⟨inorder r, rfl⟩
    | node c l' r' =>
      obtain ⟨rest, first⟩ := left found
      rw [inorder_node, first]
      exact ⟨rest ++ b :: inorder r, rfl⟩

theorem leftmost_node (a : α) (l r : BinaryTree α) : ∃ b, leftmost (node a l r) = some b := by
  induction l generalizing a r with
  | nil => exact ⟨a, rfl⟩
  | node c l' r' left right => exact left c r'

/-- Without repeated keys, a value of a list stands before the values with other keys. -/
theorem perm_cons_filter [DecidableEq κ] {key : α → κ} {l : List α} {a : α}
    (distinct : (l.map key).Nodup) (member : a ∈ l) :
    l.Perm (a :: l.filter fun b => key b ≠ key a) := by
  induction l with
  | nil => cases member
  | cons b l ih =>
    rw [List.map_cons, List.nodup_cons] at distinct
    obtain ⟨absent, rest⟩ := distinct
    by_cases same : key b = key a
    · have here : a = b := by
        rcases List.mem_cons.mp member with here | there
        · exact here
        · exact absurd (List.mem_map.mpr ⟨a, there, same.symm⟩) absent
      subst here
      have others : ∀ b ∈ l, decide (key b ≠ key a) = true := fun b inside =>
        decide_eq_true fun equal => absent (List.mem_map.mpr ⟨b, inside, equal⟩)
      rw [List.filter_cons_of_neg (by simp), List.filter_eq_self.mpr others]
    · have there : a ∈ l := by
        rcases List.mem_cons.mp member with rfl | there
        · exact absurd rfl same
        · exact there
      rw [List.filter_cons_of_pos (by simpa using same)]
      exact ((ih rest there).cons b).trans (.swap a b _)

section Order

variable [LinearOrder κ] (key : α → κ)

/-- Left of every node the keys are smaller and right of it they are larger. -/
def Ordered : BinaryTree α → Prop
  | nil => True
  | node a l r => (∀ b ∈ inorder l, key b < key a) ∧ (∀ b ∈ inorder r, key a < key b) ∧
      Ordered l ∧ Ordered r

/-- A tree is in order when its list of values is. -/
theorem ordered_iff {t : BinaryTree α} :
    Ordered key t ↔ (inorder t).Pairwise fun a b => key a < key b := by
  induction t with
  | nil => simp [Ordered]
  | node a l r left right =>
    rw [inorder_node, List.pairwise_append, List.pairwise_cons, Ordered, left, right]
    constructor
    · rintro ⟨below, above, first, last⟩
      refine ⟨first, ⟨above, last⟩, fun b member c member' => ?_⟩
      rcases List.mem_cons.mp member' with rfl | behind
      · exact below b member
      · exact lt_trans (below b member) (above c behind)
    · rintro ⟨first, ⟨above, last⟩, across⟩
      exact ⟨fun b member => across b member a List.mem_cons_self, above, first, last⟩

variable {key} {t : BinaryTree α}

/-- In order, no two values have the same key. -/
theorem Ordered.nodup_keys (ordered : Ordered key t) : ((inorder t).map key).Nodup := by
  have sorted := (ordered_iff key).mp ordered
  exact List.pairwise_map.mpr (sorted.imp fun less => ne_of_lt less)

theorem Ordered.nodup (ordered : Ordered key t) : (inorder t).Nodup :=
  List.Nodup.of_map key ordered.nodup_keys

theorem Ordered.eq_of_key {a b : α} (ordered : Ordered key t) (here : a ∈ inorder t)
    (there : b ∈ inorder t) (same : key a = key b) : a = b :=
  List.inj_on_of_nodup_map ordered.nodup_keys here there same

/-- The search for a key. -/
def find (key : α → κ) (k : κ) : BinaryTree α → Option α
  | nil => none
  | node a l r =>
    if k = key a then some a else if k < key a then find key k l else find key k r

/-- Search finds the value with the key. -/
theorem find_eq_some_iff {k : κ} {a : α} (ordered : Ordered key t) :
    find key k t = some a ↔ a ∈ inorder t ∧ key a = k := by
  induction t with
  | nil => simp [find]
  | node b l r left right =>
    obtain ⟨below, above, first, last⟩ := ordered
    rw [find, inorder_node, List.mem_append, List.mem_cons]
    split
    · next here =>
      constructor
      · rintro ⟨⟩
        exact ⟨.inr (.inl rfl), here.symm⟩
      · rintro ⟨inLeft | rfl | inRight, same⟩
        · exact absurd (same.trans here) (ne_of_lt (below a inLeft))
        · rfl
        · exact absurd (same.trans here) (ne_of_gt (above a inRight))
    · next elsewhere =>
      split
      · next less =>
        rw [left first]
        constructor
        · rintro ⟨member, same⟩
          exact ⟨.inl member, same⟩
        · rintro ⟨inLeft | rfl | inRight, same⟩
          · exact ⟨inLeft, same⟩
          · exact absurd same.symm elsewhere
          · exact absurd (above a inRight) (not_lt_of_gt (same ▸ less))
      · next notLess =>
        rw [right last]
        constructor
        · rintro ⟨member, same⟩
          exact ⟨.inr (.inr member), same⟩
        · rintro ⟨inLeft | rfl | inRight, same⟩
          · exact absurd (same ▸ below a inLeft) notLess
          · exact absurd same.symm elsewhere
          · exact ⟨inRight, same⟩

/-- Change the value that the search for a key finds. -/
def change (key : α → κ) (f : α → α) (k : κ) : BinaryTree α → BinaryTree α
  | nil => nil
  | node a l r =>
    if k = key a then node (f a) l r
    else if k < key a then node a (change key f k l) r else node a l (change key f k r)

@[simp] theorem height_change (f : α → α) (k : κ) (t : BinaryTree α) :
    (change key f k t).height = t.height := by
  induction t with
  | nil => rfl
  | node a l r left right =>
    rw [change]
    split
    · rfl
    · split
      · rw [height, height, left]
      · rw [height, height, right]

/-- What the change does not touch stays as it is. -/
theorem map_inorder_change {f : α → α} {g : α → β} (stays : ∀ a, g (f a) = g a) (k : κ)
    (t : BinaryTree α) : (inorder (change key f k t)).map g = (inorder t).map g := by
  induction t with
  | nil => rfl
  | node a l r left right =>
    rw [change, inorder_node, List.map_append, List.map_cons]
    split
    · rw [inorder_node, List.map_append, List.map_cons, stays]
    · split
      · rw [inorder_node, List.map_append, List.map_cons, left]
      · rw [inorder_node, List.map_append, List.map_cons, right]

theorem map_change_eq_self {f : α → α} {k : κ} {l : List α} (absent : ∀ a ∈ l, key a ≠ k) :
    l.map (fun a => if key a = k then f a else a) = l := by
  have same : l.map (fun a => if key a = k then f a else a) = l.map id :=
    List.map_congr_left fun a member => if_neg (absent a member)
  rw [same, List.map_id]

/-- In order, the values are as before, but for the one with the key. -/
theorem inorder_change {f : α → α} {k : κ} (ordered : Ordered key t) :
    inorder (change key f k t) = (inorder t).map fun a => if key a = k then f a else a := by
  induction t with
  | nil => rfl
  | node a l r left right =>
    obtain ⟨below, above, first, last⟩ := ordered
    rw [change, inorder_node, List.map_append, List.map_cons]
    split
    · next here =>
      rw [map_change_eq_self, map_change_eq_self, if_pos here.symm, inorder_node]
      · intro b member same
        exact absurd (same.trans here) (ne_of_gt (above b member))
      · intro b member same
        exact absurd (same.trans here) (ne_of_lt (below b member))
    · next elsewhere =>
      rw [if_neg (Ne.symm elsewhere)]
      split
      · next less =>
        rw [inorder_node, left first, map_change_eq_self (l := inorder r)]
        rintro b member rfl
        exact absurd (above b member) (not_lt_of_gt less)
      · next notLess =>
        rw [inorder_node, right last, map_change_eq_self (l := inorder l)]
        rintro b member rfl
        exact absurd (below b member) notLess

end Order

end SearchTree

end BurstBuffer.Library
