import Mathlib.Data.List.Perm.Basic
import BurstBuffer.Library.SearchTree

/-!
# Height-balanced trees

Insertion and deletion in ordered trees, with the rotations that keep the heights
of the two children of every node within one of each other. An insertion finds
its rotation by comparing keys, a deletion by comparing heights. Both change the
height of the tree by at most one.
-/
namespace BurstBuffer.Library

namespace AvlTree

open BinaryTree SearchTree

universe u v w

variable {α : Type u} {β : Type v} {κ : Type w} {a b : α} {l r t : BinaryTree α}

/-- The heights of the children of every node differ by at most one. -/
def Balanced : BinaryTree α → Prop
  | nil => True
  | node _ l r => l.height ≤ r.height + 1 ∧ r.height ≤ l.height + 1 ∧ Balanced l ∧ Balanced r

/-- A balanced tree is low: twice the height needs the square of the nodes. -/
theorem two_pow_half_height_le (balanced : Balanced t) : 2 ^ (t.height / 2) ≤ t.numNodes + 1 := by
  induction t with
  | nil => simp
  | node a l r left right =>
    obtain ⟨low, high, first, last⟩ := balanced
    have leftNodes := left first
    have rightNodes := right last
    rw [height, numNodes]
    by_cases leaf : max l.height r.height = 0
    · rw [leaf]
      exact Nat.succ_le_succ (Nat.zero_le _)
    · have half : (max l.height r.height + 1) / 2 =
          (max l.height r.height + 1) / 2 - 1 + 1 := by omega
      have leftPow : 2 ^ ((max l.height r.height + 1) / 2 - 1) ≤ 2 ^ (l.height / 2) :=
        Nat.pow_le_pow_right Nat.two_pos (by omega)
      have rightPow : 2 ^ ((max l.height r.height + 1) / 2 - 1) ≤ 2 ^ (r.height / 2) :=
        Nat.pow_le_pow_right Nat.two_pos (by omega)
      rw [half, Nat.pow_succ]
      omega

section Insert

variable [LinearOrder κ] (key : α → κ)

/-- The rotations after an insertion of the key `k` below a node. -/
def settleInsert (k : κ) (a : α) (l r : BinaryTree α) : BinaryTree α :=
  if r.height + 1 < l.height then
    match l with
    | nil => node a l r
    | node b _ _ =>
      if k < key b then rotateRight (node a l r)
      else if key b < k then rotateRight (node a (rotateLeft l) r) else node a l r
  else if l.height + 1 < r.height then
    match r with
    | nil => node a l r
    | node b _ _ =>
      if key b < k then rotateLeft (node a l r)
      else if k < key b then rotateLeft (node a l (rotateRight r)) else node a l r
  else node a l r

/-- Insertion; a key that is there already goes to the right. -/
def insert (x : α) : BinaryTree α → BinaryTree α
  | nil => node x nil nil
  | node a l r =>
    if key x < key a then settleInsert key (key x) a (insert x l) r
    else settleInsert key (key x) a l (insert x r)

theorem inorder_settleInsert (k : κ) (a : α) (l r : BinaryTree α) :
    inorder (settleInsert key k a l r) = inorder l ++ a :: inorder r := by
  unfold settleInsert
  split
  · cases l with
    | nil => rfl
    | node b l' r' =>
      dsimp only
      split
      · rw [inorder_rotateRight, inorder_node a]
      · split
        · rw [inorder_rotateRight, inorder_node a, inorder_rotateLeft]
        · rw [inorder_node a]
  · split
    · cases r with
      | nil => rfl
      | node b l' r' =>
        dsimp only
        split
        · rw [inorder_rotateLeft, inorder_node a]
        · split
          · rw [inorder_rotateLeft, inorder_node a, inorder_rotateRight]
          · rw [inorder_node a]
    · rfl

/-- Insertion adds the value. -/
theorem inorder_insert (x : α) (t : BinaryTree α) :
    (inorder (insert key x t)).Perm (x :: inorder t) := by
  induction t with
  | nil => exact List.Perm.refl _
  | node a l r left right =>
    rw [insert, inorder_node]
    split
    · rw [inorder_settleInsert]
      exact left.append_right (a :: inorder r)
    · rw [inorder_settleInsert]
      have moved : (a :: inorder (insert key x r)).Perm (x :: a :: inorder r) :=
        (right.cons a).trans (.swap x a _)
      exact (moved.append_left (inorder l)).trans List.perm_middle

theorem mem_insert {x : α} : b ∈ inorder (insert key x t) ↔ b = x ∨ b ∈ inorder t := by
  rw [(inorder_insert key x t).mem_iff, List.mem_cons]

variable {key}

/-- A new key is inserted in order. -/
theorem ordered_insert {x : α} (ordered : Ordered key t)
    (absent : ∀ a ∈ inorder t, key a ≠ key x) : Ordered key (insert key x t) := by
  induction t with
  | nil =>
    rw [insert, ordered_iff]
    exact List.pairwise_singleton _ _
  | node a l r left right =>
    rw [inorder_node] at absent
    obtain ⟨below, above, first, last⟩ := ordered
    have inLeft : ∀ b ∈ inorder l, key b ≠ key x :=
      fun b member => absent b (List.mem_append_left _ member)
    have here : key a ≠ key x := absent a (List.mem_append_right _ List.mem_cons_self)
    have inRight : ∀ b ∈ inorder r, key b ≠ key x := fun b member =>
      absent b (List.mem_append_right _ (List.mem_cons_of_mem a member))
    rw [insert]
    split
    · next less =>
      have grown : Ordered key (node a (insert key x l) r) := by
        refine ⟨fun b member => ?_, above, left first inLeft, last⟩
        rcases (mem_insert key).mp member with rfl | old
        · exact less
        · exact below b old
      rw [ordered_iff, inorder_settleInsert]
      exact (ordered_iff key).mp grown
    · next notLess =>
      have less : key a < key x := lt_of_le_of_ne (not_lt.mp notLess) here
      have grown : Ordered key (node a l (insert key x r)) := by
        refine ⟨below, fun b member => ?_, first, right last inRight⟩
        rcases (mem_insert key).mp member with rfl | old
        · exact less
        · exact above b old
      rw [ordered_iff, inorder_settleInsert]
      exact (ordered_iff key).mp grown

/-- Where a tree has grown by the insertion of `k`: it is new, or higher on the side of `k`. -/
def Grown (key : α → κ) (k : κ) : BinaryTree α → Prop
  | nil => False
  | node b l r => (l = nil ∧ r = nil) ∨ (k < key b ∧ l.height = r.height + 1) ∨
      (key b < k ∧ r.height = l.height + 1)

/-- What an insertion of `k` makes of a balanced tree of height `h`. -/
structure Inserted (key : α → κ) (k : κ) (h : Nat) (t : BinaryTree α) : Prop where
  balanced : Balanced t
  grows : t.height = h ∨ t.height = h + 1 ∧ Grown key k t

theorem Inserted.settle_left {k : κ} {l' : BinaryTree α} (inserted : Inserted key k l.height l')
    (balanced : Balanced (node a l r)) (less : k < key a) :
    Inserted key k (node a l r).height (settleInsert key k a l' r) := by
  obtain ⟨low, high, _, right⟩ := balanced
  obtain ⟨left, grows⟩ := inserted
  unfold settleInsert
  split
  · next tall =>
    have grown : Grown key k l' := by
      rcases grows with same | ⟨_, grown⟩
      · omega
      · exact grown
    cases l' with
    | nil => cases grown
    | node b p q =>
      obtain ⟨near, far, first, second⟩ := left
      simp only [height] at tall grows low ⊢
      rcases grown with ⟨rfl, rfl⟩ | ⟨before, higher⟩ | ⟨behind, higher⟩
      · simp only [height] at tall
        omega
      · rw [if_pos before, rotateRight]
        refine ⟨⟨?_, ?_, first, by omega, by omega, second, right⟩, .inl ?_⟩ <;>
          simp only [height] <;> omega
      · rw [if_neg (lt_asymm behind), if_pos behind]
        cases q with
        | nil =>
          simp only [height] at higher
          omega
        | node c q₁ q₂ =>
          obtain ⟨close, wide, third, fourth⟩ := second
          simp only [height] at higher tall grows
          rw [rotateLeft, rotateRight]
          refine ⟨⟨?_, ?_, ⟨by omega, by omega, first, third⟩, by omega, by omega, fourth, right⟩,
            .inl ?_⟩ <;> simp only [height] <;> omega
  · next short =>
    rw [if_neg (by omega)]
    refine ⟨⟨by omega, by omega, left, right⟩, ?_⟩
    by_cases same : (node a l' r).height = (node a l r).height
    · exact .inl same
    · simp only [height] at same ⊢
      exact .inr ⟨by omega, .inr (.inl ⟨less, by omega⟩)⟩

theorem Inserted.settle_right {k : κ} {r' : BinaryTree α} (inserted : Inserted key k r.height r')
    (balanced : Balanced (node a l r)) (less : key a < k) :
    Inserted key k (node a l r).height (settleInsert key k a l r') := by
  obtain ⟨low, high, left, _⟩ := balanced
  obtain ⟨right, grows⟩ := inserted
  unfold settleInsert
  rw [if_neg (by omega)]
  split
  · next tall =>
    have grown : Grown key k r' := by
      rcases grows with same | ⟨_, grown⟩
      · omega
      · exact grown
    cases r' with
    | nil => cases grown
    | node b p q =>
      obtain ⟨near, far, first, second⟩ := right
      simp only [height] at tall grows high ⊢
      rcases grown with ⟨rfl, rfl⟩ | ⟨before, higher⟩ | ⟨behind, higher⟩
      · simp only [height] at tall
        omega
      · rw [if_neg (lt_asymm before), if_pos before]
        cases p with
        | nil =>
          simp only [height] at higher
          omega
        | node c p₁ p₂ =>
          obtain ⟨close, wide, third, fourth⟩ := first
          simp only [height] at higher tall grows
          rw [rotateRight, rotateLeft]
          refine ⟨⟨?_, ?_, ⟨by omega, by omega, left, third⟩, by omega, by omega, fourth, second⟩,
            .inl ?_⟩ <;> simp only [height] <;> omega
      · rw [if_pos behind, rotateLeft]
        refine ⟨⟨?_, ?_, ⟨by omega, by omega, left, first⟩, second⟩, .inl ?_⟩ <;>
          simp only [height] <;> omega
  · next short =>
    refine ⟨⟨by omega, by omega, left, right⟩, ?_⟩
    by_cases same : (node a l r').height = (node a l r).height
    · exact .inl same
    · simp only [height] at same ⊢
      exact .inr ⟨by omega, .inr (.inr ⟨less, by omega⟩)⟩

/-- Insertion of a new key keeps the balance. -/
theorem inserted_insert {x : α} (ordered : Ordered key t) (balanced : Balanced t)
    (absent : ∀ a ∈ inorder t, key a ≠ key x) :
    Inserted key (key x) t.height (insert key x t) := by
  induction t with
  | nil => exact ⟨⟨by simp, by simp, trivial, trivial⟩, .inr ⟨rfl, .inl ⟨rfl, rfl⟩⟩⟩
  | node a l r left right =>
    rw [inorder_node] at absent
    obtain ⟨_, _, first, last⟩ := ordered
    rw [insert]
    split
    · next less =>
      have inLeft : ∀ b ∈ inorder l, key b ≠ key x :=
        fun b member => absent b (List.mem_append_left _ member)
      exact (left first balanced.2.2.1 inLeft).settle_left balanced less
    · next notLess =>
      have here : key a ≠ key x := absent a (List.mem_append_right _ List.mem_cons_self)
      have inRight : ∀ b ∈ inorder r, key b ≠ key x := fun b member =>
        absent b (List.mem_append_right _ (List.mem_cons_of_mem a member))
      have less : key a < key x := lt_of_le_of_ne (not_lt.mp notLess) here
      exact (right last balanced.2.2.2 inRight).settle_right balanced less

end Insert

section Erase

/-- The rotations after a deletion below a node. -/
def settleErase (a : α) (l r : BinaryTree α) : BinaryTree α :=
  if r.height + 1 < l.height then
    if l.right.height ≤ l.left.height then rotateRight (node a l r)
    else rotateRight (node a (rotateLeft l) r)
  else if l.height + 1 < r.height then
    if r.left.height ≤ r.right.height then rotateLeft (node a l r)
    else rotateLeft (node a l (rotateRight r))
  else node a l r

/-- The tree without its root `a`: an only child takes its place, or else the
leftmost value of the right subtree, which `drop` deletes there. `move a b` is the
value `b` in the place of `a`. -/
def eraseRoot (key : α → κ) (move : α → α → α) (a : α) :
    BinaryTree α → BinaryTree α → (κ → BinaryTree α) → BinaryTree α
  | nil, nil, _ => nil
  | nil, node b l r, _ => settleErase (move a b) l r
  | node b l r, nil, _ => settleErase (move a b) l r
  | node b l r, node c l' r', drop =>
    match leftmost (node c l' r') with
    | none => nil
    | some m => settleErase (move a m) (node b l r) (drop (key m))

/-- Deletion of a key. -/
def erase [LinearOrder κ] (key : α → κ) (move : α → α → α) (k : κ) : BinaryTree α → BinaryTree α
  | nil => nil
  | node a l r =>
    if k < key a then settleErase a (erase key move k l) r
    else if key a < k then settleErase a l (erase key move k r)
    else eraseRoot key move a l r fun m => erase key move m r

theorem inorder_settleErase (a : α) (l r : BinaryTree α) :
    inorder (settleErase a l r) = inorder l ++ a :: inorder r := by
  unfold settleErase
  split
  · split
    · rw [inorder_rotateRight, inorder_node]
    · rw [inorder_rotateRight, inorder_node, inorder_rotateLeft]
  · split
    · split
      · rw [inorder_rotateLeft, inorder_node]
      · rw [inorder_rotateLeft, inorder_node, inorder_rotateRight]
    · rfl

/-- What a deletion makes of a balanced tree of height `h`. -/
structure Shrunk (h : Nat) (t : BinaryTree α) : Prop where
  balanced : Balanced t
  upper : t.height ≤ h
  lower : h ≤ t.height + 1

theorem Shrunk.refl (balanced : Balanced t) : Shrunk t.height t :=
  ⟨balanced, Nat.le_refl _, Nat.le_succ _⟩

/-- Only one of the subtrees is lower than before, and their heights were close. -/
theorem Shrunk.settle {hl hr : Nat} (left : Shrunk hl l) (right : Shrunk hr r)
    (near : hl ≤ hr + 1) (far : hr ≤ hl + 1) (one : l.height = hl ∨ r.height = hr) :
    Shrunk (max hl hr + 1) (settleErase a l r) := by
  obtain ⟨leftOk, _, _⟩ := left
  obtain ⟨rightOk, _, _⟩ := right
  unfold settleErase
  split
  · next tall =>
    cases l with
    | nil => simp at tall
    | node b p q =>
      obtain ⟨close, wide, first, second⟩ := leftOk
      split
      · next even =>
        simp only [height, BinaryTree.left, BinaryTree.right] at *
        rw [rotateRight]
        refine ⟨⟨?_, ?_, first, by omega, by omega, second, rightOk⟩, ?_, ?_⟩ <;>
          simp only [height] <;> omega
      · next uneven =>
        simp only [height, BinaryTree.left, BinaryTree.right] at *
        cases q with
        | nil =>
          simp only [height] at uneven
          omega
        | node c q₁ q₂ =>
          obtain ⟨_, _, third, fourth⟩ := second
          simp only [height] at *
          rw [rotateLeft, rotateRight]
          refine ⟨⟨?_, ?_, ⟨by omega, by omega, first, third⟩, by omega, by omega, fourth,
            rightOk⟩, ?_, ?_⟩ <;> simp only [height] <;> omega
  · split
    · next tall =>
      cases r with
      | nil => simp at tall
      | node b p q =>
        obtain ⟨close, wide, first, second⟩ := rightOk
        split
        · next even =>
          simp only [height, BinaryTree.left, BinaryTree.right] at *
          rw [rotateLeft]
          refine ⟨⟨?_, ?_, ⟨by omega, by omega, leftOk, first⟩, second⟩, ?_, ?_⟩ <;>
            simp only [height] <;> omega
        · next uneven =>
          simp only [height, BinaryTree.left, BinaryTree.right] at *
          cases p with
          | nil =>
            simp only [height] at uneven
            omega
          | node c p₁ p₂ =>
            obtain ⟨_, _, third, fourth⟩ := first
            simp only [height] at *
            rw [rotateRight, rotateLeft]
            refine ⟨⟨?_, ?_, ⟨by omega, by omega, leftOk, third⟩, by omega, by omega, fourth,
              second⟩, ?_, ?_⟩ <;> simp only [height] <;> omega
    · exact ⟨⟨by omega, by omega, leftOk, rightOk⟩, by simp only [height]; omega,
        by simp only [height]; omega⟩

theorem children_nil (low : (node b l r).height ≤ 1) : l = nil ∧ r = nil := by
  rw [height] at low
  constructor
  · cases l with
    | nil => rfl
    | node a p q =>
      simp only [height] at low
      omega
  · cases r with
    | nil => rfl
    | node a p q =>
      simp only [height] at low
      omega

variable [LinearOrder κ] {key : α → κ} {move : α → α → α} {k : κ}

/-- Deletion keeps the balance. -/
theorem shrunk_erase (balanced : Balanced t) : Shrunk t.height (erase key move k t) := by
  induction t generalizing k with
  | nil => exact .refl trivial
  | node a l r left right =>
    obtain ⟨low, high, first, last⟩ := balanced
    rw [erase, height]
    split
    · exact (left first).settle (.refl last) low high (.inr rfl)
    · split
      · exact (Shrunk.refl first).settle (right last) low high (.inl rfl)
      · cases l with
        | nil =>
          cases r with
          | nil => exact ⟨trivial, Nat.zero_le _, Nat.le_refl _⟩
          | node b p q =>
            obtain ⟨rfl, rfl⟩ := children_nil high
            exact ⟨⟨Nat.zero_le _, Nat.zero_le _, trivial, trivial⟩, Nat.le_succ _, Nat.le_refl _⟩
        | node b p q =>
          cases r with
          | nil =>
            obtain ⟨rfl, rfl⟩ := children_nil low
            exact ⟨⟨Nat.zero_le _, Nat.zero_le _, trivial, trivial⟩, Nat.le_succ _, Nat.le_refl _⟩
          | node c p' q' =>
            obtain ⟨m, found⟩ := leftmost_node c p' q'
            rw [eraseRoot, found]
            exact (Shrunk.refl first).settle (right last) low high (.inl rfl)

section Entries

variable {f : α → β} {g : β → κ}

theorem filter_map_eq_self {vs : List α} (keys : ∀ a, g (f a) = key a)
    (absent : ∀ a ∈ vs, key a ≠ k) : ((vs.map f).filter fun b => g b ≠ k) = vs.map f := by
  apply List.filter_eq_self.mpr
  intro b member
  obtain ⟨a, inside, rfl⟩ := List.mem_map.mp member
  rw [keys]
  exact decide_eq_true (absent a inside)

theorem filter_cons_other {b : β} {bs : List β} (other : g b ≠ k) :
    ((b :: bs).filter fun b => g b ≠ k) = b :: bs.filter fun b => g b ≠ k := by
  simp [other]

theorem filter_cons_same {b : β} {bs : List β} (same : g b = k) :
    ((b :: bs).filter fun b => g b ≠ k) = bs.filter fun b => g b ≠ k := by
  simp [same]

/-- In order, the values left over are those with other keys, up to their places. -/
theorem inorder_erase (keys : ∀ a, g (f a) = key a) (moved : ∀ a b, f (move a b) = f b)
    (ordered : Ordered key t) :
    (inorder (erase key move k t)).map f = ((inorder t).map f).filter fun b => g b ≠ k := by
  induction t generalizing k with
  | nil => rfl
  | node a l r left right =>
    obtain ⟨below, above, first, last⟩ := ordered
    rw [erase, inorder_node, List.map_append, List.map_cons, List.filter_append]
    split
    · next less =>
      have keep : ∀ b ∈ inorder r, key b ≠ k := fun b member =>
        ne_of_gt (lt_trans less (above b member))
      have here : g (f a) ≠ k := by
        rw [keys]
        exact ne_of_gt less
      rw [inorder_settleErase, List.map_append, List.map_cons, left first,
        filter_cons_other here, filter_map_eq_self keys keep]
    · next notLess =>
      split
      · next less =>
        have keep : ∀ b ∈ inorder l, key b ≠ k := fun b member =>
          ne_of_lt (lt_trans (below b member) less)
        have here : g (f a) ≠ k := by
          rw [keys]
          exact ne_of_lt less
        rw [inorder_settleErase, List.map_append, List.map_cons, right last,
          filter_cons_other here, filter_map_eq_self keys keep]
      · next notMore =>
        have same : key a = k := le_antisymm (not_lt.mp notLess) (not_lt.mp notMore)
        have inLeft : ∀ b ∈ inorder l, key b ≠ k := fun b member =>
          same ▸ ne_of_lt (below b member)
        have inRight : ∀ b ∈ inorder r, key b ≠ k := fun b member =>
          same ▸ ne_of_gt (above b member)
        have here : g (f a) = k := (keys a).trans same
        rw [filter_cons_same here, filter_map_eq_self keys inLeft,
          filter_map_eq_self keys inRight]
        cases l with
        | nil =>
          cases r with
          | nil => rfl
          | node b p q =>
            rw [eraseRoot, inorder_settleErase, List.map_append, List.map_cons, moved]
            simp
        | node b p q =>
          cases r with
          | nil =>
            rw [eraseRoot, inorder_settleErase, List.map_append, List.map_cons, moved]
            simp
          | node c p' q' =>
            obtain ⟨m, found⟩ := leftmost_node c p' q'
            obtain ⟨rest, first'⟩ := inorder_leftmost found
            rw [eraseRoot, found]
            dsimp only
            rw [inorder_settleErase, List.map_append, List.map_cons, moved, right last, first',
              List.map_cons]
            have sorted := (ordered_iff key).mp last
            rw [first'] at sorted
            have behind : ∀ b ∈ rest, key b ≠ key m := fun b member =>
              ne_of_gt ((List.pairwise_cons.mp sorted).1 b member)
            rw [filter_cons_same (keys m), filter_map_eq_self keys behind]

end Entries

/-- Deletion keeps the order. -/
theorem ordered_erase (moved : ∀ a b, key (move a b) = key b) (ordered : Ordered key t) :
    Ordered key (erase key move k t) := by
  have sorted := List.pairwise_map.mpr ((ordered_iff key).mp ordered)
  have left : (inorder (erase key move k t)).map key =
      ((inorder t).map key).filter fun b => id b ≠ k :=
    inorder_erase (fun _ => rfl) moved ordered
  have rest : ((inorder (erase key move k t)).map key).Pairwise (· < ·) := by
    rw [left]
    exact sorted.filter _
  exact (ordered_iff key).mpr (List.pairwise_map.mp rest)

/-- What stays in place under `move` is among what was there before. -/
theorem sublist_erase {f : α → β} (stays : ∀ a b, f (move a b) = f a) (balanced : Balanced t) :
    ((inorder (erase key move k t)).map f).Sublist ((inorder t).map f) := by
  induction t generalizing k with
  | nil => exact List.Sublist.refl _
  | node a l r left right =>
    obtain ⟨low, high, first, last⟩ := balanced
    rw [erase, inorder_node, List.map_append, List.map_cons]
    split
    · rw [inorder_settleErase, List.map_append, List.map_cons]
      exact (left first).append_right _
    · split
      · rw [inorder_settleErase, List.map_append, List.map_cons]
        exact ((right last).cons_cons _).append_left _
      · cases l with
        | nil =>
          cases r with
          | nil => exact List.nil_sublist _
          | node b p q =>
            obtain ⟨rfl, rfl⟩ := children_nil high
            rw [eraseRoot, inorder_settleErase]
            simp [stays]
        | node b p q =>
          cases r with
          | nil =>
            obtain ⟨rfl, rfl⟩ := children_nil low
            rw [eraseRoot, inorder_settleErase]
            simp [stays]
          | node c p' q' =>
            obtain ⟨m, found⟩ := leftmost_node c p' q'
            rw [eraseRoot, found]
            dsimp only
            rw [inorder_settleErase, List.map_append, List.map_cons, stays]
            exact ((right last).cons_cons _).append_left _

end Erase

end AvlTree

end BurstBuffer.Library
