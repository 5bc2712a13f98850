import Mathlib.Order.Fin.Basic
import BurstBuffer.Library.AvlTree
import BurstBuffer.Source.AvlTree

/-!
# Trees in the heap

A tree of cells, each an address and what is stored there, lies in the heap when
every cell links the addresses of its children and stores the height of its
subtree. Rotations in the heap are the rotations of trees.
-/
namespace BurstBuffer.Source

open Library BinaryTree SearchTree AvlTree

variable {I : Type}

/-- What a node holds for its lbn. -/
structure TreeEntry (I : Type) where
  inode : I
  lbn : Lbn
  valid : TreeValid

abbrev Cell (I : Type) : Type := TreePtr × TreeEntry I

def Cell.lbn (c : Cell I) : Lbn := c.2.lbn

/-- The address of the root. -/
def rootOf : BinaryTree (Cell I) → Option TreePtr
  | nil => none
  | node c _ _ => some c.1

@[simp] theorem rootOf_node (c : Cell I) (l r : BinaryTree (Cell I)) :
    rootOf (node c l r) = some c.1 := rfl

def addresses (t : BinaryTree (Cell I)) : List TreePtr := (inorder t).map Prod.fst

def treeEntries (t : BinaryTree (Cell I)) : List (TreeEntry I) := (inorder t).map Prod.snd

/-- The node of the cell `c` over the subtrees `l` and `r`. -/
def nodeOf (c : Cell I) (l r : BinaryTree (Cell I)) (height : Int) : TreeNode I :=
  { inode := c.2.inode, lbn := Cell.lbn c, valid := c.2.valid, left := rootOf l, right := rootOf r,
    height := height }

/-- The tree lies in the heap. -/
def Laid (heap : TreeHeap I) : BinaryTree (Cell I) → Prop
  | nil => True
  | node c l r => heap c.1 = some (nodeOf c l r (node c l r).height) ∧ Laid heap l ∧ Laid heap r

section Heap

variable {heap heap' : TreeHeap I} {a b : TreePtr} {c : Cell I} {l r t : BinaryTree (Cell I)}
  {n : TreeNode I} {height : Int}

/-- The heap after a store of `n` at `a`, or after `a` is freed. -/
structure Wrote (heap heap' : TreeHeap I) (a : TreePtr) (n : Option (TreeNode I)) : Prop where
  here : heap' a = n
  others : ∀ b, b ≠ a → heap' b = heap b

theorem wrote_store : Wrote heap (heap.store a n) a (some n) :=
  ⟨Function.update_self .., fun _ other => Function.update_of_ne other ..⟩

theorem wrote_free : Wrote heap (heap.free a) a none :=
  ⟨Function.update_self .., fun _ other => Function.update_of_ne other ..⟩

theorem maxHeight_node (c : Cell I) (l r : BinaryTree (Cell I)) :
    maxHeight l.height r.height + 1 = (node c l r).height := by
  rw [maxHeight, BinaryTree.height]
  split <;> omega

@[simp] theorem addresses_nil : addresses (nil : BinaryTree (Cell I)) = [] := rfl

theorem addresses_node : addresses (node c l r) = addresses l ++ c.1 :: addresses r := by
  unfold addresses
  rw [inorder_node, List.map_append, List.map_cons]

theorem mem_addresses_node :
    a ∈ addresses (node c l r) ↔ a ∈ addresses l ∨ a = c.1 ∨ a ∈ addresses r := by
  rw [addresses_node, List.mem_append, List.mem_cons]

/-- The parts of a tree lie apart. -/
structure CellsApart (c : Cell I) (l r : BinaryTree (Cell I)) : Prop where
  left : (addresses l).Nodup
  right : (addresses r).Nodup
  notLeft : c.1 ∉ addresses l
  notRight : c.1 ∉ addresses r
  disjoint : ∀ a ∈ addresses l, a ∉ addresses r

theorem apart_iff : (addresses (node c l r)).Nodup ↔ CellsApart c l r := by
  rw [addresses_node, List.nodup_append, List.nodup_cons]
  constructor
  · rintro ⟨left, ⟨notRight, right⟩, across⟩
    refine ⟨left, right, fun member => ?_, notRight, fun a inLeft inRight => ?_⟩
    · exact across c.1 member c.1 List.mem_cons_self rfl
    · exact across a inLeft a (List.mem_cons_of_mem c.1 inRight) rfl
  · intro apart
    refine ⟨apart.left, ⟨apart.notRight, apart.right⟩, ?_⟩
    rintro a inLeft b member rfl
    rcases List.mem_cons.mp member with rfl | inRight
    · exact apart.notLeft inLeft
    · exact apart.disjoint a inLeft inRight

theorem CellsApart.replaceLeft {l' : BinaryTree (Cell I)} (apart : CellsApart c l r)
    (distinct : (addresses l').Nodup) (away : ∀ a ∈ addresses l', a ≠ c.1 ∧ a ∉ addresses r) :
    CellsApart c l' r where
  left := distinct
  right := apart.right
  notLeft := fun member => (away c.1 member).1 rfl
  notRight := apart.notRight
  disjoint := fun a member => (away a member).2

theorem CellsApart.replaceRight {r' : BinaryTree (Cell I)} (apart : CellsApart c l r)
    (distinct : (addresses r').Nodup) (away : ∀ a ∈ addresses r', a ≠ c.1 ∧ a ∉ addresses l) :
    CellsApart c l r' where
  left := apart.left
  right := distinct
  notLeft := apart.notLeft
  notRight := fun member => (away c.1 member).1 rfl
  disjoint := fun a inLeft member => (away a member).2 inLeft

/-- Only the memory of the tree matters. -/
theorem Laid.congr (same : ∀ a ∈ addresses t, heap' a = heap a) (laid : Laid heap t) :
    Laid heap' t := by
  induction t with
  | nil => trivial
  | node c l r left right =>
    obtain ⟨here, first, last⟩ := laid
    refine ⟨?_, left (fun a member => ?_) first, right (fun a member => ?_) last⟩
    · rw [same c.1 (mem_addresses_node.mpr (.inr (.inl rfl)))]
      exact here
    · exact same a (mem_addresses_node.mpr (.inl member))
    · exact same a (mem_addresses_node.mpr (.inr (.inr member)))

theorem Laid.wrote {m : Option (TreeNode I)} (laid : Laid heap t) (wrote : Wrote heap heap' a m)
    (outside : a ∉ addresses t) : Laid heap' t := by
  apply laid.congr
  intro b member
  apply wrote.others
  rintro rfl
  exact outside member

theorem Laid.getHeight (laid : Laid heap t) :
    getHeight heap (rootOf t) = some (t.height : Int) := by
  cases t with
  | nil => rfl
  | node c l r =>
    rw [rootOf, Source.getHeight, laid.1, Option.map_some, nodeOf]

theorem getBalance_nodeOf (here : heap c.1 = some (nodeOf c l r height)) (left : Laid heap l)
    (right : Laid heap r) :
    getBalance heap (some c.1) = some ((l.height : Int) - (r.height : Int)) := by
  have leftHeight := left.getHeight
  have rightHeight := right.getHeight
  simp only [getBalance, here, nodeOf, leftHeight, rightHeight, Option.bind_eq_bind,
    Option.bind_some]

theorem setLeft_nodeOf (here : heap c.1 = some (nodeOf c l r height)) (l' : BinaryTree (Cell I)) :
    ∃ heap', setLeft heap c.1 (rootOf l') = some heap' ∧
      Wrote heap heap' c.1 (some (nodeOf c l' r height)) := by
  refine ⟨_, ?_, wrote_store⟩
  rw [setLeft, here]
  rfl

theorem setRight_nodeOf (here : heap c.1 = some (nodeOf c l r height)) (r' : BinaryTree (Cell I)) :
    ∃ heap', setRight heap c.1 (rootOf r') = some heap' ∧
      Wrote heap heap' c.1 (some (nodeOf c l r' height)) := by
  refine ⟨_, ?_, wrote_store⟩
  rw [setRight, here]
  rfl

theorem updateHeight_nodeOf (here : heap c.1 = some (nodeOf c l r height)) (left : Laid heap l)
    (right : Laid heap r) :
    ∃ heap', updateHeight heap c.1 = some heap' ∧
      Wrote heap heap' c.1 (some (nodeOf c l r (node c l r).height)) := by
  refine ⟨_, ?_, wrote_store⟩
  have leftHeight := left.getHeight
  have rightHeight := right.getHeight
  simp only [updateHeight, here, nodeOf, leftHeight, rightHeight, Option.bind_eq_bind,
    Option.bind_some, maxHeight_node c l r]

/-- A new left subtree is linked, and the height is stored anew. -/
theorem relinkLeft {l' : BinaryTree (Cell I)} (here : heap c.1 = some (nodeOf c l r height))
    (left : Laid heap l') (right : Laid heap r) (notLeft : c.1 ∉ addresses l')
    (notRight : c.1 ∉ addresses r) :
    ∃ heap₁ heap₂, setLeft heap c.1 (rootOf l') = some heap₁ ∧ updateHeight heap₁ c.1 = some heap₂ ∧
      Laid heap₂ (node c l' r) ∧ ∀ a, a ≠ c.1 → heap₂ a = heap a := by
  obtain ⟨heap₁, linked, wrote₁⟩ := setLeft_nodeOf here l'
  have left₁ := left.wrote wrote₁ notLeft
  have right₁ := right.wrote wrote₁ notRight
  obtain ⟨heap₂, updated, wrote₂⟩ := updateHeight_nodeOf wrote₁.here left₁ right₁
  have laid₂ : Laid heap₂ (node c l' r) :=
    ⟨wrote₂.here, left₁.wrote wrote₂ notLeft, right₁.wrote wrote₂ notRight⟩
  refine ⟨heap₁, heap₂, linked, updated, laid₂, fun a other => ?_⟩
  rw [wrote₂.others a other, wrote₁.others a other]

theorem relinkRight {r' : BinaryTree (Cell I)} (here : heap c.1 = some (nodeOf c l r height))
    (left : Laid heap l) (right : Laid heap r') (notLeft : c.1 ∉ addresses l)
    (notRight : c.1 ∉ addresses r') :
    ∃ heap₁ heap₂, setRight heap c.1 (rootOf r') = some heap₁ ∧
      updateHeight heap₁ c.1 = some heap₂ ∧
      Laid heap₂ (node c l r') ∧ ∀ a, a ≠ c.1 → heap₂ a = heap a := by
  obtain ⟨heap₁, linked, wrote₁⟩ := setRight_nodeOf here r'
  have left₁ := left.wrote wrote₁ notLeft
  have right₁ := right.wrote wrote₁ notRight
  obtain ⟨heap₂, updated, wrote₂⟩ := updateHeight_nodeOf wrote₁.here left₁ right₁
  have laid₂ : Laid heap₂ (node c l r') :=
    ⟨wrote₂.here, left₁.wrote wrote₂ notLeft, right₁.wrote wrote₂ notRight⟩
  refine ⟨heap₁, heap₂, linked, updated, laid₂, fun a other => ?_⟩
  rw [wrote₂.others a other, wrote₁.others a other]

end Heap

/-- What an operation that returns the address `p` makes of the heap: the tree `t`
lies there, and the rest of the memory is as before. -/
structure Placed (heap heap' : TreeHeap I) (p : TreePtr) (t : BinaryTree (Cell I)) : Prop where
  root : rootOf t = some p
  laid : Laid heap' t
  frame : ∀ a, a ∉ addresses t → heap' a = heap a

section Rotations

variable {heap : TreeHeap I} {x y : Cell I} {A B D : BinaryTree (Cell I)} {hx hy : Int}

theorem rightRotate_placed (atY : heap y.1 = some (nodeOf y (node x A B) D hy))
    (atX : heap x.1 = some (nodeOf x A B hx)) (laidA : Laid heap A) (laidB : Laid heap B)
    (laidD : Laid heap D) (distinct : (addresses (node y (node x A B) D)).Nodup) :
    ∃ heap', rightRotate heap y.1 = some (x.1, heap') ∧
      Placed heap heap' x.1 (node x A (node y B D)) := by
  have same : addresses (node x A (node y B D)) = addresses (node y (node x A B) D) := by
    simp [addresses]
  have outer := apart_iff.mp (same ▸ distinct)
  have inner := apart_iff.mp outer.right
  have notEq : x.1 ≠ y.1 := fun same =>
    outer.notRight (mem_addresses_node.mpr (.inr (.inl same)))
  have yA : y.1 ∉ addresses A := fun member =>
    outer.disjoint y.1 member (mem_addresses_node.mpr (.inr (.inl rfl)))
  have xB : x.1 ∉ addresses B := fun member =>
    outer.notRight (mem_addresses_node.mpr (.inl member))
  have xD : x.1 ∉ addresses D := fun member =>
    outer.notRight (mem_addresses_node.mpr (.inr (.inr member)))
  -- the four stores, each on the heap of the one before
  obtain ⟨heap₁, linkX, wrote₁⟩ := setRight_nodeOf atX (node y B D)
  obtain ⟨heap₂, linkY, wrote₂⟩ := setLeft_nodeOf ((wrote₁.others _ notEq.symm).trans atY) B
  have laidB₂ := (laidB.wrote wrote₁ xB).wrote wrote₂ inner.notLeft
  have laidD₂ := (laidD.wrote wrote₁ xD).wrote wrote₂ inner.notRight
  obtain ⟨heap₃, heightY, wrote₃⟩ := updateHeight_nodeOf wrote₂.here laidB₂ laidD₂
  have laidA₃ := ((laidA.wrote wrote₁ outer.notLeft).wrote wrote₂ yA).wrote wrote₃ yA
  have laidY₃ : Laid heap₃ (node y B D) :=
    ⟨wrote₃.here, laidB₂.wrote wrote₃ inner.notLeft, laidD₂.wrote wrote₃ inner.notRight⟩
  have atX₃ : heap₃ x.1 = some (nodeOf x A (node y B D) hx) :=
    (wrote₃.others _ notEq).trans ((wrote₂.others _ notEq).trans wrote₁.here)
  obtain ⟨heap₄, heightX, wrote₄⟩ := updateHeight_nodeOf atX₃ laidA₃ laidY₃
  refine ⟨heap₄, ?_, rfl, ⟨wrote₄.here, laidA₃.wrote wrote₄ outer.notLeft,
    laidY₃.wrote wrote₄ outer.notRight⟩, fun a outside => ?_⟩
  · have leftY : (nodeOf y (node x A B) D hy).left = some x.1 := rfl
    have rightX : (nodeOf x A B hx).right = rootOf B := rfl
    have rootY : rootOf (node y B D) = some y.1 := rfl
    rw [rootY] at linkX
    simp only [rightRotate, atY, atX, leftY, rightX, linkX, linkY, heightY, heightX,
      Option.bind_eq_bind, Option.bind_some]
  · have notX : a ≠ x.1 := fun same => outside (mem_addresses_node.mpr (.inr (.inl same)))
    have notY : a ≠ y.1 := fun same => outside (mem_addresses_node.mpr
      (.inr (.inr (mem_addresses_node.mpr (.inr (.inl same))))))
    calc heap₄ a = heap₃ a := wrote₄.others a notX
      _ = heap₂ a := wrote₃.others a notY
      _ = heap₁ a := wrote₂.others a notY
      _ = heap a := wrote₁.others a notX

theorem leftRotate_placed (atX : heap x.1 = some (nodeOf x A (node y B D) hx))
    (atY : heap y.1 = some (nodeOf y B D hy)) (laidA : Laid heap A) (laidB : Laid heap B)
    (laidD : Laid heap D) (distinct : (addresses (node x A (node y B D))).Nodup) :
    ∃ heap', leftRotate heap x.1 = some (y.1, heap') ∧
      Placed heap heap' y.1 (node y (node x A B) D) := by
  have same : addresses (node y (node x A B) D) = addresses (node x A (node y B D)) := by
    simp [addresses]
  have outer := apart_iff.mp (same ▸ distinct)
  have inner := apart_iff.mp outer.left
  have notEq : y.1 ≠ x.1 := fun same =>
    outer.notLeft (mem_addresses_node.mpr (.inr (.inl same)))
  have xD : x.1 ∉ addresses D := fun member =>
    outer.disjoint x.1 (mem_addresses_node.mpr (.inr (.inl rfl))) member
  have yA : y.1 ∉ addresses A := fun member =>
    outer.notLeft (mem_addresses_node.mpr (.inl member))
  have yB : y.1 ∉ addresses B := fun member =>
    outer.notLeft (mem_addresses_node.mpr (.inr (.inr member)))
  obtain ⟨heap₁, linkY, wrote₁⟩ := setLeft_nodeOf atY (node x A B)
  obtain ⟨heap₂, linkX, wrote₂⟩ := setRight_nodeOf ((wrote₁.others _ notEq.symm).trans atX) B
  have laidA₂ := (laidA.wrote wrote₁ yA).wrote wrote₂ inner.notLeft
  have laidB₂ := (laidB.wrote wrote₁ yB).wrote wrote₂ inner.notRight
  obtain ⟨heap₃, heightX, wrote₃⟩ := updateHeight_nodeOf wrote₂.here laidA₂ laidB₂
  have laidD₃ := ((laidD.wrote wrote₁ outer.notRight).wrote wrote₂ xD).wrote wrote₃ xD
  have laidX₃ : Laid heap₃ (node x A B) :=
    ⟨wrote₃.here, laidA₂.wrote wrote₃ inner.notLeft, laidB₂.wrote wrote₃ inner.notRight⟩
  have atY₃ : heap₃ y.1 = some (nodeOf y (node x A B) D hy) :=
    (wrote₃.others _ notEq).trans ((wrote₂.others _ notEq).trans wrote₁.here)
  obtain ⟨heap₄, heightY, wrote₄⟩ := updateHeight_nodeOf atY₃ laidX₃ laidD₃
  refine ⟨heap₄, ?_, rfl, ⟨wrote₄.here, laidX₃.wrote wrote₄ outer.notLeft,
    laidD₃.wrote wrote₄ outer.notRight⟩, fun a outside => ?_⟩
  · have rightX : (nodeOf x A (node y B D) hx).right = some y.1 := rfl
    have leftY : (nodeOf y B D hy).left = rootOf B := rfl
    have rootX : rootOf (node x A B) = some x.1 := rfl
    rw [rootX] at linkY
    simp only [leftRotate, atX, atY, rightX, leftY, linkY, linkX, heightX, heightY,
      Option.bind_eq_bind, Option.bind_some]
  · have notY : a ≠ y.1 := fun same => outside (mem_addresses_node.mpr (.inr (.inl same)))
    have notX : a ≠ x.1 := fun same => outside (mem_addresses_node.mpr
      (.inl (mem_addresses_node.mpr (.inr (.inl same)))))
    calc heap₄ a = heap₃ a := wrote₄.others a notY
      _ = heap₂ a := wrote₃.others a notX
      _ = heap₁ a := wrote₂.others a notX
      _ = heap a := wrote₁.others a notY

variable {z : Cell I} {E : BinaryTree (Cell I)} {hz : Int}

/-- The left child of `z` is rotated to the left, and then `z` to the right. -/
theorem leftRightRotate_placed
    (atZ : heap z.1 = some (nodeOf z (node x A (node y B D)) E hz))
    (laid : Laid heap (node x A (node y B D))) (laidE : Laid heap E)
    (distinct : (addresses (node z (node x A (node y B D)) E)).Nodup) :
    ∃ heap₁ heap₂ heap₃, leftRotate heap x.1 = some (y.1, heap₁) ∧
      setLeft heap₁ z.1 (some y.1) = some heap₂ ∧ rightRotate heap₂ z.1 = some (y.1, heap₃) ∧
        Placed heap heap₃ y.1 (node y (node x A B) (node z D E)) := by
  have outer := apart_iff.mp distinct
  obtain ⟨atX, laidA, atY, laidB, laidD⟩ := laid
  obtain ⟨heap₁, rotated, placed⟩ := leftRotate_placed atX atY laidA laidB laidD outer.left
  have same : addresses (node y (node x A B) D) = addresses (node x A (node y B D)) := by
    simp [addresses]
  have notLeft : z.1 ∉ addresses (node y (node x A B) D) := same ▸ outer.notLeft
  have laidE₁ : Laid heap₁ E := laidE.congr fun a member =>
    placed.frame a fun inside => outer.disjoint a (same ▸ inside) member
  obtain ⟨heap₂, linked, wrote⟩ := setLeft_nodeOf ((placed.frame _ notLeft).trans atZ)
    (node y (node x A B) D)
  obtain ⟨atY₂, laidX₂, laidD₂⟩ := placed.laid.wrote wrote notLeft
  have distinct₂ : (addresses (node z (node y (node x A B) D) E)).Nodup := by
    rw [addresses_node, same, ← addresses_node]
    exact distinct
  obtain ⟨heap₃, rotated', placed'⟩ := rightRotate_placed wrote.here atY₂ laidX₂ laidD₂
    (laidE₁.wrote wrote outer.notRight) distinct₂
  refine ⟨heap₁, heap₂, heap₃, rotated, linked, rotated', rfl, placed'.laid, fun a outside => ?_⟩
  have notZ : a ≠ z.1 := by
    rintro rfl
    exact outside (mem_addresses_node.mpr (.inr (.inr (mem_addresses_node.mpr (.inr (.inl rfl))))))
  have outer₁ : a ∉ addresses (node y (node x A B) D) := by
    intro inside
    apply outside
    simp only [mem_addresses_node] at inside ⊢
    tauto
  calc heap₃ a = heap₂ a := placed'.frame a outside
    _ = heap₁ a := wrote.others a notZ
    _ = heap a := placed.frame a outer₁

/-- The right child of `x` is rotated to the right, and then `x` to the left. -/
theorem rightLeftRotate_placed
    (atX : heap x.1 = some (nodeOf x A (node z (node y B D) E) hx))
    (laid : Laid heap (node z (node y B D) E)) (laidA : Laid heap A)
    (distinct : (addresses (node x A (node z (node y B D) E))).Nodup) :
    ∃ heap₁ heap₂ heap₃, rightRotate heap z.1 = some (y.1, heap₁) ∧
      setRight heap₁ x.1 (some y.1) = some heap₂ ∧ leftRotate heap₂ x.1 = some (y.1, heap₃) ∧
        Placed heap heap₃ y.1 (node y (node x A B) (node z D E)) := by
  have outer := apart_iff.mp distinct
  obtain ⟨atZ, ⟨atY, laidB, laidD⟩, laidE⟩ := laid
  obtain ⟨heap₁, rotated, placed⟩ := rightRotate_placed atZ atY laidB laidD laidE outer.right
  have same : addresses (node y B (node z D E)) = addresses (node z (node y B D) E) := by
    simp [addresses]
  have notRight : x.1 ∉ addresses (node y B (node z D E)) := same ▸ outer.notRight
  have laidA₁ : Laid heap₁ A := laidA.congr fun a member =>
    placed.frame a fun inside => outer.disjoint a member (same ▸ inside)
  obtain ⟨heap₂, linked, wrote⟩ := setRight_nodeOf ((placed.frame _ notRight).trans atX)
    (node y B (node z D E))
  obtain ⟨atY₂, laidB₂, laidZ₂⟩ := placed.laid.wrote wrote notRight
  have distinct₂ : (addresses (node x A (node y B (node z D E)))).Nodup := by
    rw [addresses_node, same, ← addresses_node]
    exact distinct
  obtain ⟨heap₃, rotated', placed'⟩ := leftRotate_placed wrote.here atY₂
    (laidA₁.wrote wrote outer.notLeft) laidB₂ laidZ₂ distinct₂
  refine ⟨heap₁, heap₂, heap₃, rotated, linked, rotated', rfl, placed'.laid, fun a outside => ?_⟩
  have notX : a ≠ x.1 := by
    rintro rfl
    exact outside (mem_addresses_node.mpr (.inl (mem_addresses_node.mpr (.inr (.inl rfl)))))
  have outer₁ : a ∉ addresses (node y B (node z D E)) := by
    intro inside
    apply outside
    simp only [mem_addresses_node] at inside ⊢
    tauto
  calc heap₃ a = heap₂ a := placed'.frame a outside
    _ = heap₁ a := wrote.others a notX
    _ = heap a := placed.frame a outer₁

end Rotations

section Walks

variable {heap : TreeHeap I} {t : BinaryTree (Cell I)}

/-- search_tree_node walks as the search in the tree does. -/
theorem searchFrom_laid {k : Lbn} {fuel : Nat} (laid : Laid heap t) (enough : t.height < fuel) :
    searchFrom heap k fuel (rootOf t) = some ((find Cell.lbn k t).map Prod.fst) := by
  induction t generalizing fuel with
  | nil =>
    cases fuel with
    | zero => cases enough
    | succ fuel => rfl
  | node c l r left right =>
    obtain ⟨here, first, last⟩ := laid
    rw [height] at enough
    cases fuel with
    | zero => cases enough
    | succ fuel =>
      have goLeft : searchFrom heap k fuel (rootOf l) = some ((find Cell.lbn k l).map Prod.fst) :=
        left first (by omega)
      have goRight : searchFrom heap k fuel (rootOf r) = some ((find Cell.lbn k r).map Prod.fst) :=
        right last (by omega)
      simp only [searchFrom, rootOf_node, here, nodeOf, Option.bind_eq_bind, Option.bind_some,
        goLeft, goRight, find]
      split
      · rfl
      · split <;> rfl

/-- min_value_node finds the leftmost cell. -/
theorem minValueNode_laid {c : Cell I} {l r : BinaryTree (Cell I)} {fuel : Nat}
    (laid : Laid heap (node c l r)) (enough : (node c l r).height ≤ fuel) :
    ∃ m, leftmost (node c l r) = some m ∧ minValueNode heap fuel c.1 = some m.1 := by
  induction l generalizing c r fuel with
  | nil =>
    cases fuel with
    | zero => simp at enough
    | succ fuel =>
      refine ⟨c, rfl, ?_⟩
      simp [minValueNode, laid.1, nodeOf, rootOf]
  | node d p q left _ =>
    obtain ⟨here, first, _⟩ := laid
    rw [height] at enough
    cases fuel with
    | zero => simp at enough
    | succ fuel =>
      obtain ⟨m, found, walked⟩ := left first (Nat.le_trans (Nat.le_max_left _ _)
        (Nat.le_of_succ_le_succ enough))
      refine ⟨m, found, ?_⟩
      simp only [minValueNode, here, nodeOf, rootOf_node, Option.bind_eq_bind, Option.bind_some,
        walked]

/-- The cell of the leftmost value lies in the heap. -/
theorem Laid.entry {c : Cell I} (laid : Laid heap t) (member : c ∈ inorder t) :
    ∃ n, heap c.1 = some n ∧ n.inode = c.2.inode ∧ n.lbn = c.2.lbn ∧ n.valid = c.2.valid := by
  induction t with
  | nil => cases member
  | node d l r left right =>
    obtain ⟨here, first, last⟩ := laid
    rcases List.mem_append.mp member with inLeft | inRest
    · exact left first inLeft
    · rcases List.mem_cons.mp inRest with rfl | inRight
      · exact ⟨_, here, rfl, rfl, rfl⟩
      · exact right last inRight

end Walks

end BurstBuffer.Source
