import BurstBuffer.Invariants.TreeHeap

/-!
# Deletion in the heap

physical_delete_tree_node removes a key from the heap as the deletion of trees
does. A cell keeps its address when the entry of another cell is copied over it.
-/
namespace BurstBuffer.Source

open Library BinaryTree SearchTree AvlTree

variable {I : Type} {heap : TreeHeap I} {c : Cell I} {l r t : BinaryTree (Cell I)} {k : Lbn}
  {a : TreePtr} {height : Int}

/-- The entry of `d`, copied over that of `c`. -/
def Cell.move (c d : Cell I) : Cell I := (c.1, d.2)

/-- The tree of cells without the key `k`. -/
abbrev eraseCell (k : Lbn) (t : BinaryTree (Cell I)) : BinaryTree (Cell I) :=
  erase Cell.lbn Cell.move k t

theorem addresses_settleErase : addresses (settleErase c l r) = addresses (node c l r) := by
  unfold addresses
  rw [inorder_settleErase, inorder_node]

/-- The rebalancing below `c`, once the height has been stored anew. -/
theorem rebalanceDeleted_placed (here : heap c.1 = some (nodeOf c l r height))
    (left : Laid heap l) (right : Laid heap r) (distinct : (addresses (node c l r)).Nodup) :
    ∃ p heap', rebalanceDeleted heap c.1 = some (p, heap') ∧
      Placed heap heap' p (settleErase c l r) := by
  have apart := apart_iff.mp distinct
  obtain ⟨heap₁, updated, wrote⟩ := updateHeight_nodeOf here left right
  have left₁ := left.wrote wrote apart.notLeft
  have right₁ := right.wrote wrote apart.notRight
  have balance := getBalance_nodeOf wrote.here left₁ right₁
  suffices rest : ∃ p heap', rebalanceDeleted heap c.1 = some (p, heap') ∧
      Placed heap₁ heap' p (settleErase c l r) by
    obtain ⟨p, heap', done, placed⟩ := rest
    refine ⟨p, heap', done, placed.root, placed.laid, fun a outer => ?_⟩
    have other : a ≠ c.1 := by
      rintro rfl
      rw [addresses_settleErase] at outer
      exact outer (mem_addresses_node.mpr (.inr (.inl rfl)))
    exact (placed.frame a outer).trans (wrote.others a other)
  unfold rebalanceDeleted settleErase
  simp only [updated, balance, Option.bind_eq_bind, Option.bind_some]
  by_cases leftTall : r.height + 1 < l.height
  · have high : (l.height : Int) - r.height > 1 := by omega
    rw [if_pos high, if_pos leftTall]
    cases l with
    | nil => simp at leftTall
    | node b p q =>
      have balance' := getBalance_nodeOf left₁.1 left₁.2.1 left₁.2.2
      simp only [wrote.here, nodeOf, rootOf_node, balance', Option.bind_some]
      by_cases even : (node b p q).right.height ≤ (node b p q).left.height
      · have level : (p.height : Int) - q.height ≥ 0 := by
          simp only [BinaryTree.left, BinaryTree.right] at even
          omega
        rw [if_pos level, if_pos even]
        obtain ⟨heap', rotated, placed⟩ :=
          rightRotate_placed wrote.here left₁.1 left₁.2.1 left₁.2.2 right₁ distinct
        exact ⟨b.1, heap', rotated, placed⟩
      · have leaning : ¬ (p.height : Int) - q.height ≥ 0 := by
          simp only [BinaryTree.left, BinaryTree.right] at even
          omega
        rw [if_neg leaning, if_neg even]
        cases q with
        | nil => exact absurd (Nat.zero_le _) even
        | node d q₁ q₂ =>
          obtain ⟨heap₂, heap₃, heap₄, rotated, linked, rotated', placed⟩ :=
            leftRightRotate_placed wrote.here left₁ right₁ distinct
          refine ⟨d.1, heap₄, ?_, placed⟩
          simp only [rotated, linked, rotated', Option.bind_some]
  · have notHigh : ¬ (l.height : Int) - r.height > 1 := by omega
    rw [if_neg notHigh, if_neg leftTall]
    by_cases rightTall : l.height + 1 < r.height
    · have low : (l.height : Int) - r.height < -1 := by omega
      rw [if_pos low, if_pos rightTall]
      cases r with
      | nil => simp at rightTall
      | node b p q =>
        have balance' := getBalance_nodeOf right₁.1 right₁.2.1 right₁.2.2
        simp only [wrote.here, nodeOf, rootOf_node, balance', Option.bind_some]
        by_cases even : (node b p q).left.height ≤ (node b p q).right.height
        · have level : (p.height : Int) - q.height ≤ 0 := by
            simp only [BinaryTree.left, BinaryTree.right] at even
            omega
          rw [if_pos level, if_pos even]
          obtain ⟨heap', rotated, placed⟩ :=
            leftRotate_placed wrote.here right₁.1 left₁ right₁.2.1 right₁.2.2 distinct
          exact ⟨b.1, heap', rotated, placed⟩
        · have leaning : ¬ (p.height : Int) - q.height ≤ 0 := by
            simp only [BinaryTree.left, BinaryTree.right] at even
            omega
          rw [if_neg leaning, if_neg even]
          cases p with
          | nil => exact absurd (Nat.zero_le _) even
          | node d p₁ p₂ =>
            obtain ⟨heap₂, heap₃, heap₄, rotated, linked, rotated', placed⟩ :=
              rightLeftRotate_placed wrote.here right₁ left₁ distinct
            refine ⟨d.1, heap₄, ?_, placed⟩
            simp only [rotated, linked, rotated', Option.bind_some]
    · have notLow : ¬ (l.height : Int) - r.height < -1 := by omega
      rw [if_neg notLow, if_neg rightTall]
      exact ⟨c.1, heap₁, rfl, rfl, ⟨wrote.here, left₁, right₁⟩, fun _ _ => rfl⟩

/-- What a deletion makes of the heap: the tree `t'` is left of `t`, and the memory
of the other cells of `t` is freed. -/
structure Removed (heap heap' : TreeHeap I) (p : Option TreePtr) (t t' : BinaryTree (Cell I)) :
    Prop where
  root : p = rootOf t'
  laid : Laid heap' t'
  frame : ∀ a, a ∉ addresses t → heap' a = heap a
  freed : ∀ a ∈ addresses t, a ∉ addresses t' → heap' a = none

theorem addresses_eraseCell (balanced : Balanced t) :
    (addresses (eraseCell k t)).Sublist (addresses t) :=
  sublist_erase (fun _ _ => rfl) balanced

/-- The left subtree of `c` has lost a cell, and the rest is rebalanced. -/
theorem Removed.relinkLeft {heap₁ : TreeHeap I} {p : Option TreePtr} {l' : BinaryTree (Cell I)}
    (here : heap c.1 = some (nodeOf c l r height)) (right : Laid heap r) (apart : CellsApart c l r)
    (removed : Removed heap heap₁ p l l') (fewer : (addresses l').Sublist (addresses l)) :
    ∃ heap₂ q heap₃, setLeft heap₁ c.1 p = some heap₂ ∧
      rebalanceDeleted heap₂ c.1 = some (q, heap₃) ∧
        Removed heap heap₃ (some q) (node c l r) (settleErase c l' r) := by
  have apart' : CellsApart c l' r := by
    apply apart.replaceLeft (fewer.nodup apart.left)
    intro a member
    have old := fewer.subset member
    exact ⟨fun same => apart.notLeft (same ▸ old), apart.disjoint a old⟩
  have right₁ : Laid heap₁ r := right.congr fun a member =>
    removed.frame a fun old => apart.disjoint a old member
  obtain ⟨heap₂, linked, wrote⟩ := setLeft_nodeOf ((removed.frame _ apart.notLeft).trans here) l'
  obtain ⟨q, heap₃, settled, placed⟩ := rebalanceDeleted_placed wrote.here
    (removed.laid.wrote wrote apart'.notLeft) (right₁.wrote wrote apart'.notRight)
    (apart_iff.mpr apart')
  have outside : ∀ a, a ≠ c.1 → a ∉ addresses l' → a ∉ addresses r → heap₃ a = heap₁ a := by
    intro a other notLeft notRight
    rw [placed.frame a, wrote.others a other]
    rw [addresses_settleErase, mem_addresses_node]
    tauto
  refine ⟨heap₂, q, heap₃, removed.root ▸ linked, settled, placed.root.symm, placed.laid, ?_, ?_⟩
  · intro a outer
    rw [mem_addresses_node, not_or, not_or] at outer
    obtain ⟨notLeft, other, notRight⟩ := outer
    rw [outside a other (fun member => notLeft (fewer.subset member)) notRight]
    exact removed.frame a notLeft
  · intro a member gone
    rw [addresses_settleErase, mem_addresses_node, not_or, not_or] at gone
    obtain ⟨notLeft, other, notRight⟩ := gone
    rw [outside a other notLeft notRight]
    rcases mem_addresses_node.mp member with inLeft | same | inRight
    · exact removed.freed a inLeft notLeft
    · exact absurd same other
    · exact absurd inRight notRight

/-- The right subtree of `c` has lost a cell, and the rest is rebalanced. -/
theorem Removed.relinkRight {heap₁ : TreeHeap I} {p : Option TreePtr} {r' : BinaryTree (Cell I)}
    (here : heap c.1 = some (nodeOf c l r height)) (left : Laid heap l) (apart : CellsApart c l r)
    (removed : Removed heap heap₁ p r r') (fewer : (addresses r').Sublist (addresses r)) :
    ∃ heap₂ q heap₃, setRight heap₁ c.1 p = some heap₂ ∧
      rebalanceDeleted heap₂ c.1 = some (q, heap₃) ∧
        Removed heap heap₃ (some q) (node c l r) (settleErase c l r') := by
  have apart' : CellsApart c l r' := by
    apply apart.replaceRight (fewer.nodup apart.right)
    intro a member
    have old := fewer.subset member
    exact ⟨fun same => apart.notRight (same ▸ old), fun inLeft => apart.disjoint a inLeft old⟩
  have left₁ : Laid heap₁ l := left.congr fun a member =>
    removed.frame a fun old => apart.disjoint a member old
  obtain ⟨heap₂, linked, wrote⟩ := setRight_nodeOf ((removed.frame _ apart.notRight).trans here) r'
  obtain ⟨q, heap₃, settled, placed⟩ := rebalanceDeleted_placed wrote.here
    (left₁.wrote wrote apart'.notLeft) (removed.laid.wrote wrote apart'.notRight)
    (apart_iff.mpr apart')
  have outside : ∀ a, a ≠ c.1 → a ∉ addresses l → a ∉ addresses r' → heap₃ a = heap₁ a := by
    intro a other notLeft notRight
    rw [placed.frame a, wrote.others a other]
    rw [addresses_settleErase, mem_addresses_node]
    tauto
  refine ⟨heap₂, q, heap₃, removed.root ▸ linked, settled, placed.root.symm, placed.laid, ?_, ?_⟩
  · intro a outer
    rw [mem_addresses_node, not_or, not_or] at outer
    obtain ⟨notLeft, other, notRight⟩ := outer
    rw [outside a other notLeft (fun member => notRight (fewer.subset member))]
    exact removed.frame a notRight
  · intro a member gone
    rw [addresses_settleErase, mem_addresses_node, not_or, not_or] at gone
    obtain ⟨notLeft, other, notRight⟩ := gone
    rw [outside a other notLeft notRight]
    rcases mem_addresses_node.mp member with inLeft | same | inRight
    · exact absurd inLeft notLeft
    · exact absurd same other
    · exact removed.freed a inRight notRight

/-- An only child `d` is copied over `c` and freed. -/
theorem removed_copied {d : Cell I} (h : Int) (left : Laid heap l) (right : Laid heap r)
    (apart : CellsApart d l r) (other : c.1 ≠ d.1) (notLeft : c.1 ∉ addresses l)
    (notRight : c.1 ∉ addresses r) (members : ∀ a, a ∈ addresses t ↔
      a = c.1 ∨ a ∈ addresses (node d l r)) :
    ∃ q heap', rebalanceDeleted ((heap.store c.1 (nodeOf d l r h)).free d.1) c.1 =
        some (q, heap') ∧ Removed heap heap' (some q) t (settleErase (Cell.move c d) l r) := by
  have copied : Wrote heap (heap.store c.1 (nodeOf d l r h)) c.1
      (some (nodeOf (Cell.move c d) l r h)) := wrote_store
  generalize heap.store c.1 (nodeOf d l r h) = heap₁ at *
  have freed : Wrote heap₁ (heap₁.free d.1) d.1 none := wrote_free
  generalize heap₁.free d.1 = heap₂ at *
  have apart' : CellsApart (Cell.move c d) l r :=
    ⟨apart.left, apart.right, notLeft, notRight, apart.disjoint⟩
  obtain ⟨q, heap₃, settled, placed⟩ := rebalanceDeleted_placed
    (c := Cell.move c d) ((freed.others _ other).trans copied.here)
    ((left.wrote copied notLeft).wrote freed apart.notLeft)
    ((right.wrote copied notRight).wrote freed apart.notRight) (apart_iff.mpr apart')
  have gone : ∀ a, a ∉ addresses (settleErase (Cell.move c d) l r) ↔
      a ∉ addresses l ∧ a ≠ c.1 ∧ a ∉ addresses r := by
    intro a
    rw [addresses_settleErase, mem_addresses_node, not_or, not_or]
    rfl
  refine ⟨q, heap₃, settled, placed.root.symm, placed.laid, ?_, ?_⟩
  · intro a outer
    rw [members, mem_addresses_node, not_or, not_or, not_or] at outer
    obtain ⟨notC, notL, notD, notR⟩ := outer
    rw [placed.frame a ((gone a).mpr ⟨notL, notC, notR⟩), freed.others a notD, copied.others a notC]
  · intro a member outer
    rw [placed.frame a outer]
    obtain ⟨notL, notC, notR⟩ := (gone a).mp outer
    rw [members, mem_addresses_node] at member
    rcases member with same | inLeft | rfl | inRight
    · exact absurd same notC
    · exact absurd inLeft notL
    · exact freed.here
    · exact absurd inRight notR

/-- The entry of the leftmost cell `m` on the right is copied over `c`, and the right
subtree has lost that cell. -/
theorem removed_successor {m : Cell I} {heap₁ heap₂ : TreeHeap I} {p : Option TreePtr}
    {r' : BinaryTree (Cell I)}
    (copied : Wrote heap heap₁ c.1 (some (nodeOf (Cell.move c m) l r height)))
    (left : Laid heap₁ l) (apart : CellsApart c l r) (removed : Removed heap₁ heap₂ p r r')
    (fewer : (addresses r').Sublist (addresses r)) :
    ∃ heap₃ q heap₄, setRight heap₂ c.1 p = some heap₃ ∧
      rebalanceDeleted heap₃ c.1 = some (q, heap₄) ∧
        Removed heap heap₄ (some q) (node c l r) (settleErase (Cell.move c m) l r') := by
  have apart' : CellsApart (Cell.move c m) l r :=
    ⟨apart.left, apart.right, apart.notLeft, apart.notRight, apart.disjoint⟩
  obtain ⟨heap₃, q, heap₄, linked, settled, whole⟩ :=
    removed.relinkRight (c := Cell.move c m) copied.here left apart' fewer
  have same : addresses (node (Cell.move c m) l r) = addresses (node c l r) := by
    rw [addresses_node, addresses_node]
    rfl
  refine ⟨heap₃, q, heap₄, linked, settled, whole.root, whole.laid, ?_, ?_⟩
  · intro a outer
    have other : a ≠ c.1 := fun here => outer (mem_addresses_node.mpr (.inr (.inl here)))
    rw [whole.frame a (same ▸ outer), copied.others a other]
  · intro a member gone
    exact whole.freed a (same ▸ member) gone

section Root

variable {target : Option TreePtr} {n : TreeNode I} {fuel : Nat}

/-- What a call of physical_delete_tree_node on the subtree `t` makes of the heap. -/
def DeletesBelow (fuel : Nat) (target : Option TreePtr) (n : TreeNode I) (heap : TreeHeap I)
    (t : BinaryTree (Cell I)) : Prop :=
  ∃ p heap', physicalDeleteBelow fuel target (rootOf t) heap = some (p, heap') ∧
    Removed heap heap' p t (eraseCell n.lbn t)

/-- The root has at most the right child. -/
theorem deletesBelow_rightOnly (laid : Laid heap (node c nil r))
    (distinct : (addresses (node c nil r)).Nodup) (given : target.bind heap = some n)
    (equal : n.lbn = Cell.lbn c) : DeletesBelow (fuel + 1) target n heap (node c nil r) := by
  have apart := apart_iff.mp distinct
  obtain ⟨here, _, last⟩ := laid
  have key : (nodeOf c nil r (node c nil r).height).lbn = Cell.lbn c := rfl
  have noLeft : (nodeOf c nil r (node c nil r).height).left = none := rfl
  have only : (nodeOf c nil r (node c nil r).height).right = rootOf r := rfl
  simp only [DeletesBelow, physicalDeleteBelow, rootOf_node, given, here, Option.bind_eq_bind,
    Option.bind_some]
  rw [eraseCell, erase, key, equal, if_neg (lt_irrefl _), if_neg (lt_irrefl _),
    if_neg (lt_irrefl _), if_neg (lt_irrefl _)]
  cases r with
  | nil =>
    refine ⟨none, heap.free c.1, rfl, rfl, trivial, fun a outer => ?_, fun a member _ => ?_⟩
    · exact wrote_free.others a fun same => outer (mem_addresses_node.mpr (.inr (.inl same)))
    · obtain rfl : a = c.1 := by simpa [mem_addresses_node] using member
      exact wrote_free.here
  | node d p q =>
    obtain ⟨atD, laidP, laidQ⟩ := last
    have away := apart.notRight
    rw [mem_addresses_node, not_or, not_or] at away
    obtain ⟨notP, other, notQ⟩ := away
    obtain ⟨w, heap', settled, whole⟩ :=
      removed_copied (t := node c nil (node d p q)) (node d p q).height laidP laidQ
        (apart_iff.mp apart.right) other notP notQ fun a => by
          rw [mem_addresses_node]
          simp
    refine ⟨some w, heap', ?_, whole⟩
    rw [rootOf_node] at only
    simp only [noLeft, only, atD, settled, Option.bind_some]

/-- The root has the left child only. -/
theorem deletesBelow_leftOnly {d : Cell I} {p q : BinaryTree (Cell I)}
    (laid : Laid heap (node c (node d p q) nil))
    (distinct : (addresses (node c (node d p q) nil)).Nodup) (given : target.bind heap = some n)
    (equal : n.lbn = Cell.lbn c) :
    DeletesBelow (fuel + 1) target n heap (node c (node d p q) nil) := by
  have apart := apart_iff.mp distinct
  obtain ⟨here, ⟨atD, laidP, laidQ⟩, _⟩ := laid
  have key : (nodeOf c (node d p q) nil (node c (node d p q) nil).height).lbn = Cell.lbn c := rfl
  have only : (nodeOf c (node d p q) nil (node c (node d p q) nil).height).left = some d.1 := rfl
  have noRight : (nodeOf c (node d p q) nil (node c (node d p q) nil).height).right = none := rfl
  simp only [DeletesBelow, physicalDeleteBelow, rootOf_node, given, here, Option.bind_eq_bind,
    Option.bind_some]
  rw [eraseCell, erase, key, equal, if_neg (lt_irrefl _), if_neg (lt_irrefl _),
    if_neg (lt_irrefl _), if_neg (lt_irrefl _)]
  have away := apart.notLeft
  rw [mem_addresses_node, not_or, not_or] at away
  obtain ⟨notP, other, notQ⟩ := away
  obtain ⟨w, heap', settled, whole⟩ :=
    removed_copied (t := node c (node d p q) nil) (node d p q).height laidP laidQ
      (apart_iff.mp apart.left) other notP notQ fun a => by
        rw [mem_addresses_node]
        simp [or_comm]
  refine ⟨some w, heap', ?_, whole⟩
  simp only [only, noRight, atD, settled, Option.bind_some]

/-- The root has two children: the leftmost entry of the right subtree is copied to
the root, and the call on that subtree removes its cell. -/
theorem deletesBelow_both {d e : Cell I} {p q p' q' : BinaryTree (Cell I)}
    (laid : Laid heap (node c (node d p q) (node e p' q')))
    (distinct : (addresses (node c (node d p q) (node e p' q'))).Nodup)
    (balanced : Balanced (node e p' q')) (given : target.bind heap = some n)
    (equal : n.lbn = Cell.lbn c) (enough : (node e p' q').height < fuel)
    (right : ∀ {heap₁ : TreeHeap I} {target : Option TreePtr} {n : TreeNode I},
      Laid heap₁ (node e p' q') → target.bind heap₁ = some n →
        DeletesBelow fuel target n heap₁ (node e p' q')) :
    DeletesBelow (fuel + 1) target n heap (node c (node d p q) (node e p' q')) := by
  have apart := apart_iff.mp distinct
  obtain ⟨here, first, last⟩ := laid
  generalize hh : (node c (node d p q) (node e p' q')).height = height at here
  have key : (nodeOf c (node d p q) (node e p' q') height).lbn = Cell.lbn c := rfl
  simp only [DeletesBelow, physicalDeleteBelow, rootOf_node, given, here, Option.bind_eq_bind,
    Option.bind_some]
  rw [eraseCell, erase, key, equal, if_neg (lt_irrefl _), if_neg (lt_irrefl _),
    if_neg (lt_irrefl _), if_neg (lt_irrefl _)]
  obtain ⟨m, found, walked⟩ := minValueNode_laid last (Nat.le_of_lt enough)
  obtain ⟨rest, leading⟩ := inorder_leftmost found
  have member : m ∈ inorder (node e p' q') := leading ▸ List.mem_cons_self
  obtain ⟨min, atM, inode, lbn, valid⟩ := last.entry member
  have sameKey : min.lbn = Cell.lbn m := lbn
  have notC : m.1 ≠ c.1 := fun same => apart.notRight (same ▸ List.mem_map_of_mem member)
  have copy : nodeOf (Cell.move c m) (node d p q) (node e p' q') height =
      { inode := min.inode, lbn := min.lbn, valid := min.valid, left := some d.1,
        right := some e.1, height := height } := by
    rw [inode, lbn, valid]
    rfl
  have copied : Wrote heap (heap.store c.1
      (nodeOf (Cell.move c m) (node d p q) (node e p' q') height)) c.1 _ := wrote_store
  simp only [nodeOf, rootOf_node, walked, atM, Option.bind_some]
  rw [eraseRoot, found, ← copy]
  generalize heap.store c.1 _ = heap₁ at *
  have left₁ := first.wrote copied apart.notLeft
  have right₁ := last.wrote copied apart.notRight
  have given₁ : (some m.1).bind heap₁ = some min := (copied.others _ notC).trans atM
  obtain ⟨w, heap₂, recursed, removed⟩ := right right₁ given₁
  rw [rootOf_node] at recursed
  rw [sameKey] at removed
  obtain ⟨heap₃, w', heap₄, linked, settled, whole⟩ :=
    removed_successor copied left₁ apart removed (addresses_eraseCell balanced)
  refine ⟨some w', heap₄, ?_, whole⟩
  simp only [recursed, linked, settled, Option.bind_some]

end Root

/-- physical_delete_tree_node removes the key of its node, which may be in the tree. -/
theorem physicalDeleteBelow_removed {target : Option TreePtr} {n : TreeNode I} {fuel : Nat}
    (laid : Laid heap t) (distinct : (addresses t).Nodup) (balanced : Balanced t)
    (given : target.bind heap = some n) (enough : t.height < fuel) :
    DeletesBelow fuel target n heap t := by
  induction t generalizing heap target n fuel with
  | nil =>
    cases fuel with
    | zero => cases enough
    | succ fuel =>
      exact ⟨none, heap, rfl, rfl, trivial, fun _ _ => rfl, fun _ member => nomatch member⟩
  | node c l r left right =>
    have apart := apart_iff.mp distinct
    obtain ⟨_, _, balancedLeft, balancedRight⟩ := balanced
    rw [BinaryTree.height] at enough
    cases fuel with
    | zero => cases enough
    | succ fuel =>
      have enoughLeft : l.height < fuel := by omega
      have enoughRight : r.height < fuel := by omega
      rcases lt_trichotomy n.lbn (Cell.lbn c) with less | equal | more
      · obtain ⟨here, first, last⟩ := laid
        obtain ⟨p, heap₁, recursed, removed⟩ :=
          left first apart.left balancedLeft given enoughLeft
        obtain ⟨heap₂, q, heap₃, linked, settled, whole⟩ :=
          removed.relinkLeft here last apart (addresses_eraseCell balancedLeft)
        have key : (nodeOf c l r (node c l r).height).lbn = Cell.lbn c := rfl
        simp only [DeletesBelow, physicalDeleteBelow, rootOf_node, given, here,
          Option.bind_eq_bind, Option.bind_some]
        rw [eraseCell, erase, key, if_pos less, if_pos less]
        refine ⟨some q, heap₃, ?_, whole⟩
        simp only [nodeOf, recursed, linked, settled, Option.bind_some]
      · cases l with
        | nil => exact deletesBelow_rightOnly laid distinct given equal
        | node d p q =>
          cases r with
          | nil => exact deletesBelow_leftOnly laid distinct given equal
          | node e p' q' =>
            exact deletesBelow_both laid distinct balancedRight given equal enoughRight
              fun laid₁ given₁ => right laid₁ apart.right balancedRight given₁ enoughRight
      · obtain ⟨here, first, last⟩ := laid
        obtain ⟨p, heap₁, recursed, removed⟩ :=
          right last apart.right balancedRight given enoughRight
        obtain ⟨heap₂, q, heap₃, linked, settled, whole⟩ :=
          removed.relinkRight here first apart (addresses_eraseCell balancedRight)
        have key : (nodeOf c l r (node c l r).height).lbn = Cell.lbn c := rfl
        simp only [DeletesBelow, physicalDeleteBelow, rootOf_node, given, here,
          Option.bind_eq_bind, Option.bind_some]
        rw [eraseCell, erase, key, if_neg (lt_asymm more), if_neg (lt_asymm more), if_pos more,
          if_pos more]
        refine ⟨some q, heap₃, ?_, whole⟩
        simp only [nodeOf, recursed, linked, settled, Option.bind_some]

end BurstBuffer.Source
