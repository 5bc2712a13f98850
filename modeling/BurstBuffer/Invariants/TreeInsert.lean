import BurstBuffer.Invariants.TreeHeap

/-!
# Insertion in the heap

insert_tree_node puts a new node into the heap as the insertion of trees does.
-/
namespace BurstBuffer.Source

open Library BinaryTree SearchTree AvlTree

variable {I : Type} {heap : TreeHeap I} {c : Cell I} {l r t : BinaryTree (Cell I)} {k : Lbn}
  {a : TreePtr} {n : TreeNode I}

/-- A subtree that has become too high has grown on one side. -/
theorem grown_cases (grown : Grown Cell.lbn k t) (high : 1 < t.height) :
    ∃ b p q, t = node b p q ∧ (k < Cell.lbn b ∧ p.height = q.height + 1 ∨
      Cell.lbn b < k ∧ q.height = p.height + 1) := by
  cases t with
  | nil => cases grown
  | node b p q =>
    rcases grown with ⟨rfl, rfl⟩ | ⟨before, higher⟩ | ⟨behind, higher⟩
    · simp at high
    · exact ⟨b, p, q, rfl, .inl ⟨before, higher⟩⟩
    · exact ⟨b, p, q, rfl, .inr ⟨behind, higher⟩⟩

/-- The rebalancing below `c`, where a subtree that is too high has grown with `k`. -/
theorem rebalanceInserted_placed (laid : Laid heap (node c l r))
    (distinct : (addresses (node c l r)).Nodup) (new : heap a = some n) (key : n.lbn = k)
    (leftGrown : r.height + 1 < l.height → Grown Cell.lbn k l)
    (rightGrown : l.height + 1 < r.height → Grown Cell.lbn k r) :
    ∃ p heap', rebalanceInserted heap c.1 a = some (p, heap') ∧
      Placed heap heap' p (settleInsert Cell.lbn k c l r) := by
  obtain ⟨here, left, right⟩ := laid
  have balance := getBalance_nodeOf here left right
  unfold rebalanceInserted settleInsert
  simp only [balance, new, key, Option.bind_eq_bind, Option.bind_some]
  by_cases leftTall : r.height + 1 < l.height
  · have high : (l.height : Int) - r.height > 1 := by omega
    rw [if_pos high, if_pos leftTall]
    obtain ⟨b, p, q, rfl, side⟩ := grown_cases (leftGrown leftTall) (by omega)
    have atB := left.1
    simp only [here, nodeOf, rootOf_node, atB, Option.bind_some]
    rcases side with ⟨before, _⟩ | ⟨behind, higher⟩
    · rw [if_pos before, if_pos before]
      obtain ⟨heap', rotated, placed⟩ :=
        rightRotate_placed here atB left.2.1 left.2.2 right distinct
      exact ⟨b.1, heap', rotated, placed⟩
    · rw [if_neg (lt_asymm behind), if_neg (lt_asymm behind), if_pos behind, if_pos behind]
      cases q with
      | nil => cases higher
      | node d q₁ q₂ =>
        obtain ⟨heap₁, heap₂, heap₃, rotated, linked, rotated', placed⟩ :=
          leftRightRotate_placed here left right distinct
        refine ⟨d.1, heap₃, ?_, placed⟩
        simp only [rotated, linked, rotated', Option.bind_some]
  · have notHigh : ¬ (l.height : Int) - r.height > 1 := by omega
    rw [if_neg notHigh, if_neg leftTall]
    by_cases rightTall : l.height + 1 < r.height
    · have low : (l.height : Int) - r.height < -1 := by omega
      rw [if_pos low, if_pos rightTall]
      obtain ⟨b, p, q, rfl, side⟩ := grown_cases (rightGrown rightTall) (by omega)
      have atB := right.1
      simp only [here, nodeOf, rootOf_node, atB, Option.bind_some]
      rcases side with ⟨before, higher⟩ | ⟨behind, _⟩
      · rw [if_neg (lt_asymm before), if_neg (lt_asymm before), if_pos before, if_pos before]
        cases p with
        | nil => cases higher
        | node d p₁ p₂ =>
          obtain ⟨heap₁, heap₂, heap₃, rotated, linked, rotated', placed⟩ :=
            rightLeftRotate_placed here right left distinct
          refine ⟨d.1, heap₃, ?_, placed⟩
          simp only [rotated, linked, rotated', Option.bind_some]
      · rw [if_pos behind, if_pos behind]
        obtain ⟨heap', rotated, placed⟩ :=
          leftRotate_placed here atB left right.2.1 right.2.2 distinct
        exact ⟨b.1, heap', rotated, placed⟩
    · have notLow : ¬ (l.height : Int) - r.height < -1 := by omega
      rw [if_neg notLow, if_neg rightTall]
      exact ⟨c.1, heap, rfl, rfl, ⟨here, left, right⟩, fun _ _ => rfl⟩

theorem addresses_insert {x : Cell I} :
    a ∈ addresses (insert Cell.lbn x t) ↔ a = x.1 ∨ a ∈ addresses t := by
  unfold addresses
  rw [((inorder_insert Cell.lbn x t).map Prod.fst).mem_iff, List.map_cons, List.mem_cons]

theorem nodup_addresses_insert {x : Cell I} (distinct : (addresses t).Nodup)
    (outside : x.1 ∉ addresses t) : (addresses (insert Cell.lbn x t)).Nodup := by
  unfold addresses
  rw [((inorder_insert Cell.lbn x t).map Prod.fst).nodup_iff, List.map_cons]
  exact List.nodup_cons.mpr ⟨outside, distinct⟩

theorem addresses_settleInsert :
    addresses (settleInsert Cell.lbn k c l r) = addresses (node c l r) := by
  unfold addresses
  rw [inorder_settleInsert, inorder_node]

/-- The cell `x` has been put into the left subtree of `c`, and the rest is rebalanced. -/
theorem Placed.settleLeft {x : Cell I} {p : TreePtr} {l' : BinaryTree (Cell I)} {height : Int}
    {heap₁ : TreeHeap I} (placed : Placed heap heap₁ p l')
    (here : heap c.1 = some (nodeOf c l r height)) (right : Laid heap r)
    (apart : CellsApart c l' r) (inside : x ∈ inorder l')
    (leftGrown : r.height + 1 < l'.height → Grown Cell.lbn (Cell.lbn x) l')
    (rightLow : r.height ≤ l'.height + 1) :
    ∃ heap₂ heap₃ q heap₄, setLeft heap₁ c.1 (some p) = some heap₂ ∧
      updateHeight heap₂ c.1 = some heap₃ ∧ rebalanceInserted heap₃ c.1 x.1 = some (q, heap₄) ∧
        Placed heap heap₄ q (settleInsert Cell.lbn (Cell.lbn x) c l' r) := by
  have right₁ : Laid heap₁ r := right.congr fun a member =>
    placed.frame a fun old => apart.disjoint a old member
  obtain ⟨heap₂, heap₃, linked, updated, laid₃, same₃⟩ :=
    relinkLeft ((placed.frame _ apart.notLeft).trans here) placed.laid right₁
      apart.notLeft apart.notRight
  rw [placed.root] at linked
  obtain ⟨n, new₃, _, key, _⟩ := laid₃.entry (List.mem_append_left _ inside)
  have rightGrown : l'.height + 1 < r.height → Grown Cell.lbn (Cell.lbn x) r :=
    fun tall => absurd tall (Nat.not_lt.mpr rightLow)
  obtain ⟨q, heap₄, settled, whole⟩ :=
    rebalanceInserted_placed laid₃ (apart_iff.mpr apart) new₃ key leftGrown rightGrown
  refine ⟨heap₂, heap₃, q, heap₄, linked, updated, settled, whole.root, whole.laid, ?_⟩
  intro a outer
  have away := outer
  rw [addresses_settleInsert, mem_addresses_node] at away
  calc heap₄ a = heap₃ a := whole.frame a outer
    _ = heap₁ a := same₃ a fun same => away (.inr (.inl same))
    _ = heap a := placed.frame a fun old => away (.inl old)

/-- The cell `x` has been put into the right subtree of `c`, and the rest is rebalanced. -/
theorem Placed.settleRight {x : Cell I} {p : TreePtr} {r' : BinaryTree (Cell I)} {height : Int}
    {heap₁ : TreeHeap I} (placed : Placed heap heap₁ p r')
    (here : heap c.1 = some (nodeOf c l r height)) (left : Laid heap l)
    (apart : CellsApart c l r') (inside : x ∈ inorder r')
    (leftLow : l.height ≤ r'.height + 1)
    (rightGrown : l.height + 1 < r'.height → Grown Cell.lbn (Cell.lbn x) r') :
    ∃ heap₂ heap₃ q heap₄, setRight heap₁ c.1 (some p) = some heap₂ ∧
      updateHeight heap₂ c.1 = some heap₃ ∧ rebalanceInserted heap₃ c.1 x.1 = some (q, heap₄) ∧
        Placed heap heap₄ q (settleInsert Cell.lbn (Cell.lbn x) c l r') := by
  have left₁ : Laid heap₁ l := left.congr fun a member =>
    placed.frame a fun old => apart.disjoint a member old
  obtain ⟨heap₂, heap₃, linked, updated, laid₃, same₃⟩ :=
    relinkRight ((placed.frame _ apart.notRight).trans here) left₁ placed.laid
      apart.notLeft apart.notRight
  rw [placed.root] at linked
  obtain ⟨n, new₃, _, key, _⟩ :=
    laid₃.entry (List.mem_append_right _ (List.mem_cons_of_mem c inside))
  have leftGrown : r'.height + 1 < l.height → Grown Cell.lbn (Cell.lbn x) l :=
    fun tall => absurd tall (Nat.not_lt.mpr leftLow)
  obtain ⟨q, heap₄, settled, whole⟩ :=
    rebalanceInserted_placed laid₃ (apart_iff.mpr apart) new₃ key leftGrown rightGrown
  refine ⟨heap₂, heap₃, q, heap₄, linked, updated, settled, whole.root, whole.laid, ?_⟩
  intro a outer
  have away := outer
  rw [addresses_settleInsert, mem_addresses_node] at away
  calc heap₄ a = heap₃ a := whole.frame a outer
    _ = heap₁ a := same₃ a fun same => away (.inr (.inl same))
    _ = heap a := placed.frame a fun old => away (.inr (.inr old))

/-- insert_tree_node puts a new node with a new key into the tree. -/
theorem insertBelow_placed {x : Cell I} {fuel : Nat} (laid : Laid heap t)
    (distinct : (addresses t).Nodup) (ordered : Ordered Cell.lbn t) (balanced : Balanced t)
    (absent : ∀ b ∈ inorder t, Cell.lbn b ≠ Cell.lbn x) (outside : x.1 ∉ addresses t)
    (new : heap x.1 = some (nodeOf x nil nil 1)) (enough : t.height < fuel) :
    ∃ p heap', insertBelow x.1 fuel (rootOf t) heap = some (p, heap') ∧
      Placed heap heap' p (AvlTree.insert Cell.lbn x t) := by
  induction t generalizing fuel with
  | nil =>
    cases fuel with
    | zero => cases enough
    | succ fuel => exact ⟨x.1, heap, rfl, rfl, ⟨new, trivial, trivial⟩, fun _ _ => rfl⟩
  | node c l r left right =>
    have apart := apart_iff.mp distinct
    obtain ⟨here, first, last⟩ := laid
    obtain ⟨_, _, orderedLeft, orderedRight⟩ := ordered
    obtain ⟨low, high, balancedLeft, balancedRight⟩ := balanced
    rw [mem_addresses_node] at outside
    rw [inorder_node] at absent
    rw [height] at enough
    have xL : x.1 ∉ addresses l := fun member => outside (.inl member)
    have xC : x.1 ≠ c.1 := fun same => outside (.inr (.inl same))
    have xR : x.1 ∉ addresses r := fun member => outside (.inr (.inr member))
    have absentLeft : ∀ b ∈ inorder l, Cell.lbn b ≠ Cell.lbn x :=
      fun b member => absent b (List.mem_append_left _ member)
    have absentRight : ∀ b ∈ inorder r, Cell.lbn b ≠ Cell.lbn x := fun b member =>
      absent b (List.mem_append_right _ (List.mem_cons_of_mem c member))
    cases fuel with
    | zero => cases enough
    | succ fuel =>
      simp only [insertBelow, rootOf_node, here, new, Option.bind_eq_bind, Option.bind_some]
      rw [AvlTree.insert]
      by_cases less : Cell.lbn x < Cell.lbn c
      · have less' : (nodeOf x nil nil 1).lbn < (nodeOf c l r (node c l r).height).lbn := less
        rw [if_pos less, if_pos less']
        have enough' : l.height < fuel := by omega
        obtain ⟨p, heap₁, recursed, placed⟩ :=
          left first apart.left orderedLeft balancedLeft absentLeft xL enough'
        obtain ⟨_, grows⟩ := inserted_insert orderedLeft balancedLeft absentLeft
        have apart' : CellsApart c (AvlTree.insert Cell.lbn x l) r := by
          apply apart.replaceLeft (nodup_addresses_insert apart.left xL)
          intro a member
          rcases addresses_insert.mp member with rfl | old
          · exact ⟨xC, xR⟩
          · exact ⟨fun same => apart.notLeft (same ▸ old), apart.disjoint a old⟩
        have leftGrown : r.height + 1 < (AvlTree.insert Cell.lbn x l).height →
            Grown Cell.lbn (Cell.lbn x) (AvlTree.insert Cell.lbn x l) := by
          intro tall
          rcases grows with same | ⟨_, grown⟩
          · omega
          · exact grown
        obtain ⟨heap₂, heap₃, q, heap₄, linked, updated, settled, whole⟩ :=
          placed.settleLeft here last apart' ((mem_insert _).mpr (.inl rfl)) leftGrown (by omega)
        refine ⟨q, heap₄, ?_, whole⟩
        simp only [nodeOf, recursed, linked, updated, settled, Option.bind_some]
      · have notLess : ¬ (nodeOf x nil nil 1).lbn < (nodeOf c l r (node c l r).height).lbn := less
        rw [if_neg less, if_neg notLess]
        have enough' : r.height < fuel := by omega
        obtain ⟨p, heap₁, recursed, placed⟩ :=
          right last apart.right orderedRight balancedRight absentRight xR enough'
        obtain ⟨_, grows⟩ := inserted_insert orderedRight balancedRight absentRight
        have apart' : CellsApart c l (AvlTree.insert Cell.lbn x r) := by
          apply apart.replaceRight (nodup_addresses_insert apart.right xR)
          intro a member
          rcases addresses_insert.mp member with rfl | old
          · exact ⟨xC, xL⟩
          · exact ⟨fun same => apart.notRight (same ▸ old), fun inLeft =>
              apart.disjoint a inLeft old⟩
        have rightGrown : l.height + 1 < (AvlTree.insert Cell.lbn x r).height →
            Grown Cell.lbn (Cell.lbn x) (AvlTree.insert Cell.lbn x r) := by
          intro tall
          rcases grows with same | ⟨_, grown⟩
          · omega
          · exact grown
        obtain ⟨heap₂, heap₃, q, heap₄, linked, updated, settled, whole⟩ :=
          placed.settleRight here first apart' ((mem_insert _).mpr (.inl rfl)) (by omega) rightGrown
        refine ⟨q, heap₄, ?_, whole⟩
        simp only [nodeOf, recursed, linked, updated, settled, Option.bind_some]

end BurstBuffer.Source
