import BurstBuffer.Invariants.TreeRuns

/-!
# The shape of the tree

Any edits with new lbns leave an ordered tree whose stored heights are right and
whose subtrees differ in height by at most one.
-/
namespace BurstBuffer.Guarantees

open Source Library BinaryTree SearchTree AvlTree

variable {I : Type}

/-- The real height of the tree below a pointer. -/
inductive HasHeight (heap : TreeHeap I) : Option TreePtr → Nat → Prop where
  | null : HasHeight heap none 0
  | node {a : TreePtr} {n : TreeNode I} {hl hr : Nat} (found : heap a = some n)
      (left : HasHeight heap n.left hl) (right : HasHeight heap n.right hr) :
      HasHeight heap (some a) (max hl hr + 1)

/-- What the shape invariant says of the node `n` at `a`. -/
structure NodeShape (heap : TreeHeap I) (a : TreePtr) (n : TreeNode I) : Prop where
  below : ∀ b m, InTree heap n.left b m → m.lbn < n.lbn
  above : ∀ b m, InTree heap n.right b m → n.lbn < m.lbn
  height : ∃ h : Nat, HasHeight heap (some a) h ∧ n.height = h
  balanced : ∃ hl hr, HasHeight heap n.left hl ∧ HasHeight heap n.right hr ∧
    hl ≤ hr + 1 ∧ hr ≤ hl + 1

section Shape

variable {heap : TreeHeap I} {t : BinaryTree (Cell I)} {a : TreePtr} {n : TreeNode I}

theorem hasHeight_laid (laid : Laid heap t) : HasHeight heap (rootOf t) t.height := by
  induction t with
  | nil => exact .null
  | node c l r left right =>
    obtain ⟨here, first, last⟩ := laid
    exact .node here (left first) (right last)

theorem nodeShape_laid (laid : Laid heap t) (ordered : Ordered Cell.lbn t) (balanced : Balanced t)
    (reached : InTree heap (rootOf t) a n) : NodeShape heap a n := by
  induction t with
  | nil => cases reached
  | node c l r left right =>
    have whole := hasHeight_laid laid
    obtain ⟨here, first, last⟩ := laid
    obtain ⟨smaller, larger, orderedLeft, orderedRight⟩ := ordered
    obtain ⟨low, high, balancedLeft, balancedRight⟩ := balanced
    cases reached with
    | here found =>
      cases here.symm.trans found
      refine ⟨fun b m below => ?_, fun b m above => ?_, ⟨_, whole, rfl⟩,
        ⟨l.height, r.height, hasHeight_laid first, hasHeight_laid last, low, high⟩⟩
      · obtain ⟨_, d, member, _, same⟩ := first.inTree_iff.mp below
        have less := smaller d member
        rw [Cell.lbn, same] at less
        exact less
      · obtain ⟨_, d, member, _, same⟩ := last.inTree_iff.mp above
        have less := larger d member
        rw [Cell.lbn, Cell.lbn, same] at less
        exact less
    | left found below =>
      cases here.symm.trans found
      exact left first orderedLeft balancedLeft below
    | right found below =>
      cases here.symm.trans found
      exact right last orderedRight balancedRight below

/-- No stored height is above that of the root. -/
theorem height_le_of_inTree (laid : Laid heap t) (reached : InTree heap (rootOf t) a n) :
    n.height ≤ t.height := by
  induction t with
  | nil => cases reached
  | node c l r left right =>
    obtain ⟨here, first, last⟩ := laid
    rw [height]
    cases reached with
    | here found =>
      cases here.symm.trans found
      exact le_of_eq rfl
    | left found below =>
      cases here.symm.trans found
      have low := left first below
      omega
    | right found below =>
      cases here.symm.trans found
      have low := right last below
      omega

end Shape

/-- After any edits every node has the shape, and every edit returns. The heights fit in an
`int`: there are no more nodes than lbns. -/
theorem avl_shape (I : Type) (s : TreeState I) (reach : (treeSystem I).ReachableBy Edits s) :
    (∀ a n, InTree s.heap s.root a n → NodeShape s.heap a n) ∧
      (∀ e, Edits s e → ∃ t, treeNext s e = some t) ∧
      ∀ a n, InTree s.heap s.root a n → n.height ≤ 65 := by
  obtain ⟨t, ok⟩ := TreeOk.of_edits reach
  rw [ok.root]
  refine ⟨fun a n reached => nodeShape_laid ok.laid ok.ordered ok.balanced reached,
    fun e allowed => ?_, fun a n reached => ?_⟩
  · obtain ⟨s', _, stepped, _⟩ := ok.edit allowed
    exact ⟨s', stepped⟩
  · have below := height_le_of_inTree ok.laid reached
    have low := ok.height_le
    omega

/-- Nodes 0 to 5 are inserted with the lbns 5, 2, 8, 1, 3 and 4, and the root, which is
then the lbn 3, is deleted. -/
def shapeRun : List (TreeEvent Unit) :=
  [.init 0 () 5, .insert 0, .init 1 () 2, .insert 1, .init 2 () 8, .insert 2, .init 3 () 1,
    .insert 3, .init 4 () 3, .insert 4, .init 5 () 4, .insert 5, .physicalDelete 4]

/-- The root has taken the entry of its successor. -/
def rootLbn (s : TreeState Unit) : Option Lbn := (s.root.bind s.heap).map TreeNode.lbn

theorem avl_shape_deleted : ∃ s : TreeState Unit, rootLbn s = some 4 ∧
    ∀ a n, InTree s.heap s.root a n → NodeShape s.heap a n := by
  have runs : ((treeSystem Unit).runBy (fun s e => checkEdit s e = true) emptyTree shapeRun).any
      (fun s => rootLbn s = some 4) = true := by decide +kernel
  obtain ⟨s, steps, root⟩ := (Option.any_eq_true _ _).mp runs
  exact ⟨s, of_decide_eq_true root, (avl_shape Unit s (edits_of_run steps)).1⟩

end BurstBuffer.Guarantees
