import Mathlib.Data.Fintype.Card
import BurstBuffer.Invariants.TreeSteps

/-!
# The tree of a state

A state is in order when an ordered, balanced tree lies in its heap below the root.
Every operation of the tree then returns, and the state stays in order.
-/
namespace BurstBuffer.Source

open Library BinaryTree SearchTree AvlTree

variable {I : Type}

/-- The node `m` at `b` is reached from a pointer along `left` and `right`. -/
inductive InTree (heap : TreeHeap I) : Option TreePtr → TreePtr → TreeNode I → Prop where
  | here {a : TreePtr} {n : TreeNode I} (found : heap a = some n) : InTree heap (some a) a n
  | left {a b : TreePtr} {n m : TreeNode I} (found : heap a = some n)
      (below : InTree heap n.left b m) : InTree heap (some a) b m
  | right {a b : TreePtr} {n m : TreeNode I} (found : heap a = some n)
      (below : InTree heap n.right b m) : InTree heap (some a) b m

def TreeNode.entry (n : TreeNode I) : TreeEntry I := ⟨n.inode, n.lbn, n.valid⟩

/-- No node of the tree has the lbn. -/
def Absent (s : TreeState I) (k : Lbn) : Prop :=
  ∀ a n, InTree s.heap s.root a n → n.lbn ≠ k

/-- Some node of the tree holds the entry. -/
def Holds (s : TreeState I) (e : TreeEntry I) : Prop :=
  ∃ a n, InTree s.heap s.root a n ∧ n.entry = e

theorem Laid.inTree_iff {heap : TreeHeap I} {t : BinaryTree (Cell I)} {b : TreePtr}
    {m : TreeNode I} (laid : Laid heap t) :
    InTree heap (rootOf t) b m ↔ heap b = some m ∧ ∃ c ∈ inorder t, c.1 = b ∧ c.2 = m.entry := by
  induction t with
  | nil =>
    constructor
    · intro reached
      cases reached
    · rintro ⟨_, c, member, _⟩
      cases member
  | node c l r left right =>
    obtain ⟨here, first, last⟩ := laid
    rw [rootOf_node, inorder_node]
    constructor
    · intro reached
      cases reached with
      | here found =>
        cases here.symm.trans found
        exact ⟨here, c, List.mem_append_right _ List.mem_cons_self, rfl, rfl⟩
      | left found below =>
        cases here.symm.trans found
        obtain ⟨there, d, member, same⟩ := (left first).mp below
        exact ⟨there, d, List.mem_append_left _ member, same⟩
      | right found below =>
        cases here.symm.trans found
        obtain ⟨there, d, member, same⟩ := (right last).mp below
        exact ⟨there, d, List.mem_append_right _ (List.mem_cons_of_mem c member), same⟩
    · rintro ⟨there, d, member, same⟩
      rcases List.mem_append.mp member with inLeft | rest
      · exact .left here ((left first).mpr ⟨there, d, inLeft, same⟩)
      · rcases List.mem_cons.mp rest with rfl | inRight
        · obtain ⟨rfl, _⟩ := same
          exact .here there
        · exact .right here ((right last).mpr ⟨there, d, inRight, same⟩)

/-- The cells of `t` are the tree of the state, and what else is in the heap has just
been made by init_tree_node. -/
structure TreeOk (s : TreeState I) (t : BinaryTree (Cell I)) : Prop where
  root : s.root = rootOf t
  laid : Laid s.heap t
  distinct : (addresses t).Nodup
  ordered : Ordered Cell.lbn t
  balanced : Balanced t
  fresh : ∀ a n, s.heap a = some n → a ∉ addresses t → n = initTreeNode n.inode n.lbn

namespace TreeOk

variable {s s' : TreeState I} {t : BinaryTree (Cell I)} {a : TreePtr} {n : TreeNode I}

theorem empty : TreeOk (emptyTree : TreeState I) nil :=
  ⟨rfl, trivial, List.nodup_nil, trivial, trivial, fun _ _ found => nomatch found⟩

/-- The nodes of the tree are its cells. -/
theorem inTree_cells (ok : TreeOk s t) {P : TreeEntry I → Prop} :
    (∃ n, InTree s.heap s.root a n ∧ P n.entry) ↔ ∃ c ∈ inorder t, c.1 = a ∧ P c.2 := by
  rw [ok.root]
  constructor
  · rintro ⟨n, reached, holds⟩
    obtain ⟨_, c, member, here, same⟩ := ok.laid.inTree_iff.mp reached
    exact ⟨c, member, here, same ▸ holds⟩
  · rintro ⟨c, member, rfl, holds⟩
    obtain ⟨n, found, inode, lbn, valid⟩ := ok.laid.entry member
    have same : c.2 = n.entry := by
      rw [TreeNode.entry, inode, lbn, valid]
    exact ⟨n, ok.laid.inTree_iff.mpr ⟨found, c, member, rfl, same⟩, same ▸ holds⟩

theorem holds_iff (ok : TreeOk s t) {e : TreeEntry I} : Holds s e ↔ e ∈ treeEntries t := by
  unfold Holds treeEntries
  rw [List.mem_map]
  constructor
  · rintro ⟨a, reached⟩
    obtain ⟨c, member, _, same⟩ := (ok.inTree_cells (P := fun f => f = e)).mp reached
    exact ⟨c, member, same⟩
  · rintro ⟨c, member, same⟩
    exact ⟨c.1, (ok.inTree_cells (P := fun f => f = e)).mpr ⟨c, member, rfl, same⟩⟩

theorem absent_iff (ok : TreeOk s t) {k : Lbn} :
    Absent s k ↔ ∀ c ∈ inorder t, Cell.lbn c ≠ k := by
  constructor
  · intro absent c member
    obtain ⟨a, n, reached, same⟩ := ok.holds_iff.mpr (List.mem_map_of_mem member)
    have other := absent a n reached
    rw [Cell.lbn, ← same]
    exact other
  · intro absent a n reached
    rw [ok.root] at reached
    obtain ⟨_, c, member, _, same⟩ := ok.laid.inTree_iff.mp reached
    have other := absent c member
    rw [Cell.lbn, same] at other
    exact other

/-- There are no more nodes than keys. -/
theorem numNodes_le (ok : TreeOk s t) : t.numNodes ≤ 2 ^ 32 := by
  have bound := ok.ordered.nodup_keys.length_le_card
  rw [List.length_map, length_inorder, Fintype.card_fin] at bound
  exact bound

theorem height_lt (ok : TreeOk s t) : t.height < treeFuel := by
  have nodes := ok.numNodes_le
  have low := t.height_le_numNodes
  unfold treeFuel
  omega

/-- The stored heights fit in an `int`, and so does the depth of a recursion. -/
theorem height_le (ok : TreeOk s t) : t.height ≤ 65 := by
  by_contra high
  have nodes := ok.numNodes_le
  have pow := two_pow_half_height_le ok.balanced
  have more : 2 ^ 33 ≤ 2 ^ (t.height / 2) := Nat.pow_le_pow_right Nat.two_pos (by omega)
  omega

theorem not_mem_of_unused (ok : TreeOk s t) (unused : s.heap a = none) : a ∉ addresses t := by
  intro member
  obtain ⟨c, inside, rfl⟩ := List.mem_map.mp member
  obtain ⟨n, found, _⟩ := ok.laid.entry inside
  rw [unused] at found
  cases found

theorem init (ok : TreeOk s t) (unused : s.heap a = none) (inode : I) (lbn : Lbn) :
    TreeOk { s with heap := s.heap.store a (initTreeNode inode lbn) } t := by
  have wrote : Wrote s.heap (s.heap.store a (initTreeNode inode lbn)) a _ := wrote_store
  refine ⟨ok.root, ok.laid.wrote wrote (ok.not_mem_of_unused unused), ok.distinct, ok.ordered,
    ok.balanced, fun b n found outside => ?_⟩
  by_cases here : b = a
  · subst b
    cases wrote.here.symm.trans found
    rfl
  · exact ok.fresh b n ((wrote.others b here).symm.trans found) outside

theorem search (ok : TreeOk s t) (k : Lbn) :
    searchTreeNode s k = some ((find Cell.lbn k t).map Prod.fst) := by
  rw [searchTreeNode, ok.root]
  exact searchFrom_laid ok.laid ok.height_lt

/-- search_tree_node finds every entry. -/
theorem search_entry {e : TreeEntry I} (ok : TreeOk s t) (member : e ∈ treeEntries t) :
    ∃ a n, searchTreeNode s e.lbn = some (some a) ∧ s.heap a = some n ∧ n.entry = e := by
  obtain ⟨c, inside, rfl⟩ := List.mem_map.mp member
  obtain ⟨n, found, inode, lbn, valid⟩ := ok.laid.entry inside
  have first : find Cell.lbn c.2.lbn t = some c := (find_eq_some_iff ok.ordered).mpr ⟨inside, rfl⟩
  refine ⟨c.1, n, ?_, found, ?_⟩
  · rw [ok.search, first, Option.map_some]
  · rw [TreeNode.entry, inode, lbn, valid]

/-- A node with a new lbn is inserted. -/
theorem insert (ok : TreeOk s t) (given : s.heap a = some n) (absent : Absent s n.lbn) :
    ∃ s', insertTreeNode s a = some s' ∧ TreeOk s' (AvlTree.insert Cell.lbn (a, n.entry) t) ∧
      n.valid = .valid ∧ s'.countTotal = wrapInt (s.countTotal + 1) ∧
        s'.countInvalid = s.countInvalid ∧ ∀ b, s.heap b = none → s'.heap b = none := by
  have newKey : ∀ c ∈ inorder t, Cell.lbn c ≠ Cell.lbn (a, n.entry) := ok.absent_iff.mp absent
  have outside : a ∉ addresses t := by
    intro member
    obtain ⟨c, inside, rfl⟩ := List.mem_map.mp member
    obtain ⟨m, found, _, lbn, _⟩ := ok.laid.entry inside
    cases given.symm.trans found
    exact newKey c inside lbn.symm
  have made := ok.fresh a n given outside
  have new : s.heap a = some (nodeOf (a, n.entry) nil nil 1) := by
    rw [given, made]
    rfl
  obtain ⟨p, heap', inserted, placed⟩ := insertBelow_placed (x := (a, n.entry)) ok.laid ok.distinct
    ok.ordered ok.balanced newKey outside new ok.height_lt
  refine ⟨{ s with heap := heap', root := some p, countTotal := wrapInt (s.countTotal + 1) }, ?_,
    ⟨placed.root.symm, placed.laid, nodup_addresses_insert ok.distinct outside,
      ordered_insert ok.ordered newKey, (inserted_insert ok.ordered ok.balanced newKey).balanced,
      fun b m found notIn => ?_⟩, by rw [made]; rfl, rfl, rfl, fun b unused => ?_⟩
  · rw [insertTreeNode, ok.root, inserted]
    rfl
  · exact ok.fresh b m ((placed.frame b notIn).symm.trans found) fun member =>
      notIn (addresses_insert.mpr (.inr member))
  · have notIn : b ∉ addresses (AvlTree.insert Cell.lbn (a, n.entry) t) := by
      rw [addresses_insert]
      rintro (rfl | member)
      · cases given.symm.trans unused
      · exact ok.not_mem_of_unused unused member
    exact (placed.frame b notIn).trans unused

/-- The entry with the lbn of the node is marked. -/
theorem logicalDelete (ok : TreeOk s t) (given : s.heap a = some n) :
    ∃ s', logicalDeleteTreeNode s a = some s' ∧ TreeOk s' (markCell n.lbn t) ∧
      s'.countTotal = s.countTotal ∧
      s'.countInvalid = countMarked s.countInvalid (find Cell.lbn n.lbn t) := by
  obtain ⟨heap', marked, laid, frame⟩ :=
    logicalDeleteFrom_laid ok.laid given ok.height_lt ok.distinct
  refine ⟨{ s with heap := heap', countInvalid := countMarked s.countInvalid _ },
    by rw [logicalDeleteTreeNode, ← marked, ok.root],
    ⟨?_, laid, ?_, ordered_markCell ok.ordered, balanced_change ok.balanced,
      fun b m found outside => ?_⟩, rfl, rfl⟩
  · rw [rootOf_markCell]
    exact ok.root
  · rw [addresses_markCell]
    exact ok.distinct
  · rw [addresses_markCell] at outside
    exact ok.fresh b m ((frame b outside).symm.trans found) outside

/-- The entry with the lbn of the node is removed; the node may be in the tree. -/
theorem physicalDelete {target : Option TreePtr} (ok : TreeOk s t)
    (given : target.bind s.heap = some n) :
    ∃ s', physicalDeleteTreeNode s target = some s' ∧ TreeOk s' (eraseCell n.lbn t) ∧
      s'.countTotal = s.countTotal ∧ s'.countInvalid = s.countInvalid := by
  obtain ⟨p, heap', deleted, removed⟩ :=
    physicalDeleteBelow_removed ok.laid ok.distinct ok.balanced given ok.height_lt
  have fewer := addresses_eraseCell (k := n.lbn) ok.balanced
  refine ⟨{ s with heap := heap', root := p },
    by rw [physicalDeleteTreeNode, ok.root, deleted]; rfl,
    ⟨removed.root, removed.laid, fewer.nodup ok.distinct, ordered_erase (fun _ _ => rfl) ok.ordered,
      (shrunk_erase ok.balanced).balanced, fun b m found outside => ?_⟩, rfl, rfl⟩
  by_cases old : b ∈ addresses t
  · cases (removed.freed b old outside).symm.trans found
  · exact ok.fresh b m ((removed.frame b old).symm.trans found) old

/-- find_invalid_tree_node finds a marked entry if there is one. -/
theorem findInvalid (ok : TreeOk s t) :
    (∃ c ∈ inorder t, findInvalidTreeNode s = some (some c.1) ∧ c.2.valid = .invalid) ∨
      findInvalidTreeNode s = some none ∧ ∀ c ∈ inorder t, c.2.valid = .valid := by
  unfold findInvalidTreeNode
  rw [ok.root]
  cases shape : t with
  | nil => exact .inr ⟨rfl, fun c member => nomatch member⟩
  | node d l r =>
    subst shape
    have laid : ∀ u ∈ [node d l r], u ≠ nil ∧ Laid s.heap u := by
      intro u member
      rw [List.mem_singleton.mp member]
      exact ⟨nofun, ok.laid⟩
    have enough : ([node d l r].map numNodes).sum < treeFuel := by
      have nodes := ok.numNodes_le
      rw [List.map_singleton, List.sum_singleton]
      unfold treeFuel
      omega
    rcases findInvalidFrom_laid laid enough with
      ⟨c, found, marked, u, member, inside⟩ | ⟨none, valid⟩
    · rw [List.mem_singleton.mp member] at inside
      exact .inl ⟨c, inside, found, marked⟩
    · exact .inr ⟨none, valid _ List.mem_cons_self⟩

end TreeOk

end BurstBuffer.Source
