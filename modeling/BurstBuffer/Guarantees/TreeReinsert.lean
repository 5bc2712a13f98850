import BurstBuffer.Guarantees.TreeRebalance

/-!
# Inserting a deleted lbn again

insert_tree_node puts a node beside an old one with the same lbn, and the other
operations stop at the first node with the lbn they meet. So an lbn has to leave
the tree, by rebalance_tree_node, before it is inserted again.
-/
namespace BurstBuffer.Guarantees

open Source Library BinaryTree SearchTree AvlTree

variable {I : Type}

/-- Insertions of new nodes whose lbn has no valid node, marks and rebalancing. -/
def Reinserts (s : TreeState I) : TreeEvent I → Prop
  | .init a _ _ => s.heap a = none
  | .insert a => ∃ n, s.heap a = some n ∧ (∀ m, ¬ InTree s.heap s.root a m) ∧
      ∀ b m, InTree s.heap s.root b m → m.lbn = n.lbn → m.valid = .invalid
  | .logicalDelete a => ∃ n, s.heap a = some n
  | .physicalDelete _ => False
  | .rebalance => True

/-- The same, with lbns that have left the tree and as long as an `int` counts the
nodes that are marked. -/
def InsertsNew (s : TreeState I) : TreeEvent I → Prop
  | .init a _ _ => s.heap a = none
  | .insert a => ∃ n, s.heap a = some n ∧ Absent s n.lbn
  | .logicalDelete a => ∃ n, s.heap a = some n ∧
      ((∃ b m, InTree s.heap s.root b m ∧ m.lbn = n.lbn ∧ m.valid = .valid) →
        invalidNodeCount s + 1 < 2 ^ 31)
  | .physicalDelete _ => False
  | .rebalance => True

/-- search_tree_node finds every lbn that has a valid node, and rebalance_tree_node
leaves just the valid nodes. -/
structure Reusable (s : TreeState I) : Prop where
  search : ∀ e, Holds s e → e.valid = .valid → ∃ a n,
    searchTreeNode s e.lbn = some (some a) ∧ s.heap a = some n ∧ n.lbn = e.lbn ∧ n.valid = .valid
  rebalance : ∃ u, rebalanceTreeNode s = some u ∧ ∀ e, Holds u e ↔ Holds s e ∧ e.valid = .valid

/-- The tree is in order and the count of its marked entries exact. -/
structure Exact (s : TreeState I) (t : BinaryTree (Cell I)) : Prop where
  ok : TreeOk s t
  total : s.countTotal = wrapInt t.numNodes
  invalid : s.countInvalid = invalidCount (treeEntries t)
  fits : invalidCount (treeEntries t) < 2 ^ 31

section Steps

variable {s u : TreeState I} {t : BinaryTree (Cell I)} {e : TreeEvent I}

theorem Exact.counted (exact : Exact s t) : Counted s t := by
  constructor
  · exact exact.total
  · have fits := exact.fits
    rw [exact.invalid, wrapInt_eq] <;> omega

theorem Exact.of_counted (ok : TreeOk s t) (counted : Counted s t)
    (fits : invalidCount (treeEntries t) < 2 ^ 31) : Exact s t := by
  refine ⟨ok, counted.total, ?_, fits⟩
  rw [counted.invalid, wrapInt_eq] <;> omega

theorem Exact.rebalance (exact : Exact s t) :
    ∃ u t', rebalanceTreeNode s = some u ∧ Exact u t' ∧ treeEntries t' = validEntries t := by
  have fits := exact.fits
  have enough : invalidCount (treeEntries t) < treeFuel := by
    unfold treeFuel
    omega
  obtain ⟨u, t', looped, ok', same, total, zero⟩ :=
    exact.ok.rebalanceLoop exact.total rfl exact.invalid fits enough
  have none_marked : invalidCount (treeEntries t') = 0 := by
    rw [same, invalidCount, List.countP_eq_zero]
    intro e member
    have valid := (List.mem_filter.mp member).2
    simp_all
  exact ⟨u, t', looped, ⟨ok', total, by rw [zero, none_marked]; rfl, by omega⟩, same⟩

theorem Exact.step (exact : Exact s t) (allowed : InsertsNew s e) :
    ∃ u t', treeNext s e = some u ∧ Exact u t' := by
  cases e with
  | physicalDelete a => cases allowed
  | rebalance =>
    obtain ⟨u, t', done, exact', _⟩ := exact.rebalance
    exact ⟨u, t', done, exact'⟩
  | init a inode lbn =>
    have edit : Edits s (.init a inode lbn) := allowed
    obtain ⟨u, t', stepped, ok', edited⟩ := exact.ok.edit edit
    cases edited with
    | init _ _ _ total invalid =>
      exact ⟨u, t, stepped, ok', total.trans exact.total, invalid.trans exact.invalid, exact.fits⟩
  | insert a =>
    have edit : Edits s (.insert a) := allowed
    obtain ⟨u, t', stepped, ok', edited⟩ := exact.ok.edit edit
    cases edited with
    | insert _ n given absent valid total invalid =>
      have counted := exact.counted.insert (x := (a, n.entry)) valid total invalid
      have same : invalidCount (treeEntries (AvlTree.insert Cell.lbn (a, n.entry) t)) =
          invalidCount (treeEntries t) := by
        rw [invalidCount_perm (entries_insert _ t), invalidCount_cons_valid valid]
      exact ⟨u, _, stepped, .of_counted ok' counted (same ▸ exact.fits)⟩
  | logicalDelete a =>
    obtain ⟨n, given, room⟩ := allowed
    obtain ⟨u, t', stepped, ok', edited⟩ := exact.ok.edit (e := .logicalDelete a) ⟨n, given⟩
    cases edited with
    | mark _ m given' total invalid =>
      cases given.symm.trans given'
      have counted := exact.counted.logicalDelete exact.ok.ordered total invalid
      refine ⟨u, _, stepped, .of_counted ok' counted ?_⟩
      rcases invalidCount_markCell exact.ok.ordered n.lbn with ⟨c, found, valid, more⟩ | ⟨_, same⟩
      · obtain ⟨inside, key⟩ := (find_eq_some_iff exact.ok.ordered).mp found
        have cells := exact.ok.inTree_cells (a := c.1) (P := fun f => f = c.2)
        obtain ⟨m, reached, entry⟩ := cells.mpr ⟨c, inside, rfl, rfl⟩
        have here : m.lbn = n.lbn := (congrArg TreeEntry.lbn entry).trans key
        have unmarked : m.valid = .valid := (congrArg TreeEntry.valid entry).trans valid
        have space := room ⟨c.1, m, reached, here, unmarked⟩
        rw [invalidNodeCount_eq exact.ok] at space
        omega
      · rw [same]
        exact exact.fits

theorem Exact.of_reachable (reach : (treeSystem I).ReachableBy InsertsNew s) :
    ∃ t, Exact s t := by
  refine reach.invariant (I := fun s => ∃ t, Exact s t) ?_ ?_
  · rintro s rfl
    exact ⟨nil, .of_counted .empty counted_empty (Nat.two_pow_pos 31)⟩
  · rintro s e u ⟨t, exact⟩ allowed step
    obtain ⟨w, t', stepped, exact'⟩ := exact.step allowed
    cases stepped.symm.trans step
    exact ⟨t', exact'⟩

end Steps

/-- While inserted lbns are new, lbns can be deleted, rebalanced away and inserted
again, and every such operation returns. -/
theorem lbn_reusable (I : Type) (s : TreeState I)
    (reach : (treeSystem I).ReachableBy InsertsNew s) :
    Reusable s ∧ ∀ e, InsertsNew s e → ∃ u, treeNext s e = some u := by
  obtain ⟨t, exact⟩ := Exact.of_reachable reach
  refine ⟨⟨?_, ?_⟩, fun e allowed => ?_⟩
  · intro e held valid
    obtain ⟨a, n, found, there, rfl⟩ := exact.ok.search_entry (exact.ok.holds_iff.mp held)
    exact ⟨a, n, found, there, rfl, valid⟩
  · obtain ⟨u, t', done, exact', same⟩ := exact.rebalance
    exact ⟨u, done, (onlyValid_of_entries exact.ok exact'.ok same).entries⟩
  · obtain ⟨u, _, stepped, _⟩ := exact.step allowed
    exact ⟨u, stepped⟩

/-- The test of an operation, with a count of marked entries that leaves room. -/
def checkNew (s : TreeState I) : TreeEvent I → Bool
  | .physicalDelete _ => false
  | .rebalance => true
  | .logicalDelete a => (s.heap a).isSome && s.countInvalid < 2 ^ 31 - 1
  | e => checkEdit s e

theorem Exact.insertsNew_of_check {s : TreeState I} {t : BinaryTree (Cell I)} {e : TreeEvent I}
    (exact : Exact s t) (checked : checkNew s e = true) : InsertsNew s e := by
  cases e with
  | physicalDelete a => cases checked
  | rebalance => trivial
  | init a inode lbn => exact exact.ok.edits_of_check (e := .init a inode lbn) checked
  | insert a => exact exact.ok.edits_of_check (e := .insert a) checked
  | logicalDelete a =>
    obtain ⟨given, room⟩ := (Bool.and_eq_true _ _).mp checked
    obtain ⟨n, there⟩ := Option.isSome_iff_exists.mp given
    refine ⟨n, there, fun _ => ?_⟩
    have space := of_decide_eq_true room
    have count := exact.invalid
    rw [invalidNodeCount_eq exact.ok]
    omega

theorem insertsNew_of_run {s : TreeState I} {es : List (TreeEvent I)}
    (steps : (treeSystem I).runBy (fun s e => checkNew s e = true) emptyTree es = some s) :
    (treeSystem I).ReachableBy InsertsNew s := by
  apply Machine.ReachableBy.of_test (I := fun s => ∃ t, Exact s t) ?_ ?_ (.init rfl)
    ⟨nil, .of_counted .empty counted_empty (Nat.two_pow_pos 31)⟩ steps
  · intro s e u ⟨t, exact⟩ allowed step
    obtain ⟨w, t', stepped, exact'⟩ := exact.step allowed
    cases stepped.symm.trans step
    exact ⟨t', exact'⟩
  · intro s e ⟨t, exact⟩ checked
    exact exact.insertsNew_of_check checked

/-- The lbn 1 is deleted, rebalanced away and inserted again with another inode. -/
def reuseRun : List (TreeEvent Nat) :=
  [.init 0 10 1, .insert 0, .init 1 20 2, .insert 1, .logicalDelete 0, .rebalance,
    .init 2 30 1, .insert 2]

theorem lbn_reusable_again :
    ∃ s : TreeState Nat, searchTreeNode s 1 = some (some 2) ∧ Reusable s := by
  have runs : ((treeSystem Nat).runBy (fun s e => checkNew s e = true) emptyTree reuseRun).any
      (fun s => searchTreeNode s 1 = some (some 2)) = true := by decide +kernel
  obtain ⟨s, steps, found⟩ := (Option.any_eq_true _ _).mp runs
  exact ⟨s, of_decide_eq_true found, (lbn_reusable Nat s (insertsNew_of_run steps)).1⟩

/-- The lbn 1 is inserted and marked, and there is another node for it. -/
def markedRun : List (TreeEvent Unit) :=
  [.init 0 () 1, .insert 0, .logicalDelete 0, .init 1 () 1]

theorem InsertOrMark.reinserts {s : TreeState I} {t : BinaryTree (Cell I)} {e : TreeEvent I}
    (ok : TreeOk s t) (allowed : InsertOrMark s e) : Reinserts s e := by
  obtain ⟨edit, notPhysical⟩ := allowed
  cases e with
  | physicalDelete a => cases notPhysical
  | rebalance => trivial
  | init a inode lbn => exact edit
  | logicalDelete a => exact edit
  | insert a =>
    obtain ⟨n, given, absent⟩ := edit
    refine ⟨n, given, fun m reached => ?_, fun b m reached same => absurd same (absent b m reached)⟩
    have other := absent a m reached
    rw [ok.root] at reached
    obtain ⟨there, _⟩ := ok.laid.inTree_iff.mp reached
    cases given.symm.trans there
    exact other rfl

/-- The tree is the marked node 0. -/
def onlyMarked (s : TreeState Unit) : Bool :=
  s.root = some 0 && (s.heap 0).any fun n => n.left.isNone && n.right.isNone && n.valid = .invalid

/-- The valid node 1 lies behind the marked node 0, and the search stops at that one. -/
def shadowed (s : TreeState Unit) : Bool :=
  s.root = some 0 && searchTreeNode s 1 = some (some 0) &&
    (s.heap 0).any (fun n => n.right = some 1 && n.valid = .invalid) &&
      (s.heap 1).any fun n => n.lbn = 1 && n.valid = .valid

theorem not_reusable_of_shadowed {s : TreeState Unit} (shape : shadowed s = true) :
    ¬ Reusable s := by
  intro reusable
  simp only [shadowed, Bool.and_eq_true, decide_eq_true_eq, Option.any_eq_true] at shape
  obtain ⟨⟨⟨root, found⟩, n, at0, right, marked⟩, m, at1, lbn, valid⟩ := shape
  have held : Holds s m.entry := by
    refine ⟨1, m, ?_, rfl⟩
    rw [root]
    refine .right at0 ?_
    rw [right]
    exact .here at1
  obtain ⟨a, k, found', atA, _, unmarked⟩ := reusable.search m.entry held valid
  have key : m.entry.lbn = 1 := lbn
  rw [key, found] at found'
  cases found'
  cases at0.symm.trans atA
  rw [marked] at unmarked
  cases unmarked

/-- The lbn 1 is marked, not rebalanced away, and inserted again. -/
theorem lbn_reusable_marked : ¬ ∀ s : TreeState Unit,
    (treeSystem Unit).ReachableBy Reinserts s → Reusable s := by
  intro holds
  have runs : ((treeSystem Unit).runBy (fun s e => checkMark s e = true) emptyTree markedRun).any
      (fun s => onlyMarked s && ((s.heap 1).isSome && (treeNext s (.insert 1)).any shadowed)) =
        true := by decide +kernel
  obtain ⟨s, steps, shape⟩ := (Option.any_eq_true _ _).mp runs
  simp only [Bool.and_eq_true, Option.any_eq_true] at shape
  obtain ⟨only, given, u, inserted, shape⟩ := shape
  have reach := (insertOrMark_of_run steps).weaken (I := fun s => ∃ t, TreeOk s t ∧ Counted s t)
    (fun s start => ⟨nil, start ▸ .empty, start ▸ counted_empty⟩)
    (fun s e u ⟨t, ok, counted⟩ allowed step => counted_step ok counted allowed step)
    fun s e ⟨t, ok, _⟩ allowed => allowed.reinserts ok
  simp only [onlyMarked, Bool.and_eq_true, decide_eq_true_eq, Option.any_eq_true,
    Option.isNone_iff_eq_none] at only
  obtain ⟨root, n, at0, ⟨left, right⟩, marked⟩ := only
  have alone : ∀ b m, InTree s.heap s.root b m → b = 0 ∧ m = n := by
    intro b m reached
    rw [root] at reached
    cases reached with
    | here found => exact ⟨rfl, Option.some.inj (found.symm.trans at0)⟩
    | left found below =>
      cases found.symm.trans at0
      rw [left] at below
      cases below
    | right found below =>
      cases found.symm.trans at0
      rw [right] at below
      cases below
  obtain ⟨m, at1⟩ := Option.isSome_iff_exists.mp given
  have allowed : Reinserts s (.insert 1) := by
    refine ⟨m, at1, fun k reached => ?_, fun b k reached _ => ?_⟩
    · cases (alone 1 k reached).1
    · rw [(alone b k reached).2]
      exact marked
  exact not_reusable_of_shadowed shape (holds u (reach.1.step allowed inserted))

end BurstBuffer.Guarantees
