import Mathlib.Data.Set.Card
import Mathlib.Logic.Relation
import BurstBuffer.Invariants.TreeRuns

/-!
# rebalance_tree_node

On a tree built by insertions of new lbns and logical deletions, with counters from
0, rebalance_tree_node removes exactly the marked entries as long as an `int` counts
the nodes.
-/
namespace BurstBuffer.Guarantees

open Source Library BinaryTree SearchTree AvlTree

variable {I : Type}

def isPhysicalDelete : TreeEvent I → Bool
  | .physicalDelete _ => true
  | _ => false

/-- Insertions of new lbns and logical deletions. -/
def InsertOrMark (s : TreeState I) (e : TreeEvent I) : Prop :=
  Edits s e ∧ isPhysicalDelete e = false

/-- The number of nodes of the tree. -/
noncomputable def nodeCount (s : TreeState I) : Nat :=
  Set.ncard {a | ∃ n, InTree s.heap s.root a n}

/-- The number of its TREE_INVALID nodes. -/
noncomputable def invalidNodeCount (s : TreeState I) : Nat :=
  Set.ncard {a | ∃ n, InTree s.heap s.root a n ∧ n.valid = .invalid}

/-- The rounds of the loop of rebalance_tree_node. -/
abbrev CleanupRounds : TreeState I → TreeState I → Prop :=
  Relation.ReflTransGen fun s u => 0 < s.countInvalid ∧ rebalanceRound s = some u

/-- `u` holds the valid entries of `s`, and search_tree_node finds them. -/
structure OnlyValid (s u : TreeState I) : Prop where
  entries : ∀ e, Holds u e ↔ Holds s e ∧ e.valid = .valid
  found : ∀ e, Holds u e → ∃ a n, searchTreeNode u e.lbn = some (some a) ∧
    u.heap a = some n ∧ n.entry = e

/-- What rebalance_tree_node is meant to do. -/
structure RebalanceExact (s : TreeState I) : Prop where
  total : s.countTotal = nodeCount s
  invalid : s.countInvalid = invalidNodeCount s
  finds : ∀ u, CleanupRounds s u → 0 < u.countInvalid → ∃ a, findInvalidTreeNode u = some (some a)
  returns : ∃ u, rebalanceTreeNode s = some u ∧ OnlyValid s u ∧ u.countInvalid = 0 ∧
    u.countTotal = nodeCount u

section Counts

variable {s s' u : TreeState I} {t t' : BinaryTree (Cell I)} {e : TreeEvent I}

theorem ncard_cells {P : TreeEntry I → Prop} [DecidablePred P] (ok : TreeOk s t) :
    Set.ncard {a | ∃ n, InTree s.heap s.root a n ∧ P n.entry} = (treeEntries t).countP P := by
  have same : {a | ∃ n, InTree s.heap s.root a n ∧ P n.entry} =
      (((inorder t).filter fun c => P c.2).map Prod.fst).toFinset := by
    ext a
    rw [Set.mem_ofPred_eq, ok.inTree_cells]
    simp [and_assoc, and_comm]
  have nodup : (((inorder t).filter fun c => P c.2).map Prod.fst).Nodup :=
    (List.filter_sublist.map Prod.fst).nodup ok.distinct
  rw [same, Set.ncard_coe_finset, List.toFinset_card_of_nodup nodup, List.length_map,
    ← List.countP_eq_length_filter, treeEntries, List.countP_map]
  rfl

theorem nodeCount_eq (ok : TreeOk s t) : nodeCount s = t.numNodes := by
  have count := ncard_cells (P := fun _ => True) ok
  rw [nodeCount, ← length_entries]
  simpa using count

theorem invalidNodeCount_eq (ok : TreeOk s t) : invalidNodeCount s = invalidCount (treeEntries t) :=
  ncard_cells (P := fun e => e.valid = .invalid) ok

/-- The counters follow the insertions and the marks. -/
theorem counted_step (ok : TreeOk s t) (counted : Counted s t) (allowed : InsertOrMark s e)
    (step : treeNext s e = some u) : ∃ t', TreeOk u t' ∧ Counted u t' := by
  obtain ⟨s', t', stepped, ok', edited⟩ := ok.edit allowed.1
  cases stepped.symm.trans step
  refine ⟨t', ok', ?_⟩
  cases edited with
  | init a inode lbn total invalid =>
    exact ⟨total.trans counted.total, invalid.trans counted.invalid⟩
  | insert a n given absent valid total invalid => exact counted.insert valid total invalid
  | mark a n given total invalid => exact counted.logicalDelete ok.ordered total invalid
  | remove => cases allowed.2

theorem counted_of_reachable (reach : (treeSystem I).ReachableBy InsertOrMark s) :
    ∃ t, TreeOk s t ∧ Counted s t := by
  refine reach.invariant (I := fun s => ∃ t, TreeOk s t ∧ Counted s t) ?_ ?_
  · rintro s rfl
    exact ⟨nil, .empty, counted_empty⟩
  · rintro s e u ⟨t, ok, counted⟩ allowed step
    exact counted_step ok counted allowed step

end Counts

section Exact

variable {s u : TreeState I} {t : BinaryTree (Cell I)}

theorem onlyValid_of_entries {t' : BinaryTree (Cell I)} (ok : TreeOk s t) (ok' : TreeOk u t')
    (same : treeEntries t' = validEntries t) : OnlyValid s u := by
  constructor
  · intro e
    rw [ok'.holds_iff, ok.holds_iff, same, List.mem_filter]
    simp
  · intro e held
    exact ok'.search_entry (ok'.holds_iff.mp held)

/-- In every round the counter is exact, so that there is an entry to be found. -/
theorem finds_of_exact (ok : TreeOk s t) (exact : s.countInvalid = invalidCount (treeEntries t))
    (fits : invalidCount (treeEntries t) < 2 ^ 31) (rounds : CleanupRounds s u) :
    ∃ t', TreeOk u t' ∧ u.countInvalid = invalidCount (treeEntries t') ∧
      invalidCount (treeEntries t') < 2 ^ 31 := by
  induction rounds with
  | refl => exact ⟨t, ok, exact, fits⟩
  | tail _ round ih =>
    obtain ⟨positive, stepped⟩ := round
    obtain ⟨t₁, ok₁, exact₁, fits₁⟩ := ih
    obtain ⟨w, t₂, _, _, round₂, done⟩ := ok₁.rebalanceRound (by omega)
    cases round₂.symm.trans stepped
    have fewer := done.marked
    refine ⟨t₂, done.ok, ?_, by omega⟩
    rw [done.invalid, exact₁, wrapInt_eq] <;> omega

end Exact

/-- In every state reached by insertions and marks, rebalance_tree_node is exact just
when an `int` counts the nodes. -/
theorem rebalance_exact (I : Type) (s : TreeState I)
    (reach : (treeSystem I).ReachableBy InsertOrMark s) :
    RebalanceExact s ↔ nodeCount s < 2 ^ 31 := by
  obtain ⟨t, ok, counted⟩ := counted_of_reachable reach
  have nodes := nodeCount_eq ok
  constructor
  · intro exact
    have low := wrapInt_lt t.numNodes
    rw [← counted.total, exact.total] at low
    omega
  · intro few
    have marked : invalidCount (treeEntries t) ≤ t.numNodes := by
      rw [← length_entries]
      exact List.countP_le_length
    have fits : invalidCount (treeEntries t) < 2 ^ 31 := by omega
    have count : s.countInvalid = invalidCount (treeEntries t) := by
      rw [counted.invalid, wrapInt_eq] <;> omega
    refine ⟨?_, ?_, ?_, ?_⟩
    · rw [counted.total, nodes, wrapInt_eq] <;> omega
    · rw [count, invalidNodeCount_eq ok]
    · intro u rounds positive
      obtain ⟨t', ok', exact, _⟩ := finds_of_exact ok count fits rounds
      obtain ⟨_, _, a, found, _⟩ := ok'.rebalanceRound (by omega)
      exact ⟨a, found⟩
    · have enough : invalidCount (treeEntries t) < treeFuel := by
        unfold treeFuel
        omega
      obtain ⟨u, t', looped, ok', same, total, zero⟩ :=
        ok.rebalanceLoop counted.total rfl count fits enough
      refine ⟨u, looped, onlyValid_of_entries ok ok' same, zero, ?_⟩
      have fewer : t'.numNodes ≤ t.numNodes := by
        rw [← length_entries, ← length_entries, same]
        exact List.length_filter_le _ _
      rw [total, nodeCount_eq ok', wrapInt_eq] <;> omega

/-- The test of an edit, for insertions and marks. -/
def checkMark (s : TreeState I) (e : TreeEvent I) : Bool :=
  checkEdit s e && !isPhysicalDelete e

theorem insertOrMark_of_run {s : TreeState I} {es : List (TreeEvent I)}
    (steps : (treeSystem I).runBy (fun s e => checkMark s e = true) emptyTree es = some s) :
    (treeSystem I).ReachableBy InsertOrMark s := by
  apply Machine.ReachableBy.of_test (I := fun s => ∃ t, TreeOk s t ∧ Counted s t) ?_ ?_
    (.init rfl) ⟨nil, .empty, counted_empty⟩ steps
  · intro s e u ⟨t, ok, counted⟩ allowed step
    exact counted_step ok counted allowed step
  · intro s e ⟨t, ok, _⟩ checked
    obtain ⟨tested, notPhysical⟩ := (Bool.and_eq_true _ _).mp checked
    exact ⟨ok.edits_of_check tested, by simpa using notPhysical⟩

/-- Of three lbns the middle one is marked; its node is the root, and the loop deletes
the key of a node that it passes to physical_delete_tree_node. -/
def markRun : List (TreeEvent Unit) :=
  [.init 0 () 1, .insert 0, .init 1 () 2, .insert 1, .init 2 () 3, .insert 2, .logicalDelete 1]

theorem rebalance_exact_marked : ∃ s : TreeState Unit, s.countInvalid = 1 ∧ RebalanceExact s := by
  have runs : ((treeSystem Unit).runBy (fun s e => checkMark s e = true) emptyTree markRun).any
      (fun s => s.countTotal = 3 ∧ s.countInvalid = 1) = true := by decide +kernel
  obtain ⟨s, steps, counts⟩ := (Option.any_eq_true _ _).mp runs
  obtain ⟨total, invalid⟩ := of_decide_eq_true counts
  have reach := insertOrMark_of_run steps
  refine ⟨s, invalid, (rebalance_exact Unit s reach).mpr ?_⟩
  obtain ⟨t, ok, counted⟩ := counted_of_reachable reach
  have bound := ok.numNodes_le
  have wrapped := Int.bmod_eq_iff (by decide) |>.mp (counted.total.symm.trans total)
  rw [nodeCount_eq ok]
  omega

/-- Nodes with the lbns below `k` can be inserted one after the other. -/
theorem inserted_below {k : Nat} (keys : k ≤ 2 ^ 32) : ∃ (s : TreeState Unit) (t : _),
    (treeSystem Unit).ReachableBy InsertOrMark s ∧ TreeOk s t ∧ Counted s t ∧ t.numNodes = k ∧
      (∀ a, k ≤ a → s.heap a = none) ∧ ∀ e ∈ treeEntries t, e.lbn.val < k := by
  induction k with
  | zero =>
    exact ⟨emptyTree, nil, .init rfl, .empty, counted_empty, rfl, fun _ _ => rfl,
      fun _ member => nomatch member⟩
  | succ k ih =>
    obtain ⟨s, t, reach, ok, counted, nodes, unused, below⟩ := ih (by omega)
    have free := unused k (Nat.le_refl k)
    have made := ok.init free () ⟨k, keys⟩
    have wrote : Wrote s.heap (s.heap.store k (initTreeNode () ⟨k, keys⟩)) k _ := wrote_store
    have initialised : treeNext s (.init k () ⟨k, keys⟩) =
        some { s with heap := s.heap.store k (initTreeNode () ⟨k, keys⟩) } := by
      rw [treeNext, free]
      rfl
    have allowed : InsertOrMark s (.init k () ⟨k, keys⟩) := ⟨free, rfl⟩
    have reached := reach.step allowed initialised
    generalize s.heap.store k (initTreeNode () ⟨k, keys⟩) = heap at *
    have absent : Absent { s with heap := heap } ⟨k, keys⟩ := by
      refine made.absent_iff.mpr fun c member same => ?_
      have low := below c.2 (List.mem_map_of_mem member)
      have high : c.2.lbn.val = k := congrArg Fin.val same
      omega
    obtain ⟨s', inserted, ok', _, total, invalid, still⟩ := made.insert wrote.here absent
    have allowed' : InsertOrMark { s with heap := heap } (.insert k) :=
      ⟨⟨_, wrote.here, absent⟩, rfl⟩
    refine ⟨s', _, reached.step allowed' inserted, ok',
      Counted.insert ⟨counted.total, counted.invalid⟩ rfl total invalid, ?_, fun a high => ?_,
      fun e member => ?_⟩
    · rw [← length_entries, (entries_insert _ t).length_eq, List.length_cons, length_entries, nodes]
    · have other : a ≠ k := Nat.ne_of_gt high
      exact still a ((wrote.others a other).trans (unused a (Nat.le_of_succ_le high)))
    · rcases List.mem_cons.mp ((entries_insert _ t).mem_iff.mp member) with rfl | old
      · exact Nat.lt_succ_self k
      · exact Nat.lt_succ_of_lt (below e old)

/-- With as many nodes as an `int` cannot count, `count_total` is wrong. -/
theorem rebalance_exact_many : ¬ ∀ s : TreeState Unit,
    (treeSystem Unit).ReachableBy InsertOrMark s → RebalanceExact s := by
  intro holds
  obtain ⟨s, t, reach, ok, counted, nodes, _⟩ := inserted_below (k := 2 ^ 31) (by omega)
  have exact := (holds s reach).total
  have low := wrapInt_lt t.numNodes
  rw [← counted.total, exact, nodeCount_eq ok, nodes] at low
  omega

end BurstBuffer.Guarantees
