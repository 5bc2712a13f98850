import BurstBuffer.Invariants.TreeState

/-!
# Runs on the tree

What holds of the tree, its entries and its counters in every run, and what
rebalance_tree_node makes of a state whose counters are right.
-/
namespace BurstBuffer.Source

open Library BinaryTree SearchTree AvlTree

variable {I : Type}

section Wrap

theorem wrapInt_add (x y : Int) : wrapInt (wrapInt x + y) = wrapInt (x + y) := Int.bmod_add_bmod

theorem wrapInt_sub (x y : Int) : wrapInt (wrapInt x - y) = wrapInt (x - y) := Int.bmod_sub_bmod

theorem wrapInt_lt (x : Int) : wrapInt x < 2 ^ 31 := by
  have bound := Int.bmod_lt (x := x) (m := 2 ^ 32) (by decide)
  unfold wrapInt
  omega

theorem wrapInt_eq {x : Int} (low : 0 ≤ x) (high : x < 2 ^ 31) : wrapInt x = x :=
  (Int.bmod_eq_iff (by decide)).mpr ⟨by omega, by omega, by simp⟩

end Wrap

/-- The edits of the tree: nodes with new lbns are inserted, and the lbn of any node
there is may be deleted, logically or physically. -/
def Edits (s : TreeState I) : TreeEvent I → Prop
  | .init a _ _ => s.heap a = none
  | .insert a => ∃ n, s.heap a = some n ∧ Absent s n.lbn
  | .logicalDelete a | .physicalDelete a => ∃ n, s.heap a = some n
  | .rebalance => False

/-- What an edit of the state `s` with the tree `t` does. -/
inductive Edited (s s' : TreeState I) (t : BinaryTree (Cell I)) :
    BinaryTree (Cell I) → TreeEvent I → Prop where
  | init (a : TreePtr) (inode : I) (lbn : Lbn) (total : s'.countTotal = s.countTotal)
      (invalid : s'.countInvalid = s.countInvalid) : Edited s s' t t (.init a inode lbn)
  | insert (a : TreePtr) (n : TreeNode I) (given : s.heap a = some n) (absent : Absent s n.lbn)
      (valid : n.valid = .valid) (total : s'.countTotal = wrapInt (s.countTotal + 1))
      (invalid : s'.countInvalid = s.countInvalid) :
      Edited s s' t (AvlTree.insert Cell.lbn (a, n.entry) t) (.insert a)
  | mark (a : TreePtr) (n : TreeNode I) (given : s.heap a = some n)
      (total : s'.countTotal = s.countTotal)
      (invalid : s'.countInvalid = countMarked s.countInvalid (find Cell.lbn n.lbn t)) :
      Edited s s' t (markCell n.lbn t) (.logicalDelete a)
  | remove (a : TreePtr) (n : TreeNode I) (given : s.heap a = some n)
      (total : s'.countTotal = s.countTotal) (invalid : s'.countInvalid = s.countInvalid) :
      Edited s s' t (eraseCell n.lbn t) (.physicalDelete a)

section Edits

variable {s : TreeState I} {t : BinaryTree (Cell I)} {e : TreeEvent I}

/-- Every edit returns, and the state stays in order. -/
theorem TreeOk.edit (ok : TreeOk s t) (allowed : Edits s e) :
    ∃ s' t', treeNext s e = some s' ∧ TreeOk s' t' ∧ Edited s s' t t' e := by
  cases e with
  | init a inode lbn =>
    refine ⟨_, t, ?_, ok.init allowed inode lbn, .init a inode lbn rfl rfl⟩
    have unused : s.heap a = none := allowed
    rw [treeNext, unused]
    rfl
  | insert a =>
    obtain ⟨n, given, absent⟩ := allowed
    obtain ⟨s', inserted, ok', valid, total, invalid, _⟩ := ok.insert given absent
    exact ⟨s', _, inserted, ok', .insert a n given absent valid total invalid⟩
  | logicalDelete a =>
    obtain ⟨n, given⟩ := allowed
    obtain ⟨s', marked, ok', total, invalid⟩ := ok.logicalDelete given
    exact ⟨s', _, marked, ok', .mark a n given total invalid⟩
  | physicalDelete a =>
    obtain ⟨n, given⟩ := allowed
    have target : (some a).bind s.heap = some n := given
    obtain ⟨s', deleted, ok', total, invalid⟩ := ok.physicalDelete target
    exact ⟨s', _, deleted, ok', .remove a n given total invalid⟩
  | rebalance => cases allowed

theorem TreeOk.of_edits (reach : (treeSystem I).ReachableBy Edits s) : ∃ t, TreeOk s t := by
  refine reach.invariant (I := fun s => ∃ t, TreeOk s t) ?_ ?_
  · rintro s rfl
    exact ⟨nil, .empty⟩
  · rintro s e u ⟨t, ok⟩ allowed step
    obtain ⟨s', t', stepped, ok', _⟩ := ok.edit allowed
    cases stepped.symm.trans step
    exact ⟨t', ok'⟩

/-- A test that an edit is allowed: the search does not find the lbn of a new node. -/
def checkEdit (s : TreeState I) : TreeEvent I → Bool
  | .init a _ _ => (s.heap a).isNone
  | .insert a => (s.heap a).any fun n => (searchTreeNode s n.lbn).any Option.isNone
  | .logicalDelete a | .physicalDelete a => (s.heap a).isSome
  | .rebalance => false

theorem TreeOk.absent_of_search {k : Lbn} (ok : TreeOk s t)
    (missed : (searchTreeNode s k).any Option.isNone = true) : Absent s k := by
  refine ok.absent_iff.mpr fun c member same => ?_
  have found := (find_eq_some_iff ok.ordered).mpr ⟨member, same⟩
  rw [ok.search k, found] at missed
  cases missed

theorem TreeOk.edits_of_check (ok : TreeOk s t) (checked : checkEdit s e = true) : Edits s e := by
  cases e with
  | init a inode lbn => exact Option.isNone_iff_eq_none.mp checked
  | insert a =>
    obtain ⟨n, given, missed⟩ := (Option.any_eq_true _ _).mp checked
    exact ⟨n, given, ok.absent_of_search missed⟩
  | logicalDelete a | physicalDelete a => exact Option.isSome_iff_exists.mp checked
  | rebalance => cases checked

/-- A run whose edits pass the test. -/
theorem edits_of_run {es : List (TreeEvent I)}
    (steps : (treeSystem I).runBy (fun s e => checkEdit s e = true) emptyTree es = some s) :
    (treeSystem I).ReachableBy Edits s := by
  apply Machine.ReachableBy.of_test (I := fun s => ∃ t, TreeOk s t) ?_ ?_ (.init rfl)
    ⟨nil, .empty⟩ steps
  · intro s e u ⟨t, ok⟩ allowed step
    obtain ⟨s', t', stepped, ok', _⟩ := ok.edit allowed
    cases stepped.symm.trans step
    exact ⟨t', ok'⟩
  · intro s e ⟨t, ok⟩ checked
    exact ok.edits_of_check checked

end Edits

/-- The entries that are marked TREE_INVALID. -/
def invalidCount (es : List (TreeEntry I)) : Nat := es.countP fun e => e.valid = .invalid

section Entries

variable {es es' : List (TreeEntry I)} {e : TreeEntry I} {k : Lbn}

theorem invalidCount_perm (same : es.Perm es') : invalidCount es = invalidCount es' :=
  same.countP_eq _

theorem invalidCount_cons_valid (valid : e.valid = .valid) :
    invalidCount (e :: es) = invalidCount es := by
  unfold invalidCount
  rw [List.countP_cons_of_neg]
  simp [valid]

theorem invalidCount_cons_invalid (invalid : e.valid = .invalid) :
    invalidCount (e :: es) = invalidCount es + 1 := by
  unfold invalidCount
  rw [List.countP_cons_of_pos]
  simp [invalid]

theorem map_mark_eq_self (absent : ∀ e ∈ es, e.lbn ≠ k) : es.map (TreeEntry.mark k) = es := by
  have same : es.map (TreeEntry.mark k) = es.map id :=
    List.map_congr_left fun e member => if_neg (absent e member)
  rw [same, List.map_id]

/-- Marking the entry `e` leaves the others as they are. -/
theorem map_mark_perm (distinct : (es.map TreeEntry.lbn).Nodup) (member : e ∈ es) :
    (es.map (TreeEntry.mark e.lbn)).Perm
      ({ e with valid := .invalid } :: es.filter fun f => f.lbn ≠ e.lbn) := by
  have split := (perm_cons_filter distinct member).map (TreeEntry.mark e.lbn)
  have others : ∀ f ∈ es.filter (fun f => f.lbn ≠ e.lbn), f.lbn ≠ e.lbn := fun f inside => by
    simpa using (List.mem_filter.mp inside).2
  have here : TreeEntry.mark e.lbn e = { e with valid := .invalid } := if_pos rfl
  rw [List.map_cons, map_mark_eq_self others, here] at split
  exact split

end Entries

/-- The counters count the nodes, and those marked TREE_INVALID, as an `int` does. -/
structure Counted (s : TreeState I) (t : BinaryTree (Cell I)) : Prop where
  total : s.countTotal = wrapInt t.numNodes
  invalid : s.countInvalid = wrapInt (invalidCount (treeEntries t))

section Counters

variable {s s' : TreeState I} {t : BinaryTree (Cell I)} {k : Lbn}

theorem length_entries (t : BinaryTree (Cell I)) : (treeEntries t).length = t.numNodes := by
  rw [treeEntries, List.length_map, length_inorder]

theorem lbn_entries (t : BinaryTree (Cell I)) :
    (treeEntries t).map TreeEntry.lbn = (inorder t).map Cell.lbn := by
  rw [treeEntries, List.map_map]
  rfl

theorem nodup_entries (ordered : Ordered Cell.lbn t) :
    ((treeEntries t).map TreeEntry.lbn).Nodup := by
  rw [lbn_entries]
  exact ordered.nodup_keys

theorem counted_empty : Counted (emptyTree : TreeState I) nil := by
  have zero : wrapInt 0 = 0 := Int.zero_bmod
  constructor
  · exact zero.symm
  · exact zero.symm

theorem Counted.insert {x : Cell I} (counted : Counted s t) (valid : x.2.valid = .valid)
    (total : s'.countTotal = wrapInt (s.countTotal + 1))
    (invalid : s'.countInvalid = s.countInvalid) :
    Counted s' (AvlTree.insert Cell.lbn x t) := by
  constructor
  · rw [total, counted.total, wrapInt_add, ← length_entries, ← length_entries,
      (entries_insert x t).length_eq, List.length_cons, Int.natCast_succ]
  · rw [invalid, counted.invalid, invalidCount_perm (entries_insert x t),
      invalidCount_cons_valid valid]

/-- A mark adds to the count when it finds an entry that is still valid. -/
theorem invalidCount_markCell (ordered : Ordered Cell.lbn t) (k : Lbn) :
    (∃ c, find Cell.lbn k t = some c ∧ c.2.valid = .valid ∧
        invalidCount (treeEntries (markCell k t)) = invalidCount (treeEntries t) + 1) ∨
      (∀ c, find Cell.lbn k t = some c → c.2.valid = .invalid) ∧
        invalidCount (treeEntries (markCell k t)) = invalidCount (treeEntries t) := by
  rw [entries_markCell ordered]
  cases found : find Cell.lbn k t with
  | none =>
    have absent : ∀ e ∈ treeEntries t, e.lbn ≠ k := by
      intro e member same
      obtain ⟨c, inside, rfl⟩ := List.mem_map.mp member
      rw [(find_eq_some_iff ordered).mpr ⟨inside, same⟩] at found
      cases found
    rw [map_mark_eq_self absent]
    exact .inr ⟨fun _ found => (Option.some_ne_none _ found.symm).elim, rfl⟩
  | some c =>
    obtain ⟨inside, rfl⟩ := (find_eq_some_iff ordered).mp found
    have member : c.2 ∈ treeEntries t := List.mem_map_of_mem inside
    have key : Cell.lbn c = c.2.lbn := rfl
    have marked := map_mark_perm (nodup_entries ordered) member
    have before := perm_cons_filter (nodup_entries ordered) member
    rw [key, invalidCount_perm marked, invalidCount_cons_invalid rfl, invalidCount_perm before]
    cases v : c.2.valid with
    | valid => exact .inl ⟨c, rfl, v, by rw [invalidCount_cons_valid v]⟩
    | invalid =>
      refine .inr ⟨?_, by rw [invalidCount_cons_invalid v]⟩
      rintro d ⟨⟩
      exact v

theorem countMarked_eq (ordered : Ordered Cell.lbn t) :
    countMarked (wrapInt (invalidCount (treeEntries t))) (find Cell.lbn k t) =
      wrapInt (invalidCount (treeEntries (markCell k t))) := by
  rcases invalidCount_markCell ordered k with ⟨c, found, valid, more⟩ | ⟨marked, same⟩
  · rw [found, more, countMarked, if_pos valid, wrapInt_add, Int.natCast_succ]
  · rw [same]
    cases found : find Cell.lbn k t with
    | none => rfl
    | some c =>
      rw [countMarked, marked c found]
      exact if_neg (by decide)

theorem Counted.logicalDelete (counted : Counted s t) (ordered : Ordered Cell.lbn t)
    (total : s'.countTotal = s.countTotal)
    (invalid : s'.countInvalid = countMarked s.countInvalid (find Cell.lbn k t)) :
    Counted s' (markCell k t) := by
  constructor
  · rw [total, counted.total, ← length_entries, ← length_entries, entries_markCell ordered,
      List.length_map]
  · rw [invalid, counted.invalid, countMarked_eq ordered]

end Counters

section Rebalance

variable {s s' : TreeState I} {t t' : BinaryTree (Cell I)}

/-- The entries that are not marked. -/
abbrev validEntries (t : BinaryTree (Cell I)) : List (TreeEntry I) :=
  (treeEntries t).filter fun e => e.valid = .valid

/-- One round removes one marked entry. -/
structure RoundDone (s s' : TreeState I) (t t' : BinaryTree (Cell I)) : Prop where
  ok : TreeOk s' t'
  total : s'.countTotal = wrapInt (s.countTotal - 1)
  invalid : s'.countInvalid = wrapInt (s.countInvalid - 1)
  nodes : t.numNodes = t'.numNodes + 1
  marked : invalidCount (treeEntries t) = invalidCount (treeEntries t') + 1
  same : validEntries t' = validEntries t

theorem validEntries_eraseCell {c : Cell I} (ordered : Ordered Cell.lbn t) (inside : c ∈ inorder t)
    (invalid : c.2.valid = .invalid) :
    validEntries (eraseCell (Cell.lbn c) t) = validEntries t := by
  unfold validEntries
  rw [entries_eraseCell ordered, List.filter_filter]
  apply List.filter_congr
  intro e member
  cases v : e.valid with
  | invalid => simp
  | valid =>
    have other : e.lbn ≠ Cell.lbn c := by
      intro same
      obtain ⟨d, inside', rfl⟩ := List.mem_map.mp member
      rw [ordered.eq_of_key inside' inside same, invalid] at v
      cases v
    simp [other]

theorem TreeOk.recount (ok : TreeOk s t) (total invalid : Int) :
    TreeOk { s with countTotal := total, countInvalid := invalid } t :=
  ⟨ok.root, ok.laid, ok.distinct, ok.ordered, ok.balanced, ok.fresh⟩

/-- While entries are marked, a round finds one and removes it. -/
theorem TreeOk.rebalanceRound (ok : TreeOk s t) (some_marked : 0 < invalidCount (treeEntries t)) :
    ∃ s' t' a, findInvalidTreeNode s = some (some a) ∧ rebalanceRound s = some s' ∧
      RoundDone s s' t t' := by
  rcases ok.findInvalid with ⟨c, inside, found, invalid⟩ | ⟨_, valid⟩
  · obtain ⟨n, atC, _, lbn, _⟩ := ok.laid.entry inside
    have given : (some c.1).bind s.heap = some n := atC
    obtain ⟨u, deleted, ok', total, count⟩ := ok.physicalDelete given
    have key : n.lbn = Cell.lbn c := lbn
    rw [key] at ok'
    have member : c.2 ∈ treeEntries t := List.mem_map_of_mem inside
    have split := perm_cons_filter (nodup_entries ok.ordered) member
    have rest : treeEntries (eraseCell (Cell.lbn c) t) =
        (treeEntries t).filter fun e => e.lbn ≠ c.2.lbn := entries_eraseCell ok.ordered
    rw [← rest] at split
    refine ⟨_, _, c.1, found, ?_, ⟨ok'.recount (wrapInt (u.countTotal - 1))
      (wrapInt (u.countInvalid - 1)), ?_, ?_, ?_, ?_,
      validEntries_eraseCell ok.ordered inside invalid⟩⟩
    · rw [Source.rebalanceRound, found]
      simp only [Option.bind_eq_bind, Option.bind_some, deleted]
    · rw [total]
    · rw [count]
    · rw [← length_entries, split.length_eq, List.length_cons, length_entries]
    · rw [invalidCount_perm split, invalidCount_cons_invalid invalid]
  · have none_marked : invalidCount (treeEntries t) = 0 := by
      unfold invalidCount
      rw [List.countP_eq_zero]
      intro e member
      obtain ⟨c, inside, rfl⟩ := List.mem_map.mp member
      rw [valid c inside]
      simp
    omega

/-- With an exact count of the marked entries, the loop removes just these. -/
theorem TreeOk.rebalanceLoop {count fuel : Nat} (ok : TreeOk s t)
    (total : s.countTotal = wrapInt t.numNodes) (marked : invalidCount (treeEntries t) = count)
    (exact : s.countInvalid = count) (fits : count < 2 ^ 31) (enough : count < fuel) :
    ∃ s' t', rebalanceLoop fuel s = some s' ∧ TreeOk s' t' ∧
      treeEntries t' = validEntries t ∧
        s'.countTotal = wrapInt t'.numNodes ∧ s'.countInvalid = 0 := by
  induction count generalizing s t fuel with
  | zero =>
    cases fuel with
    | zero => cases enough
    | succ fuel =>
      refine ⟨s, t, ?_, ok, ?_, total, exact⟩
      · rw [Source.rebalanceLoop, if_neg]
        omega
      · refine (List.filter_eq_self.mpr fun e member => ?_).symm
        cases v : e.valid with
        | valid => rfl
        | invalid =>
          have none := List.countP_eq_zero.mp marked e member
          simp [v] at none
  | succ count ih =>
    cases fuel with
    | zero => cases enough
    | succ fuel =>
      obtain ⟨u, t₁, a, _, round, done⟩ := ok.rebalanceRound (by omega)
      have total₁ : u.countTotal = wrapInt t₁.numNodes := by
        rw [done.total, total, wrapInt_sub, done.nodes, Int.natCast_succ]
        congr 1
        omega
      have exact₁ : u.countInvalid = count := by
        rw [done.invalid, exact, wrapInt_eq] <;> omega
      have marked₁ : invalidCount (treeEntries t₁) = count := by
        have step := done.marked
        omega
      have enough₁ : count < fuel := by omega
      obtain ⟨s', t', looped, ok', same, total', zero⟩ :=
        ih done.ok total₁ marked₁ exact₁ (by omega) enough₁
      refine ⟨s', t', ?_, ok', same.trans done.same, total', zero⟩
      rw [Source.rebalanceLoop, if_pos (by omega), round]
      exact looped

end Rebalance

end BurstBuffer.Source
