import BurstBuffer.Invariants.TreeRuns

/-!
# The tree as a map

The finite map that the edits of the tree are meant to build, and what ties it to
the entries of the tree.
-/
namespace BurstBuffer.Source

open Library BinaryTree SearchTree AvlTree

variable {I : Type}

/-- What is stored under each lbn. -/
abbrev EntryMap (I : Type) : Type := Lbn → Option (I × TreeValid)

/-- The edit of the map for the node `n` that is given to an edit of the tree. -/
def editMap (m : EntryMap I) (n : TreeNode I) : TreeEvent I → EntryMap I
  | .insert _ => Function.update m n.lbn (some (n.inode, .valid))
  | .logicalDelete _ =>
    Function.update m n.lbn ((m n.lbn).map fun entry => (entry.1, .invalid))
  | .physicalDelete _ => Function.update m n.lbn none
  | .init _ _ _ | .rebalance => m

def TreeEvent.target : TreeEvent I → Option TreePtr
  | .init _ _ _ | .rebalance => none
  | .insert a | .logicalDelete a | .physicalDelete a => some a

def mapNext (s : TreeState I) (m : EntryMap I) (e : TreeEvent I) : EntryMap I :=
  match e.target.bind s.heap with
  | none => m
  | some n => editMap m n e

/-- The tree and the map, edited in step. -/
def mapSystem (I : Type) : Machine (TreeState I × EntryMap I) (TreeEvent I) where
  init p := p = (emptyTree, fun _ => none)
  next p e := (treeNext p.1 e).map fun s => (s, mapNext p.1 p.2 e)

/-- The map holds the entries. -/
def Mapped (es : List (TreeEntry I)) (m : EntryMap I) : Prop :=
  ∀ e : TreeEntry I, e ∈ es ↔ m e.lbn = some (e.inode, e.valid)

section Steps

variable {es es' : List (TreeEntry I)} {m : EntryMap I} {e : TreeEntry I} {k : Lbn}

theorem Mapped.insert (mapped : Mapped es m) (absent : ∀ f ∈ es, f.lbn ≠ e.lbn)
    (perm : es'.Perm (e :: es)) :
      Mapped es' (Function.update m e.lbn (some (e.inode, e.valid))) := by
  intro f
  rw [perm.mem_iff, List.mem_cons]
  by_cases same : f.lbn = e.lbn
  · rw [same, Function.update_self]
    constructor
    · rintro (rfl | old)
      · rfl
      · exact absurd same (absent f old)
    · intro equal
      obtain ⟨inode, lbn, flag⟩ := f
      cases equal
      cases same
      exact .inl rfl
  · rw [Function.update_of_ne same, ← mapped f]
    constructor
    · rintro (rfl | old)
      · exact absurd rfl same
      · exact old
    · exact .inr

theorem Mapped.mark (mapped : Mapped es m) : Mapped (es.map (TreeEntry.mark k))
    (Function.update m k ((m k).map fun entry => (entry.1, .invalid))) := by
  intro f
  rw [List.mem_map]
  by_cases same : f.lbn = k
  · rw [same, Function.update_self, Option.map_eq_some_iff]
    constructor
    · rintro ⟨e, member, rfl⟩
      have here : e.lbn = k := by
        unfold TreeEntry.mark at same
        split at same <;> exact same
      refine ⟨(e.inode, e.valid), here ▸ (mapped e).mp member, ?_⟩
      rw [TreeEntry.mark, if_pos here]
    · rintro ⟨⟨inode, flag⟩, stored, equal⟩
      refine ⟨⟨inode, k, flag⟩, (mapped _).mpr stored, ?_⟩
      obtain ⟨inode', lbn', flag'⟩ := f
      cases equal
      cases same
      rw [TreeEntry.mark, if_pos rfl]
  · rw [Function.update_of_ne same, ← mapped f]
    constructor
    · rintro ⟨e, member, rfl⟩
      have other : e.lbn ≠ k := by
        intro here
        rw [TreeEntry.mark, if_pos here] at same
        exact same here
      rw [TreeEntry.mark, if_neg other]
      exact member
    · intro member
      exact ⟨f, member, if_neg same⟩

theorem Mapped.remove (mapped : Mapped es m) :
    Mapped (es.filter fun e => e.lbn ≠ k) (Function.update m k none) := by
  intro f
  rw [List.mem_filter]
  by_cases same : f.lbn = k
  · rw [same, Function.update_self]
    simp
  · rw [Function.update_of_ne same, ← mapped f]
    simp [same]

/-- An edit of the tree is the edit of the map. -/
theorem Mapped.edit {s s' : TreeState I} {t t' : BinaryTree (Cell I)} {v : TreeEvent I}
    (ok : TreeOk s t) (mapped : Mapped (treeEntries t) m) (edited : Edited s s' t t' v) :
    Mapped (treeEntries t') (mapNext s m v) := by
  cases edited with
  | init a inode lbn => exact mapped
  | insert a n given absent valid =>
    have target : (TreeEvent.insert (I := I) a).target.bind s.heap = some n := given
    have newKey : ∀ f ∈ treeEntries t, f.lbn ≠ n.entry.lbn := by
      intro f member
      obtain ⟨c, inside, rfl⟩ := List.mem_map.mp member
      exact ok.absent_iff.mp absent c inside
    have inserted := mapped.insert newKey (entries_insert (a, n.entry) t)
    have flag : n.entry.valid = .valid := valid
    rw [flag] at inserted
    rw [mapNext, target]
    exact inserted
  | mark a n given =>
    have target : (TreeEvent.logicalDelete (I := I) a).target.bind s.heap = some n := given
    rw [mapNext, target, entries_markCell ok.ordered]
    exact mapped.mark
  | remove a n given =>
    have target : (TreeEvent.physicalDelete (I := I) a).target.bind s.heap = some n := given
    rw [mapNext, target, entries_eraseCell ok.ordered]
    exact mapped.remove

end Steps

theorem mapNext_of_edit {p : TreeState I × EntryMap I} {s' : TreeState I} {e : TreeEvent I}
    (stepped : treeNext p.1 e = some s') :
    (mapSystem I).next p e = some (s', mapNext p.1 p.2 e) := by
  simp only [mapSystem, stepped, Option.map_some]

/-- After any edits the map holds the entries of the tree. -/
theorem mapped_of_edits {p : TreeState I × EntryMap I}
    (reach : (mapSystem I).ReachableBy (fun p => Edits p.1) p) :
    ∃ t, TreeOk p.1 t ∧ Mapped (treeEntries t) p.2 := by
  refine reach.invariant (I := fun p => ∃ t, TreeOk p.1 t ∧ Mapped (treeEntries t) p.2) ?_ ?_
  · rintro p rfl
    refine ⟨nil, .empty, fun e => ?_⟩
    simp [treeEntries]
  · rintro p e q ⟨t, ok, mapped⟩ allowed step
    obtain ⟨s', t', stepped, ok', edited⟩ := ok.edit allowed
    cases (mapNext_of_edit stepped).symm.trans step
    exact ⟨t', ok', mapped.edit ok edited⟩

/-- A run whose edits pass the test. -/
theorem mapEdits_of_run {p : TreeState I × EntryMap I} {es : List (TreeEvent I)}
    (steps : (mapSystem I).runBy (fun p e => checkEdit p.1 e = true) (emptyTree, fun _ => none) es =
      some p) :
    (mapSystem I).ReachableBy (fun p => Edits p.1) p := by
  apply Machine.ReachableBy.of_test (I := fun p => ∃ t, TreeOk p.1 t) ?_ ?_ (.init rfl)
    ⟨nil, .empty⟩ steps
  · intro p e q ⟨t, ok⟩ allowed step
    obtain ⟨s', t', stepped, ok', _⟩ := ok.edit allowed
    cases (mapNext_of_edit stepped).symm.trans step
    exact ⟨t', ok'⟩
  · intro p e ⟨t, ok⟩ checked
    exact ok.edits_of_check checked

end BurstBuffer.Source
