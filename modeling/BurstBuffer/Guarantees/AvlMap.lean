import BurstBuffer.Invariants.TreeMap

/-!
# The tree implements a finite map

The entries of the tree are those of a finite map with the same inserts, marks and
removals, and search_tree_node finds just these.
-/
namespace BurstBuffer.Guarantees

open Source Library

/-- The tree of the state holds the map, and search_tree_node looks up in it. -/
structure MapHeld {I : Type} (s : TreeState I) (m : EntryMap I) : Prop where
  entries : ∀ e : TreeEntry I, Holds s e ↔ m e.lbn = some (e.inode, e.valid)
  found : ∀ k entry, m k = some entry → ∃ a n, searchTreeNode s k = some (some a) ∧
    s.heap a = some n ∧ n.entry = ⟨entry.1, k, entry.2⟩
  missed : ∀ k, m k = none → searchTreeNode s k = some none

theorem mapHeld_of_mapped {I : Type} {s : TreeState I} {t : BinaryTree (Cell I)} {m : EntryMap I}
    (ok : TreeOk s t) (mapped : Mapped (treeEntries t) m) : MapHeld s m := by
  constructor
  · intro e
    rw [ok.holds_iff]
    exact mapped e
  · intro k entry stored
    exact ok.search_entry ((mapped ⟨entry.1, k, entry.2⟩).mpr stored)
  · intro k missing
    rw [ok.search k]
    cases found : SearchTree.find Cell.lbn k t with
    | none => rfl
    | some c =>
      obtain ⟨inside, key⟩ := (SearchTree.find_eq_some_iff ok.ordered).mp found
      have stored := (mapped c.2).mp (List.mem_map_of_mem inside)
      have sameKey : c.2.lbn = k := key
      rw [sameKey, missing] at stored
      cases stored

/-- After any edits the tree holds the map, and every edit returns. -/
theorem avl_map (I : Type) (s : TreeState I) (m : EntryMap I)
    (reach : (mapSystem I).ReachableBy (fun p => Edits p.1) (s, m)) :
    MapHeld s m ∧ ∀ e, Edits s e → ∃ t, treeNext s e = some t := by
  obtain ⟨t, ok, mapped⟩ := mapped_of_edits reach
  constructor
  · exact mapHeld_of_mapped ok mapped
  · intro e allowed
    obtain ⟨s', _, stepped, _⟩ := ok.edit allowed
    exact ⟨s', stepped⟩

/-- The inodes 10, 20 and 30 are inserted under the lbns 2, 1 and 3, the lbn 1 is
marked and the lbn 2 removed, both through nodes that are not in the tree. -/
def mapRun : List (TreeEvent Nat) :=
  [.init 0 10 2, .insert 0, .init 1 20 1, .insert 1, .init 2 30 3, .insert 2, .init 3 0 1,
    .logicalDelete 3, .init 4 0 2, .physicalDelete 4]

theorem avl_map_edited : ∃ (s : TreeState Nat) (m : EntryMap Nat),
    m 1 = some (20, .invalid) ∧ m 2 = none ∧ m 3 = some (30, .valid) ∧ MapHeld s m := by
  have runs : ((mapSystem Nat).runBy (fun p e => checkEdit p.1 e = true)
      (emptyTree, fun _ => none) mapRun).any (fun p => p.2 1 = some (20, .invalid) ∧
        p.2 2 = none ∧ p.2 3 = some (30, .valid)) = true := by decide +kernel
  obtain ⟨⟨s, m⟩, steps, shape⟩ := (Option.any_eq_true _ _).mp runs
  obtain ⟨marked, removed, stored⟩ := of_decide_eq_true shape
  exact ⟨s, m, marked, removed, stored, (avl_map Nat s m (mapEdits_of_run steps)).1⟩

end BurstBuffer.Guarantees
