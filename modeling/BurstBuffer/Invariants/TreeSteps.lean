import BurstBuffer.Invariants.TreeDelete
import BurstBuffer.Invariants.TreeInsert

/-!
# Operations on the tree

The tree in the heap stays ordered and balanced under every operation, and what
each operation does to its entries.
-/
namespace BurstBuffer.Source

open Library BinaryTree SearchTree AvlTree

variable {I : Type}

/-- The cell with its entry marked TREE_INVALID. -/
def Cell.invalidate (c : Cell I) : Cell I := (c.1, { c.2 with valid := .invalid })

/-- The tree with the entry of the key `k` marked. -/
abbrev markCell (k : Lbn) (t : BinaryTree (Cell I)) : BinaryTree (Cell I) :=
  change Cell.lbn Cell.invalidate k t

section Marks

variable {heap : TreeHeap I} {t : BinaryTree (Cell I)} {k : Lbn}

theorem addresses_markCell (k : Lbn) (t : BinaryTree (Cell I)) :
    addresses (markCell k t) = addresses t := by
  have stays : ∀ c : Cell I, (Cell.invalidate c).1 = c.1 := fun _ => rfl
  exact map_inorder_change stays k t

theorem rootOf_markCell (k : Lbn) (t : BinaryTree (Cell I)) :
    rootOf (markCell k t) = rootOf t := by
  cases t with
  | nil => rfl
  | node c l r =>
    rw [markCell, change]
    split
    · rfl
    · split <;> rfl

/-- The count after the search for the key to be marked has ended at `found`. -/
def countMarked (count : Int) : Option (Cell I) → Int
  | none => count
  | some c => if c.2.valid = .valid then wrapInt (count + 1) else count

/-- logical_delete_tree_node marks the entry it finds. -/
theorem logicalDeleteFrom_laid {s : TreeState I} {a : TreePtr} {n : TreeNode I} {fuel : Nat}
    (laid : Laid s.heap t) (given : s.heap a = some n) (enough : t.height < fuel)
    (distinct : (addresses t).Nodup) :
    ∃ heap', logicalDeleteFrom a fuel (rootOf t) s = some { s with
        heap := heap', countInvalid := countMarked s.countInvalid (find Cell.lbn n.lbn t) } ∧
      Laid heap' (markCell n.lbn t) ∧ ∀ b, b ∉ addresses t → heap' b = s.heap b := by
  induction t generalizing fuel with
  | nil =>
    cases fuel with
    | zero => cases enough
    | succ fuel => exact ⟨s.heap, rfl, trivial, fun _ _ => rfl⟩
  | node c l r left right =>
    have apart := apart_iff.mp distinct
    obtain ⟨here, first, last⟩ := laid
    rw [height] at enough
    cases fuel with
    | zero => cases enough
    | succ fuel =>
      have enoughLeft : l.height < fuel := by omega
      have enoughRight : r.height < fuel := by omega
      simp only [logicalDeleteFrom, rootOf_node, given, here, Option.bind_eq_bind,
        Option.bind_some]
      have key : (nodeOf c l r (node c l r).height).lbn = Cell.lbn c := rfl
      rw [key, find, markCell, change]
      by_cases same : n.lbn = Cell.lbn c
      · rw [if_pos same, if_pos same, if_pos same]
        by_cases valid : c.2.valid = .valid
        · have wrote : Wrote s.heap
              (s.heap.store c.1 (nodeOf (Cell.invalidate c) l r (node c l r).height)) c.1 _ :=
            wrote_store
          have laid' : Laid (s.heap.store c.1 (nodeOf (Cell.invalidate c) l r (node c l r).height))
              (node (Cell.invalidate c) l r) :=
            ⟨wrote.here, first.wrote wrote apart.notLeft, last.wrote wrote apart.notRight⟩
          refine ⟨_, ?_, laid', fun b outer => wrote.others b fun here' => ?_⟩
          · rw [countMarked, if_pos valid]
            exact if_pos valid
          · exact outer (mem_addresses_node.mpr (.inr (.inl here')))
        · have unchanged : Cell.invalidate c = c := by
            obtain ⟨b, inode, lbn, v⟩ := c
            cases v with
            | valid => exact absurd rfl valid
            | invalid => rfl
          rw [unchanged, countMarked, if_neg valid]
          exact ⟨s.heap, if_neg valid, ⟨here, first, last⟩, fun _ _ => rfl⟩
      · rw [if_neg same, if_neg same, if_neg same]
        by_cases less : n.lbn < Cell.lbn c
        · rw [if_pos less, if_pos less, if_pos less]
          obtain ⟨heap', marked, laid', frame⟩ := left first enoughLeft apart.left
          refine ⟨heap', marked, ⟨?_, laid', ?_⟩, fun b outer => ?_⟩
          · rw [frame c.1 apart.notLeft, here, nodeOf, nodeOf, rootOf_markCell, height, height,
              height_change]
          · exact last.congr fun b member => frame b fun inLeft => apart.disjoint b inLeft member
          · exact frame b fun member => outer (mem_addresses_node.mpr (.inl member))
        · rw [if_neg less, if_neg less, if_neg less]
          obtain ⟨heap', marked, laid', frame⟩ := right last enoughRight apart.right
          refine ⟨heap', marked, ⟨?_, ?_, laid'⟩, fun b outer => ?_⟩
          · rw [frame c.1 apart.notRight, here, nodeOf, nodeOf, rootOf_markCell, height, height,
              height_change]
          · exact first.congr fun b member => frame b fun inRight => apart.disjoint b member inRight
          · exact frame b fun member => outer (mem_addresses_node.mpr (.inr (.inr member)))

/-- A subtree is pushed unless it is empty. -/
def pushTree : BinaryTree (Cell I) → List (BinaryTree (Cell I)) → List (BinaryTree (Cell I))
  | nil, ts => ts
  | node c l r, ts => node c l r :: ts

section Push

variable {ts : List (BinaryTree (Cell I))} {u : BinaryTree (Cell I)}

theorem map_pushTree (t : BinaryTree (Cell I)) (ts : List (BinaryTree (Cell I))) :
    (pushTree t ts).map rootOf =
      if rootOf t = none then ts.map rootOf else rootOf t :: ts.map rootOf := by
  cases t with
  | nil => rfl
  | node c l r => simp [pushTree]

theorem sum_pushTree (t : BinaryTree (Cell I)) (ts : List (BinaryTree (Cell I))) :
    ((pushTree t ts).map numNodes).sum = t.numNodes + (ts.map numNodes).sum := by
  cases t with
  | nil => simp [pushTree]
  | node c l r => rw [pushTree, List.map_cons, List.sum_cons]

theorem mem_pushTree : u ∈ pushTree t ts ↔ (u = t ∧ t ≠ nil) ∨ u ∈ ts := by
  cases t with
  | nil => simp [pushTree]
  | node c l r => simp [pushTree]

end Push

/-- The loop of find_invalid_tree_node, whose stack holds the roots of trees. -/
theorem findInvalidFrom_laid {ts : List (BinaryTree (Cell I))} {fuel : Nat}
    (laid : ∀ t ∈ ts, t ≠ nil ∧ Laid heap t) (enough : (ts.map numNodes).sum < fuel) :
    (∃ c, findInvalidFrom heap fuel (ts.map rootOf) = some (some c.1) ∧ c.2.valid = .invalid ∧
        ∃ t ∈ ts, c ∈ inorder t) ∨
      findInvalidFrom heap fuel (ts.map rootOf) = some none ∧
        ∀ t ∈ ts, ∀ c ∈ inorder t, c.2.valid = .valid := by
  induction fuel generalizing ts with
  | zero => cases enough
  | succ fuel ih =>
    cases ts with
    | nil => exact .inr ⟨rfl, fun t member => nomatch member⟩
    | cons t ts =>
      obtain ⟨some_t, laidT⟩ := laid t List.mem_cons_self
      cases t with
      | nil => exact absurd rfl some_t
      | node c l r =>
        obtain ⟨here, first, last⟩ := laidT
        rw [List.map_cons, List.sum_cons, numNodes] at enough
        simp only [List.map_cons, rootOf_node, findInvalidFrom, here, Option.bind_eq_bind,
          Option.bind_some]
        have valid : (nodeOf c l r (node c l r).height).valid = c.2.valid := rfl
        rw [valid]
        by_cases invalid : c.2.valid = .invalid
        · rw [if_pos invalid]
          refine .inl ⟨c, rfl, invalid, node c l r, List.mem_cons_self, ?_⟩
          exact List.mem_append_right _ List.mem_cons_self
        · rw [if_neg invalid]
          have pushed : ∀ u ∈ pushTree l (pushTree r ts), u ≠ nil ∧ Laid heap u := by
            intro u member
            rcases mem_pushTree.mp member with ⟨rfl, filled⟩ | member
            · exact ⟨filled, first⟩
            · rcases mem_pushTree.mp member with ⟨rfl, filled⟩ | member
              · exact ⟨filled, last⟩
              · exact laid u (List.mem_cons_of_mem _ member)
          have enough' : ((pushTree l (pushTree r ts)).map numNodes).sum < fuel := by
            rw [sum_pushTree, sum_pushTree]
            omega
          have stack := ih pushed enough'
          rw [map_pushTree, map_pushTree] at stack
          rcases stack with ⟨d, found, marked, u, member, inside⟩ | ⟨ended, valid⟩
          · refine .inl ⟨d, found, marked, ?_⟩
            rcases mem_pushTree.mp member with ⟨rfl, _⟩ | member
            · exact ⟨_, List.mem_cons_self, List.mem_append_left _ inside⟩
            · rcases mem_pushTree.mp member with ⟨rfl, _⟩ | member
              · exact ⟨_, List.mem_cons_self,
                  List.mem_append_right _ (List.mem_cons_of_mem c inside)⟩
              · exact ⟨u, List.mem_cons_of_mem _ member, inside⟩
          · refine .inr ⟨ended, fun u member d inside => ?_⟩
            have filled : ∀ u, d ∈ inorder u → u ≠ nil := by
              rintro u inside rfl
              cases inside
            rcases List.mem_cons.mp member with rfl | member
            · rcases List.mem_append.mp inside with inLeft | rest
              · exact valid l (mem_pushTree.mpr (.inl ⟨rfl, filled l inLeft⟩)) d inLeft
              · rcases List.mem_cons.mp rest with rfl | inRight
                · cases v : d.2.valid with
                  | valid => rfl
                  | invalid => exact absurd v invalid
                · have onStack : r ∈ pushTree r ts :=
                    mem_pushTree.mpr (.inl ⟨rfl, filled r inRight⟩)
                  exact valid r (mem_pushTree.mpr (.inr onStack)) d inRight
            · exact valid u (mem_pushTree.mpr (.inr (mem_pushTree.mpr (.inr member)))) d inside

end Marks

section Entries

variable {t : BinaryTree (Cell I)} {k : Lbn}

/-- logical_delete_tree_node on an entry. -/
def TreeEntry.mark (k : Lbn) (e : TreeEntry I) : TreeEntry I :=
  if e.lbn = k then { e with valid := .invalid } else e

theorem entries_insert (x : Cell I) (t : BinaryTree (Cell I)) :
    (treeEntries (AvlTree.insert Cell.lbn x t)).Perm (x.2 :: treeEntries t) := by
  unfold treeEntries
  exact (inorder_insert Cell.lbn x t).map Prod.snd

theorem entries_markCell (ordered : Ordered Cell.lbn t) :
    treeEntries (markCell k t) = (treeEntries t).map (TreeEntry.mark k) := by
  unfold treeEntries
  rw [markCell, inorder_change ordered, List.map_map, List.map_map]
  apply List.map_congr_left
  intro c member
  unfold TreeEntry.mark
  by_cases same : c.2.lbn = k
  · have same' : Cell.lbn c = k := same
    rw [Function.comp_apply, Function.comp_apply, if_pos same, if_pos same']
    rfl
  · have other : Cell.lbn c ≠ k := same
    rw [Function.comp_apply, Function.comp_apply, if_neg same, if_neg other]

theorem entries_eraseCell (ordered : Ordered Cell.lbn t) :
    treeEntries (eraseCell k t) = (treeEntries t).filter fun e => e.lbn ≠ k :=
  inorder_erase (fun _ => rfl) (fun _ _ => rfl) ordered

theorem ordered_markCell (ordered : Ordered Cell.lbn t) : Ordered Cell.lbn (markCell k t) := by
  have stays : ∀ c : Cell I, Cell.lbn (Cell.invalidate c) = Cell.lbn c := fun _ => rfl
  have sorted := List.pairwise_map.mpr ((ordered_iff Cell.lbn).mp ordered)
  rw [← map_inorder_change stays k t] at sorted
  exact (ordered_iff Cell.lbn).mpr (List.pairwise_map.mp sorted)

theorem balanced_change {α κ : Type} [LinearOrder κ] {key : α → κ} {f : α → α} {k : κ}
    {t : BinaryTree α} (balanced : Balanced t) : Balanced (change key f k t) := by
  induction t with
  | nil => trivial
  | node a l r left right =>
    obtain ⟨low, high, first, last⟩ := balanced
    rw [change]
    split
    · exact ⟨low, high, first, last⟩
    · split
      · exact ⟨by rwa [height_change], by rwa [height_change], left first, last⟩
      · exact ⟨by rwa [height_change], by rwa [height_change], first, right last⟩

end Entries

end BurstBuffer.Source
