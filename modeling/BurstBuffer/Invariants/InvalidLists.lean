import BurstBuffer.Invariants.NodeEffects
import BurstBuffer.Library.LinkedList

/-!
# Invalid lists

The list of a table holds its invalid nodes as long as no invalid node is made
valid again: a node is pushed when it becomes invalid, and nothing takes it out.
-/
namespace BurstBuffer.Source

open Library

variable {C : CuckoohashMap} {N : Nat}

/-- The node is one of the hash table of the volume. -/
def InTable (s : State C N) (v : VolumeIdx) (p : NodePtr) : Prop := ∃ lbn, nodeAt s v lbn = some p

/-- Walking along `next` from the head and along `prev` from the tail visits `ps`
and the same in reverse, once each; `ps` are the invalid nodes of the table. -/
structure Mirrored (s : State C N) (v : VolumeIdx) (list : HashNodeList) (ps : List NodePtr) :
    Prop where
  linked : Linked (fun p => (s.hashNodes p).next) (fun p => (s.hashNodes p).prev)
    list.head list.tail ps
  distinct : ps.Nodup
  count : list.count = ps.length
  members : ∀ p, p ∈ ps ↔ InTable s v p ∧ (s.hashNodes p).isValid = false

/-- The list of every hash table mirrors its invalid nodes. -/
def ListsMirror (s : State C N) : Prop :=
  ∀ v table, (s.volumeTable v).hashTable = some table → ∃ ps, Mirrored s v table.invalidList ps

section Steps

variable {s t : State C N} {v : VolumeIdx} {lbn : Nat} {p : NodePtr}

/-- A list whose nodes and table are as before. -/
theorem Mirrored.congr {list : HashNodeList} {ps : List NodePtr} (mirrored : Mirrored s v list ps)
    (links : ∀ q ∈ ps, (t.hashNodes q).next = (s.hashNodes q).next ∧
      (t.hashNodes q).prev = (s.hashNodes q).prev)
    (members : ∀ q, (InTable t v q ∧ (t.hashNodes q).isValid = false) ↔
      (InTable s v q ∧ (s.hashNodes q).isValid = false)) : Mirrored t v list ps where
  linked := mirrored.linked.congr links
  distinct := mirrored.distinct
  count := mirrored.count
  members q := (mirrored.members q).trans (members q).symm

theorem SameNodes.inTable (same : SameNodes s t) (v : VolumeIdx) (p : NodePtr) :
    InTable t v p ↔ InTable s v p := by
  unfold InTable
  simp only [same.nodeAt]

theorem SameNodes.mirror (same : SameNodes s t) (mirror : ListsMirror s) : ListsMirror t := by
  intro v table opened
  rw [same.tables] at opened
  obtain ⟨ps, mirrored⟩ := mirror v table opened
  refine ⟨ps, mirrored.congr (fun q _ => ?_) fun q => ?_⟩
  · rw [same.heap]
    exact ⟨rfl, rfl⟩
  · rw [same.inTable, same.heap]

/-- The lookup in tables of which one has a new map. -/
theorem nodeAt_of_tables {table : HashTable C}
    (tables : ∀ w, (t.volumeTable w).hashTable =
      if w = v then some table else (s.volumeTable w).hashTable) (w : VolumeIdx) (l : Nat) :
    nodeAt t w l = if w = v then searchHashNode table l else nodeAt s w l := by
  rw [nodeAt, tables]
  split <;> rfl

/-- A new valid node is in no list. -/
theorem mirror_inserted {i : InodeIdx N} {table : HashTable C} (nodes : NodesOk s)
    (mirror : ListsMirror s) (opened : (s.volumeTable v).hashTable = some table)
    (absent : nodeAt s v lbn = none)
    (tables : ∀ w, (t.volumeTable w).hashTable = if w = v then
      some { table with map := C.store table.map lbn s.nextNode }
      else (s.volumeTable w).hashTable)
    (heap : t.hashNodes = Function.update s.hashNodes s.nextNode
      { inode := some i, lbn := lbn, isValid := true, mutex := false, prev := none, next := none }) :
    ListsMirror t := by
  have lookup : ∀ w l, nodeAt t w l =
      if w = v ∧ l = lbn then some s.nextNode else nodeAt s w l := by
    intro w l
    rw [nodeAt_of_tables tables, searchHashNode, C.find_store]
    by_cases here : w = v
    · subst w
      simp [nodeAt, opened, searchHashNode]
    · simp [here]
  have old : ∀ q, q ≠ s.nextNode → t.hashNodes q = s.hashNodes q := by
    intro q other
    rw [heap, Function.update_of_ne other]
  have present : ∀ w q, q ≠ s.nextNode → (InTable t w q ↔ InTable s w q) := by
    intro w q other
    constructor
    · rintro ⟨l, found⟩
      rw [lookup] at found
      split at found
      · cases found
        exact absurd rfl other
      · exact ⟨l, found⟩
    · rintro ⟨l, found⟩
      refine ⟨l, ?_⟩
      rw [lookup, if_neg]
      · exact found
      · rintro ⟨rfl, rfl⟩
        rw [absent] at found
        cases found
  have fresh : ∀ {w q}, InTable s w q → q ≠ s.nextNode := by
    rintro w q ⟨l, found⟩ rfl
    exact Nat.lt_irrefl _ (nodes.allocated found)
  intro w tab openedAfter
  have same : ∃ tab', (s.volumeTable w).hashTable = some tab' ∧
      tab.invalidList = tab'.invalidList := by
    rw [tables] at openedAfter
    split at openedAfter
    · rename_i here
      cases openedAfter
      exact ⟨table, here ▸ opened, rfl⟩
    · exact ⟨tab, openedAfter, rfl⟩
  obtain ⟨tab', before, list⟩ := same
  obtain ⟨ps, mirrored⟩ := mirror w tab' before
  rw [list]
  refine ⟨ps, mirrored.congr (fun q member => ?_) fun q => ?_⟩
  · rw [old q (fresh ((mirrored.members q).mp member).1)]
    exact ⟨rfl, rfl⟩
  · by_cases new : q = s.nextNode
    · subst new
      rw [heap, Function.update_self]
      constructor
      · rintro ⟨_, invalid⟩
        cases invalid
      · rintro ⟨inTable, _⟩
        exact absurd rfl (fresh inTable)
    · rw [present w q new, old q new]

/-- The deleted node goes to the back of the list of its table. -/
theorem Deleted.mirror {table : HashTable C} (nodes : NodesOk s) (mirror : ListsMirror s)
    (deleted : Deleted s t v lbn p table) : ListsMirror t := by
  have maps : ∀ w q, InTable t w q ↔ InTable s w q := by
    intro w q
    unfold InTable
    simp only [nodeAt_of_tables deleted.tables]
    by_cases here : w = v
    · subst w
      simp [nodeAt, deleted.opened, searchHashNode]
    · simp [here]
  have home : ∀ {w}, InTable s w p → w = v := by
    rintro w ⟨l, found⟩
    exact (nodes.owner found deleted.found).1
  obtain ⟨ps, mirrored⟩ := mirror v table deleted.opened
  have inside : ∀ q ∈ ps, InTable s v q := fun q member => ((mirrored.members q).mp member).1
  have fresh : p ∉ ps := by
    intro member
    have invalid := ((mirrored.members p).mp member).2
    rw [deleted.valid] at invalid
    cases invalid
  have tailInside : ∀ {b}, table.invalidList.tail = some b → b ∈ ps := by
    intro b tail
    have linked := mirrored.linked
    rw [tail] at linked
    obtain ⟨front, rfl⟩ := linked.eq_concat
    simp
  intro w tab opened
  rw [deleted.tables] at opened
  split at opened
  · rename_i here
    subst w
    cases opened
    refine ⟨ps ++ [p], ?_, ?_, ?_, fun q => ?_⟩
    · exact mirrored.linked.append mirrored.distinct fresh (fun c _ => deleted.next c)
        fun c _ => deleted.prev c
    · exact List.nodup_append.mpr ⟨mirrored.distinct, List.nodup_singleton p, by
        rintro a member b last rfl
        rw [List.mem_singleton] at last
        exact fresh (last ▸ member)⟩
    · rw [List.length_append, List.length_singleton, mirrored.count]
    · rw [List.mem_append, List.mem_singleton, mirrored.members, maps, deleted.isValid]
      by_cases here : q = p
      · subst q
        simp only [or_true, if_true, and_true, true_iff]
        exact ⟨lbn, deleted.found⟩
      · simp [here]
  · rename_i elsewhere
    obtain ⟨qs, other⟩ := mirror w tab opened
    have apart : ∀ q, InTable s w q → q ≠ p ∧ table.invalidList.tail ≠ some q := by
      rintro q ⟨l, found⟩
      constructor
      · rintro rfl
        exact elsewhere (home ⟨l, found⟩)
      · intro tail
        obtain ⟨l', found'⟩ := inside q (tailInside tail)
        exact elsewhere (nodes.owner found found').1
    refine ⟨qs, other.congr (fun q member => ?_) fun q => ?_⟩
    · obtain ⟨different, notTail⟩ := apart q ((other.members q).mp member).1
      rw [deleted.next, deleted.prev, if_neg different, if_neg different, if_neg notTail]
      exact ⟨rfl, rfl⟩
    · rw [maps, deleted.isValid]
      constructor
      · rintro ⟨inTable, invalid⟩
        rw [if_neg (apart q inTable).1] at invalid
        exact ⟨inTable, invalid⟩
      · rintro ⟨inTable, invalid⟩
        rw [if_neg (apart q inTable).1]
        exact ⟨inTable, invalid⟩

/-- A node that is made valid again stays in the list. -/
theorem not_mirror_validated {i : InodeIdx N} (mirror : ListsMirror s)
    (found : nodeAt s v lbn = some p) (invalid : (s.hashNodes p).isValid = false)
    (tables : ∀ w, (t.volumeTable w).hashTable = (s.volumeTable w).hashTable)
    (heap : t.hashNodes = Function.update s.hashNodes p
      { s.hashNodes p with inode := some i, lbn := lbn, isValid := true }) : ¬ ListsMirror t := by
  intro after
  obtain ⟨table, opened, _⟩ := Option.bind_eq_some_iff.mp found
  obtain ⟨ps, mirrored⟩ := mirror v table opened
  obtain ⟨qs, mirrored'⟩ := after v table ((tables v).trans opened)
  have member : p ∈ ps := (mirrored.members p).mpr ⟨⟨lbn, found⟩, invalid⟩
  have links : ∀ q, (t.hashNodes q).next = (s.hashNodes q).next := by
    intro q
    rw [heap]
    by_cases here : q = p
    · subst q
      rw [Function.update_self]
    · rw [Function.update_of_ne here]
  have forward := mirrored.linked.forward.congr fun q _ => links q
  have same : ps = qs := forward.unique mirrored'.linked.forward
  have stays := ((mirrored'.members p).mp (same ▸ member)).2
  rw [heap, Function.update_self] at stays
  cases stays

/-- An opened table has no nodes. -/
theorem mirror_opened (mirror : ListsMirror s)
    (tables : ∀ w, (t.volumeTable w).hashTable =
      if w = v then some newHashTable else (s.volumeTable w).hashTable)
    (heap : t.hashNodes = s.hashNodes) : ListsMirror t := by
  have lookup := nodeAt_of_tables (t := t) tables
  intro w table opened
  rw [tables] at opened
  split at opened
  · rename_i here
    cases opened
    refine ⟨[], Linked.nil, List.nodup_nil, rfl, fun q => ?_⟩
    constructor
    · intro member
      cases member
    · rintro ⟨⟨l, found⟩, _⟩
      rw [lookup, if_pos here] at found
      rw [searchHashNode, newHashTable, C.find_empty] at found
      cases found
  · rename_i elsewhere
    obtain ⟨ps, mirrored⟩ := mirror w table opened
    refine ⟨ps, mirrored.congr (fun q _ => ?_) fun q => ?_⟩
    · rw [heap]
      exact ⟨rfl, rfl⟩
    · unfold InTable
      simp only [lookup, if_neg elsewhere, heap]

theorem mirror_closed (closed : ∀ w, (t.volumeTable w).hashTable = none) : ListsMirror t := by
  intro v table opened
  rw [closed] at opened
  cases opened

theorem nodesOk_closed (closed : ∀ w, (t.volumeTable w).hashTable = none) : NodesOk t := by
  have none : ∀ {w l p}, nodeAt t w l = some p → False := by
    intro w l p found
    rw [nodeAt, closed] at found
    cases found
  exact ⟨fun found => (none found).elim, fun found => (none found).elim,
    fun found => (none found).elim, fun found => (none found).elim⟩

theorem nodesOk_opened (nodes : NodesOk s)
    (tables : ∀ w, (t.volumeTable w).hashTable =
      if w = v then some newHashTable else (s.volumeTable w).hashTable)
    (heap : t.hashNodes = s.hashNodes) (next : t.nextNode = s.nextNode) : NodesOk t := by
  have before : ∀ {w l p}, nodeAt t w l = some p → nodeAt s w l = some p := by
    intro w l p found
    rw [nodeAt_of_tables tables] at found
    split at found
    · rw [searchHashNode, newHashTable, C.find_empty] at found
      cases found
    · exact found
  constructor
  · intro w l p found
    rw [next]
    exact nodes.allocated (before found)
  · intro w x l m p found found'
    exact nodes.owner (before found) (before found')
  · intro w l p found
    rw [heap]
    exact nodes.valid (before found)
  · intro w l p found
    rw [heap]
    exact nodes.unlocked (before found)

end Steps

/-- The step does not write a block whose node is invalid. -/
def LeavesInvalid (s : State C N) : Event → Prop
  | .writeBlock v lbn _ _ _ => ∀ p, nodeAt s v lbn = some p → (s.hashNodes p).isValid = true
  | _ => True

instance (s : State C N) (e : Event) : Decidable (LeavesInvalid s e) :=
  match e with
  | .writeBlock v lbn _ _ _ =>
    decidable_of_iff ((nodeAt s v lbn).all fun p => (s.hashNodes p).isValid)
      (Option.all_eq_true _ _)
  | .openVolume _ | .flush _ | .sync _ | .balloon _ | .restart => isTrue trivial

/-- The nodes are in order, and the lists mirror the invalid ones. -/
structure ListsOk (s : State C N) : Prop where
  nodes : NodesOk s
  mirror : ListsMirror s

section Run

variable {cwd : String} {limit : Nat} {s t : State C N}

theorem KeyEffect.mirror_iff {v : VolumeIdx} {lbn : Nat} (ok : ListsOk s)
    (effect : KeyEffect s t v lbn) :
    ListsMirror t ↔ ∀ p, nodeAt s v lbn = some p → (s.hashNodes p).isValid = true := by
  cases effect with
  | valid p found valid same =>
    constructor
    · intro _ q found'
      cases found.symm.trans found'
      exact valid
    · intro _
      exact same.mirror ok.mirror
  | inserted i table opened absent nodes tables heap =>
    constructor
    · intro _ q found
      rw [absent] at found
      cases found
    · intro _
      exact mirror_inserted ok.nodes ok.mirror opened absent tables heap
  | validated p i found invalid nodes tables heap =>
    constructor
    · intro after
      exact absurd after (not_mirror_validated ok.mirror found invalid tables heap)
    · intro allowed
      have valid := allowed p found
      rw [invalid] at valid
      cases valid

/-- One operation keeps the nodes in order, and the lists exactly when it leaves
invalid nodes alone. -/
theorem ListsOk.step {e : Event} (ok : ListsOk s) (step : next cwd limit s e = some t) :
    NodesOk t ∧ (ListsMirror t ↔ LeavesInvalid s e) := by
  have keeps : NodesOk t → ListsMirror t → NodesOk t ∧ (ListsMirror t ↔ True) :=
    fun nodes mirror => ⟨nodes, iff_of_true mirror trivial⟩
  cases e with
  | openVolume vid =>
    obtain ⟨⟨v, u⟩, got, rfl⟩ := Option.map_eq_some_iff.mp step
    rcases getVolumeEntryIdx_cases got with ⟨rfl, _⟩ | opened
    · exact keeps ok.nodes ok.mirror
    · have tables : ∀ w, (u.volumeTable w).hashTable =
          if w = v then some newHashTable else (s.volumeTable w).hashTable := by
        intro w
        rw [opened.table]
        by_cases here : w = v
        · subst w
          simp
        · simp [here]
      have heap : u.hashNodes = s.hashNodes := by rw [opened.frame]
      have next : u.nextNode = s.nextNode := by rw [opened.frame]
      exact keeps (nodesOk_opened ok.nodes tables heap next) (mirror_opened ok.mirror tables heap)
  | writeBlock v lbn localOffset buf localCount =>
    simp only [Source.next] at step
    split at step
    · obtain ⟨⟨n, u⟩, wrote, rfl⟩ := Option.map_eq_some_iff.mp step
      have effect := writeBlock_effect ok.nodes wrote
      exact ⟨effect.nodes ok.nodes, effect.mirror_iff ok⟩
    · cases step
  | flush v =>
    have same := SameNodes.of_unmoved (nvmFlush_unmoved step)
    exact keeps (same.nodes ok.nodes) (same.mirror ok.mirror)
  | sync index =>
    have same := SameNodes.of_unmoved (syncLoop_unmoved step)
    exact keeps (same.nodes ok.nodes) (same.mirror ok.mirror)
  | balloon index =>
    rcases fillFreeInodesPass_effect ok.nodes step with same | ⟨v, lbn, p, table, deleted⟩
    · exact keeps (same.nodes ok.nodes) (same.mirror ok.mirror)
    · exact keeps deleted.nodes (deleted.mirror ok.nodes ok.mirror)
  | restart =>
    obtain ⟨u, _, _, fresh⟩ := restart_spec step
    have closed : ∀ w, (t.volumeTable w).hashTable = none := by
      intro w
      rw [fresh.volume]
      rfl
    exact keeps (nodesOk_closed closed) (mirror_closed closed)

theorem ListsOk.of_reachable
    (reach : (system C N cwd limit).ReachableBy LeavesInvalid s) : ListsOk s := by
  refine reach.invariant ?_ ?_
  · rintro s ⟨memory, started⟩
    obtain ⟨t, started', fresh⟩ := nvmSystemInit_spec
      (recoveryStart_of_written cwd (s := nvmStructureBuild memory) fun _ => rfl)
    cases started.symm.trans started'
    have closed : ∀ w, (s.volumeTable w).hashTable = none := by
      intro w
      rw [fresh.volume]
      rfl
    exact ⟨nodesOk_closed closed, mirror_closed closed⟩
  · intro s e t ok allowed step
    obtain ⟨nodes, mirror⟩ := ok.step step
    exact ⟨nodes, mirror.mpr allowed⟩

end Run

end BurstBuffer.Source
