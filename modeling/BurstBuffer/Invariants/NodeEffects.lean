import BurstBuffer.Invariants.BlockOwners

/-!
# What an operation does to the hash nodes

Whatever else a step does, in the hash tables and the heap of nodes it opens a
table, inserts a node, validates one, deletes one logically, or changes nothing.
This holds for every step, also for those that go wrong in the inode table.
-/
namespace BurstBuffer.Source

open Library

variable {C : CuckoohashMap} {N : Nat}

/-- The tables and the heap of nodes are the same. -/
structure SameNodes (s t : State C N) : Prop where
  tables : ∀ w, (t.volumeTable w).hashTable = (s.volumeTable w).hashTable
  heap : t.hashNodes = s.hashNodes
  next : t.nextNode = s.nextNode

namespace SameNodes

variable {s t u : State C N}

theorem refl (s : State C N) : SameNodes s s := ⟨fun _ => rfl, rfl, rfl⟩

theorem trans (first : SameNodes s t) (second : SameNodes t u) : SameNodes s u where
  tables w := (second.tables w).trans (first.tables w)
  heap := second.heap.trans first.heap
  next := second.next.trans first.next

theorem nodeAt (same : SameNodes s t) (v : VolumeIdx) (lbn : Nat) :
    nodeAt t v lbn = nodeAt s v lbn := by
  rw [Source.nodeAt, Source.nodeAt, same.tables]

theorem nodes (same : SameNodes s t) (nodes : NodesOk s) : NodesOk t := by
  apply (nodes_congr t same.nodeAt same.next _ nodes).1
  intro v lbn p _
  rw [same.heap]
  exact ⟨rfl, rfl, rfl⟩

theorem setInode (s : State C N) (i : InodeIdx N) (entry : InodeEntry N) :
    SameNodes s (s.setInode i entry) := ⟨fun _ => rfl, rfl, rfl⟩

theorem of_unmoved (unmoved : Unmoved s t) : SameNodes s t :=
  ⟨fun _ => by rw [unmoved.volumes], unmoved.heap, unmoved.next⟩

/-- A node that was unlocked, locked and unlocked again. -/
theorem relock {p : NodePtr} (locked : lockHashNode p s = some t) :
    SameNodes s (unlockHashNode p t) := by
  obtain ⟨free, rfl⟩ := lockHashNode_eq_some.mp locked
  exact ⟨fun _ => rfl, relock_hashNodes free, rfl⟩

end SameNodes

/-- What get_hash_node_with_lock does to the node of block `lbn`, once it is unlocked. -/
inductive KeyEffect (s t : State C N) (v : VolumeIdx) (lbn : Nat) : Prop where
  | valid (p : NodePtr) (found : nodeAt s v lbn = some p)
      (valid : (s.hashNodes p).isValid = true) (same : SameNodes s t)
  | inserted (i : InodeIdx N) (table : HashTable C)
      (opened : (s.volumeTable v).hashTable = some table) (absent : nodeAt s v lbn = none)
      (nodes : NodesOk t)
      (tables : ∀ w, (t.volumeTable w).hashTable = if w = v then
        some { table with map := C.store table.map lbn s.nextNode }
        else (s.volumeTable w).hashTable)
      (heap : t.hashNodes = Function.update s.hashNodes s.nextNode
        { inode := some i, lbn := lbn, isValid := true, mutex := false, prev := none, next := none })
  | validated (p : NodePtr) (i : InodeIdx N) (found : nodeAt s v lbn = some p)
      (invalid : (s.hashNodes p).isValid = false) (nodes : NodesOk t)
      (tables : ∀ w, (t.volumeTable w).hashTable = (s.volumeTable w).hashTable)
      (heap : t.hashNodes = Function.update s.hashNodes p
        { s.hashNodes p with inode := some i, lbn := lbn, isValid := true })

namespace KeyEffect

variable {s t u : State C N} {v : VolumeIdx} {lbn : Nat}

theorem trans (first : KeyEffect s t v lbn) (same : SameNodes t u) : KeyEffect s u v lbn := by
  cases first with
  | valid p found isValid before => exact .valid p found isValid (before.trans same)
  | inserted i table opened absent nodes tables heap =>
    refine .inserted i table opened absent (same.nodes nodes) (fun w => ?_) (same.heap.trans heap)
    rw [same.tables, tables]
  | validated p i found invalid nodes tables heap =>
    refine .validated p i found invalid (same.nodes nodes) (fun w => ?_) (same.heap.trans heap)
    rw [same.tables, tables]

theorem nodes (effect : KeyEffect s t v lbn) (before : NodesOk s) : NodesOk t := by
  cases effect with
  | valid _ _ _ same => exact same.nodes before
  | inserted _ _ _ _ nodes => exact nodes
  | validated _ _ _ _ nodes => exact nodes

end KeyEffect

section Write

variable {s t u : State C N} {v : VolumeIdx} {lbn : Nat} {p : NodePtr} {i : InodeIdx N}

theorem getFreeInode_same
    (taken : getFreeInodeFromFreeLFQueue v lbn s = some (i, t)) : SameNodes s t := by
  obtain ⟨_, _, _, _, frame⟩ := getFreeInode_spec taken
  rw [frame]
  exact ⟨fun _ => rfl, rfl, rfl⟩

/-- The branches on a null and on an invalid node, for an inode that has been given
the block number. -/
theorem placeHashNode_effect (nodes : NodesOk s) (key : (s.inodeTable i).lbn = lbn)
    (invalid : isValidNode (nodeAt s v lbn) s = false)
    (placed : placeHashNode v (nodeAt s v lbn) i s = some (p, t)) : KeyEffect s t v lbn := by
  cases found : nodeAt s v lbn with
  | none =>
    simp only [placeHashNode, found, Option.map_eq_some_iff, Prod.mk.injEq] at placed
    obtain ⟨x, inserted, _, rfl⟩ := placed
    have after := (insertHashNode_spec nodes key inserted).1
    obtain ⟨table, opened, rest⟩ := Option.bind_eq_some_iff.mp inserted
    obtain ⟨j, inode, done⟩ := Option.bind_eq_some_iff.mp rest
    simp only [newHashNode, State.setNode_hashNodes, Function.update_self,
      Option.some.injEq] at inode
    cases inode
    cases done
    have openedBefore : (s.volumeTable v).hashTable = some table := opened
    refine .inserted i table openedBefore found after (fun w => ?_) ?_
    · by_cases here : w = v
      · subst w
        simp [newHashNode, key]
      · simp [newHashNode, here]
    · simp [newHashNode, key]
  | some q =>
    simp only [placeHashNode, found, Option.some.injEq, Prod.mk.injEq] at placed
    obtain ⟨_, rfl⟩ := placed
    rw [found] at invalid
    have after := (validateHashNode_spec nodes found i).1
    refine .validated q i found invalid after (fun w => rfl) ?_
    simp [validateHashNode, key]

theorem getHashNodeWithLock_effect (nodes : NodesOk s)
    (located : getHashNodeWithLock v lbn s = some (p, t)) :
    KeyEffect s (unlockHashNode p t) v lbn := by
  simp only [getHashNodeWithLock, Option.bind_eq_bind] at located
  obtain ⟨table, opened, located⟩ := Option.bind_eq_some_iff.mp located
  have search : searchHashNode table lbn = nodeAt s v lbn := by simp [nodeAt, opened]
  rw [search] at located
  cases valid : isValidNode (nodeAt s v lbn) s with
  | false =>
    rw [valid] at located
    simp only [Bool.not_false, if_true] at located
    split at located
    · cases located
    · obtain ⟨⟨i, x⟩, taken, located⟩ := Option.bind_eq_some_iff.mp located
      obtain ⟨⟨q, y⟩, placed, located⟩ := Option.bind_eq_some_iff.mp located
      obtain ⟨z, locked, done⟩ := Option.bind_eq_some_iff.mp located
      cases done
      have same := getFreeInode_same taken
      obtain ⟨_, entries, _⟩ := getFreeInode_spec taken
      have key : (x.inodeTable i).lbn = lbn := by simp [entries]
      have still : isValidNode (nodeAt x v lbn) x = false := by
        rw [same.nodeAt, ← valid]
        unfold isValidNode
        rw [same.heap]
      rw [← same.nodeAt] at placed
      have effect := (placeHashNode_effect (same.nodes nodes) key still placed).trans
        (SameNodes.relock locked)
      cases effect with
      | valid q found isValid after =>
        rw [found] at still
        rw [isValidNode, isValid] at still
        cases still
      | inserted i table opened absent after tables heap =>
        rw [same.tables] at opened
        rw [same.nodeAt] at absent
        rw [same.heap, same.next] at heap
        refine .inserted i table opened absent after (fun w => ?_) heap
        rw [tables, same.tables, same.next]
      | validated q i found invalid after tables heap =>
        rw [same.nodeAt] at found
        rw [same.heap] at invalid heap
        refine .validated q i found invalid after (fun w => ?_) heap
        rw [tables, same.tables]
  | true =>
    rw [valid] at located
    simp only [Bool.not_true, Bool.false_eq_true, if_false] at located
    obtain ⟨q, found, located⟩ := Option.bind_eq_some_iff.mp located
    obtain ⟨z, locked, done⟩ := Option.bind_eq_some_iff.mp located
    cases done
    rw [found] at valid
    exact .valid p found valid (SameNodes.relock locked)

/-- A block step. -/
theorem writeBlock_effect {offset count n : Nat} {buf : Nat → UInt8} (nodes : NodesOk s)
    (written : writeBlock v lbn offset buf count s = some (n, t)) : KeyEffect s t v lbn := by
  obtain ⟨⟨p, u⟩, located, rest⟩ := Option.bind_eq_some_iff.mp written
  obtain ⟨_, index, _⟩ := Option.bind_eq_some_iff.mp rest
  obtain ⟨i, inode, _⟩ := Option.map_eq_some_iff.mp index
  rw [writeBlock_eq located inode] at written
  obtain ⟨w, owner⟩ := storeInBlock_owner written
  obtain ⟨_, stored⟩ := storeInBlock_spec owner written
  apply (getHashNodeWithLock_effect nodes located).trans
  constructor
  · intro x
    by_cases here : x = w
    · subst x
      simp [stored.volumes, unlockHashNode]
    · simp [stored.volumes, unlockHashNode, here]
  · exact stored.heap
  · rw [stored.frame]
    rfl

end Write

section PushBack

variable (nodes : NodePtr → HashNode N) (list : HashNodeList) (node q : NodePtr)

/-- The list behind push_back_list_node. -/
theorem pushBackListNode_list : (pushBackListNode nodes list node).2 =
    { head := if list.tail = none then some node else list.head
      tail := some node, count := list.count + 1 } := by
  unfold pushBackListNode
  cases list.tail <;> rfl

theorem pushBackListNode_next : ((pushBackListNode nodes list node).1 q).next =
    if q = node then none else if list.tail = some q then some node else (nodes q).next := by
  unfold pushBackListNode
  cases list.tail with
  | none => by_cases same : q = node <;> simp [same]
  | some tail =>
    by_cases same : q = node
    · simp [same]
    · by_cases last : q = tail
      · subst last
        simp [same]
      · simp [same, last, Ne.symm last]

theorem pushBackListNode_prev : ((pushBackListNode nodes list node).1 q).prev =
    if q = node then list.tail else (nodes q).prev := by
  unfold pushBackListNode
  cases list.tail with
  | none => by_cases same : q = node <;> simp [same]
  | some tail =>
    by_cases same : q = node
    · simp [same]
    · by_cases last : q = tail
      · subst last
        simp [same]
      · simp [same, last]

end PushBack

/-- What a logical deletion of the node of block `lbn` leaves. -/
structure Deleted (s t : State C N) (v : VolumeIdx) (lbn : Nat) (p : NodePtr)
    (table : HashTable C) : Prop where
  opened : (s.volumeTable v).hashTable = some table
  found : nodeAt s v lbn = some p
  valid : (s.hashNodes p).isValid = true
  nodes : NodesOk t
  tables : ∀ w, (t.volumeTable w).hashTable = if w = v then
    some { table with invalidList :=
      { head := if table.invalidList.tail = none then some p else table.invalidList.head
        tail := some p, count := table.invalidList.count + 1 } }
    else (s.volumeTable w).hashTable
  isValid : ∀ q, (t.hashNodes q).isValid = if q = p then false else (s.hashNodes q).isValid
  next : ∀ q, (t.hashNodes q).next = if q = p then none
    else if table.invalidList.tail = some q then some p else (s.hashNodes q).next
  prev : ∀ q, (t.hashNodes q).prev = if q = p then table.invalidList.tail
    else (s.hashNodes q).prev

theorem Deleted.trans {s t u : State C N} {v : VolumeIdx} {lbn : Nat} {p : NodePtr}
    {table : HashTable C} (deleted : Deleted s t v lbn p table) (same : SameNodes t u) :
    Deleted s u v lbn p table where
  opened := deleted.opened
  found := deleted.found
  valid := deleted.valid
  nodes := same.nodes deleted.nodes
  tables w := (same.tables w).trans (deleted.tables w)
  isValid q := by rw [same.heap, deleted.isValid]
  next q := by rw [same.heap, deleted.next]
  prev q := by rw [same.heap, deleted.prev]

section Balloon

variable {s t u : State C N} {v : VolumeIdx} {lbn : Nat} {p : NodePtr} {i : InodeIdx N}

/-- A node that cannot be deleted stays as it is. -/
theorem tryLockHashNode_cases {locked : Bool}
    (tried : tryLockHashNode p s = some (locked, t)) :
    (locked = false ∧ SameNodes s t) ∨
      locked = true ∧ lockHashNode p s = some t ∧ (s.hashNodes p).inode.isSome := by
  unfold tryLockHashNode at tried
  split at tried
  · cases tried
    exact Or.inl ⟨rfl, SameNodes.refl _⟩
  · rename_i x lock
    obtain ⟨i, inode, tested⟩ := Option.bind_eq_some_iff.mp tried
    split at tested
    · cases tested
      exact Or.inl ⟨rfl, SameNodes.relock lock⟩
    · cases tested
      refine Or.inr ⟨rfl, lock, ?_⟩
      obtain ⟨_, rfl⟩ := lockHashNode_eq_some.mp lock
      rw [State.setNode_hashNodes, Function.update_self] at inode
      exact Option.isSome_iff_exists.mpr ⟨i, inode⟩

theorem deleted_of_locked (nodes : NodesOk s) (found : nodeAt s v lbn = some p)
    (inode : (s.hashNodes p).inode.isSome) (locked : lockHashNode p s = some u)
    (deleted : logicalDeleteHashNode v p u = some t) :
    ∃ table, Deleted s (unlockHashNode p t) v lbn p table := by
  obtain ⟨x, again, after, _⟩ := logicalDeleteHashNode_spec nodes found locked
  cases deleted.symm.trans again
  obtain ⟨table, opened, _⟩ := Option.bind_eq_some_iff.mp deleted
  obtain ⟨_, rfl⟩ := lockHashNode_eq_some.mp locked
  simp only [logicalDeleteHashNode, opened, Option.bind_eq_bind, Option.bind_some,
    Option.some.injEq] at deleted
  subst deleted
  have openedBefore : (s.volumeTable v).hashTable = some table := opened
  refine ⟨table, openedBefore, found, (nodes.valid found).mpr inode, after, fun w => ?_,
    fun q => ?_, fun q => ?_, fun q => ?_⟩
  · by_cases here : w = v
    · subst w
      simp [unlockHashNode, pushBackListNode_list]
    · simp [unlockHashNode, here]
  · by_cases same : q = p
    · subst same
      simp [unlockHashNode, pushBackListNode_payload]
    · simp [unlockHashNode, same, pushBackListNode_payload]
  · by_cases same : q = p
    · subst same
      simp [unlockHashNode, pushBackListNode_next]
    · simp [unlockHashNode, same, pushBackListNode_next]
  · by_cases same : q = p
    · subst same
      simp [unlockHashNode, pushBackListNode_prev]
    · simp [unlockHashNode, same, pushBackListNode_prev]

theorem releaseInode_same (freed : releaseInode i s = some t) : SameNodes s t := by
  obtain ⟨r, _, released⟩ := Option.bind_eq_some_iff.mp freed
  cases released
  exact ⟨fun _ => rfl, rfl, rfl⟩

theorem SameNodes.unlock (same : SameNodes s t) (p : NodePtr) :
    SameNodes (unlockHashNode p s) (unlockHashNode p t) := by
  refine ⟨same.tables, ?_, same.next⟩
  unfold unlockHashNode
  rw [State.setNode_hashNodes, State.setNode_hashNodes, same.heap]

/-- A pass of fill_free_inodes. -/
theorem fillFreeInodesPass_effect {index : Fin defaultNumBalloon} (nodes : NodesOk s)
    (passed : fillFreeInodesPass index s = some t) :
    SameNodes s t ∨ ∃ v lbn p table, Deleted s t v lbn p table := by
  obtain ⟨⟨i, q⟩, _, afterHead⟩ := Option.bind_eq_some_iff.mp passed
  dsimp only at afterHead
  split at afterHead
  · cases afterHead
    exact Or.inl ⟨fun _ => rfl, rfl, rfl⟩
  · obtain ⟨v, _, afterOwner⟩ := Option.bind_eq_some_iff.mp afterHead
    obtain ⟨table, opened, afterTable⟩ := Option.bind_eq_some_iff.mp afterOwner
    obtain ⟨p, search, afterSearch⟩ := Option.bind_eq_some_iff.mp afterTable
    obtain ⟨⟨locked, u⟩, tried, afterLock⟩ := Option.bind_eq_some_iff.mp afterSearch
    set popped : State C N :=
      { s with inodeCleanLfqueue := Function.update s.inodeCleanLfqueue index q } with hpopped
    have first : SameNodes s popped := ⟨fun _ => rfl, rfl, rfl⟩
    have found : nodeAt popped v (s.inodeTable i).lbn = some p := by
      rw [nodeAt, opened]
      exact search
    rcases tryLockHashNode_cases tried with ⟨rfl, same⟩ | ⟨rfl, lock, inode⟩
    · simp only [Bool.not_false, if_true] at afterLock
      cases afterLock
      exact Or.inl (first.trans same)
    · simp only [Bool.not_true, Bool.false_eq_true, if_false] at afterLock
      obtain ⟨x, deleted, afterDelete⟩ := Option.bind_eq_some_iff.mp afterLock
      obtain ⟨y, freed, done⟩ := Option.bind_eq_some_iff.mp afterDelete
      cases done
      obtain ⟨table', effect⟩ := deleted_of_locked (first.nodes nodes) found inode lock deleted
      have effect := effect.trans ((releaseInode_same freed).unlock p)
      exact Or.inr ⟨v, _, p, table', effect.opened, effect.found, effect.valid, effect.nodes,
        effect.tables, effect.isValid, effect.next, effect.prev⟩

end Balloon

end BurstBuffer.Source
