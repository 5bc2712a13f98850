import BurstBuffer.Source.System

/-!
# Hash nodes by key

What the tables of all volumes say together: the node stored under a key, the
inode of a valid node, and the image a reader of the buffered volume sees. The
effect of the three hash operations is stated on these maps, so that no later
proof looks into the heap.
-/
namespace BurstBuffer.Source

open Library

variable {C : CuckoohashMap} {N : Nat}

def nodeAt (s : State C N) (v : VolumeIdx) (lbn : Nat) : Option NodePtr :=
  (s.volumeTable v).hashTable.bind fun table => searchHashNode table lbn

/-- The inode of the valid node stored under `lbn` in volume `v`. -/
def validInode (s : State C N) (v : VolumeIdx) (lbn : Nat) : Option (InodeIdx N) :=
  (nodeAt s v lbn).bind fun p =>
    if (s.hashNodes p).isValid then (s.hashNodes p).inode else none

/-- The bytes of a block as the volume shows them: the NVM block of its valid
node, else the content of the volume's file. -/
def visibleImage (s : State C N) (v : VolumeIdx) (lbn : Nat) : Option Block :=
  match validInode s v lbn with
  | some i => some (s.blockOf i)
  | none => (s.volumeTable v).fd.map fun file => readBlock blockSize (s.files file) lbn

/-- The heap of nodes between operations: a key owns its node, the node is
unlocked, and it is valid exactly while it points to an inode. -/
structure NodesOk (s : State C N) : Prop where
  allocated : ∀ {v lbn p}, nodeAt s v lbn = some p → p < s.nextNode
  owner : ∀ {v w lbn l p}, nodeAt s v lbn = some p → nodeAt s w l = some p → v = w ∧ lbn = l
  valid : ∀ {v lbn p}, nodeAt s v lbn = some p →
    ((s.hashNodes p).isValid = true ↔ (s.hashNodes p).inode.isSome)
  unlocked : ∀ {v lbn p}, nodeAt s v lbn = some p → (s.hashNodes p).mutex = false

theorem validInode_eq_inode {s : State C N} (nodes : NodesOk s) {v : VolumeIdx} {lbn : Nat}
    {p : NodePtr} (found : nodeAt s v lbn = some p) :
    validInode s v lbn = (s.hashNodes p).inode := by
  have valid := nodes.valid found
  simp only [validInode, found, Option.bind_some]
  split
  · rfl
  · rename_i invalid
    cases inode : (s.hashNodes p).inode with
    | none => rfl
    | some i =>
      rw [inode] at valid
      exact absurd (valid.mpr rfl) invalid

theorem nodeAt_of_validInode {s : State C N} {v : VolumeIdx} {lbn : Nat} {i : InodeIdx N}
    (bound : validInode s v lbn = some i) :
    ∃ p, nodeAt s v lbn = some p ∧ (s.hashNodes p).isValid = true ∧
      (s.hashNodes p).inode = some i := by
  obtain ⟨p, found, node⟩ := Option.bind_eq_some_iff.mp bound
  split at node
  · exact ⟨p, found, ‹_›, node⟩
  · cases node

/-- The maps by key only depend on the hash tables and the payload of the nodes. -/
theorem nodes_congr {s : State C N} (t : State C N)
    (tables : ∀ v lbn, nodeAt t v lbn = nodeAt s v lbn)
    (next : t.nextNode = s.nextNode)
    (payload : ∀ v lbn p, nodeAt s v lbn = some p →
      (t.hashNodes p).isValid = (s.hashNodes p).isValid ∧
      (t.hashNodes p).inode = (s.hashNodes p).inode ∧
      (t.hashNodes p).mutex = (s.hashNodes p).mutex)
    (nodes : NodesOk s) :
    NodesOk t ∧ ∀ v lbn, validInode t v lbn = validInode s v lbn := by
  refine ⟨⟨?_, ?_, ?_, ?_⟩, ?_⟩
  · intro v lbn p found
    rw [tables] at found
    exact next ▸ nodes.allocated found
  · intro v w lbn l p first second
    rw [tables] at first second
    exact nodes.owner first second
  · intro v lbn p found
    rw [tables] at found
    obtain ⟨isValid, inode, _⟩ := payload v lbn p found
    rw [isValid, inode]
    exact nodes.valid found
  · intro v lbn p found
    rw [tables] at found
    rw [(payload v lbn p found).2.2]
    exact nodes.unlocked found
  · intro v lbn
    unfold validInode
    rw [tables]
    cases found : nodeAt s v lbn with
    | none => rfl
    | some p =>
      obtain ⟨isValid, inode, _⟩ := payload v lbn p found
      simp only [Option.bind_some, isValid, inode]

theorem nodes_same {s t : State C N} (volumes : t.volumeTable = s.volumeTable)
    (heap : t.hashNodes = s.hashNodes) (next : t.nextNode = s.nextNode) (nodes : NodesOk s) :
    NodesOk t ∧ ∀ v lbn, validInode t v lbn = validInode s v lbn :=
  nodes_congr t (fun v lbn => by rw [nodeAt, volumes]; rfl) next
    (fun v lbn p _ => by rw [heap]; exact ⟨rfl, rfl, rfl⟩) nodes

/-- Storing a new payload in the node under one key changes the map of valid
inodes at that key only. -/
theorem payload_update {s : State C N} (t : State C N) (nodes : NodesOk s)
    {v : VolumeIdx} {lbn : Nat}
    {p : NodePtr} (inode : Option (InodeIdx N)) (found : nodeAt s v lbn = some p)
    (tables : ∀ w l, nodeAt t w l = nodeAt s w l) (next : t.nextNode = s.nextNode)
    (changed : (t.hashNodes p).inode = inode ∧ (t.hashNodes p).isValid = inode.isSome ∧
      (t.hashNodes p).mutex = false)
    (others : ∀ q, q ≠ p → (t.hashNodes q).isValid = (s.hashNodes q).isValid ∧
      (t.hashNodes q).inode = (s.hashNodes q).inode ∧
      (t.hashNodes q).mutex = (s.hashNodes q).mutex) :
    NodesOk t ∧ ∀ w l, validInode t w l =
      if w = v ∧ l = lbn then inode else validInode s w l := by
  obtain ⟨newInode, newValid, newMutex⟩ := changed
  refine ⟨⟨?_, ?_, ?_, ?_⟩, ?_⟩
  · intro w l q seen
    rw [tables] at seen
    exact next ▸ nodes.allocated seen
  · intro w w' l l' q first second
    rw [tables] at first second
    exact nodes.owner first second
  · intro w l q seen
    rw [tables] at seen
    by_cases same : q = p
    · subst q
      rw [newInode, newValid]
    · obtain ⟨isValid, inode, _⟩ := others q same
      rw [isValid, inode]
      exact nodes.valid seen
  · intro w l q seen
    rw [tables] at seen
    by_cases same : q = p
    · subst q
      exact newMutex
    · rw [(others q same).2.2]
      exact nodes.unlocked seen
  · intro w l
    unfold validInode
    rw [tables]
    by_cases key : w = v ∧ l = lbn
    · obtain ⟨rfl, rfl⟩ := key
      simp only [found, Option.bind_some, newInode, newValid, and_self, if_true]
      cases inode <;> rfl
    · rw [if_neg key]
      cases seen : nodeAt s w l with
      | none => rfl
      | some q =>
        have different : q ≠ p := by
          intro same
          subst q
          exact key (nodes.owner seen found)
        obtain ⟨isValid, inode, _⟩ := others q different
        simp only [Option.bind_some, isValid, inode]

theorem pushBackListNode_payload (nodes : NodePtr → HashNode N) (list : HashNodeList)
    (node p : NodePtr) :
    ((pushBackListNode nodes list node).1 p).isValid = (nodes p).isValid ∧
      ((pushBackListNode nodes list node).1 p).inode = (nodes p).inode ∧
      ((pushBackListNode nodes list node).1 p).mutex = (nodes p).mutex := by
  unfold pushBackListNode
  cases list.tail with
  | none => by_cases same : p = node <;> simp [same]
  | some tail =>
    by_cases same : p = node
    · subst p
      by_cases last : node = tail <;> simp [last]
    · by_cases last : p = tail
      · subst p
        simp [Function.update_of_ne same]
      · simp [Function.update_of_ne same, Function.update_of_ne last]

theorem lockHashNode_eq_some {p : NodePtr} {s t : State C N} :
    lockHashNode p s = some t ↔ (s.hashNodes p).mutex = false ∧
      t = s.setNode p { s.hashNodes p with mutex := true } := by
  unfold lockHashNode
  cases (s.hashNodes p).mutex <;> simp [eq_comm]

/-- logical_delete_hash_node, on a node locked for it, takes the inode away from the
node under its key. The node maps are those after the node is unlocked again. -/
theorem logicalDeleteHashNode_spec {s u : State C N} (nodes : NodesOk s) {v : VolumeIdx} {lbn : Nat}
    {p : NodePtr} (found : nodeAt s v lbn = some p) (locked : lockHashNode p s = some u) :
    ∃ t, logicalDeleteHashNode v p u = some t ∧ NodesOk (unlockHashNode p t) ∧
      (∀ w l, validInode (unlockHashNode p t) w l =
        if w = v ∧ l = lbn then none else validInode s w l) ∧
      (∀ w, ((t.volumeTable w).vid, (t.volumeTable w).fd, (t.volumeTable w).blockIndex,
          (t.volumeTable w).hashTable.isSome) =
        ((s.volumeTable w).vid, (s.volumeTable w).fd, (s.volumeTable w).blockIndex,
          (s.volumeTable w).hashTable.isSome)) ∧
      t = { s with volumeTable := t.volumeTable, hashNodes := t.hashNodes } := by
  obtain ⟨_, rfl⟩ := lockHashNode_eq_some.mp locked
  obtain ⟨table, opened, _⟩ := Option.bind_eq_some_iff.mp found
  simp only [logicalDeleteHashNode, State.setNode_volumeTable, opened, Option.bind_eq_bind,
    Option.bind_some]
  set marked := State.setNode (s.setNode p _) p _ with hmarked
  set pushed := pushBackListNode marked.hashNodes table.invalidList p with hpushed
  have payload := pushBackListNode_payload marked.hashNodes table.invalidList p
  refine ⟨_, rfl, ?_⟩
  set t := State.setVolume { marked with hashNodes := pushed.1 } v
    { marked.volumeTable v with hashTable := some { table with invalidList := pushed.2 } } with ht
  have tables : ∀ w l, nodeAt (unlockHashNode p t) w l = nodeAt s w l := by
    intro w l
    by_cases same : w = v
    · subst w
      simp [unlockHashNode, ht, nodeAt, opened, searchHashNode]
    · simp [unlockHashNode, ht, nodeAt, Function.update_of_ne same, hmarked]
  have update := payload_update (unlockHashNode p t) nodes none found tables rfl
    (by
      obtain ⟨isValid, inode, _⟩ := payload p
      simp only [unlockHashNode, ht, State.setNode_hashNodes, State.setVolume_hashNodes, hpushed,
        Function.update_self, isValid, inode]
      simp [hmarked])
    (by
      intro q other
      obtain ⟨isValid, inode, mutex⟩ := payload q
      simp only [unlockHashNode, ht, State.setNode_hashNodes, State.setVolume_hashNodes, hpushed,
        Function.update_of_ne other, isValid, inode, mutex]
      simp [hmarked, Function.update_of_ne other])
  refine ⟨update.1, update.2, ?_, rfl⟩
  intro w
  by_cases same : w = v
  · subst w
    simp [opened, hmarked]
  · simp [Function.update_of_ne same, hmarked]

/-- validate_hash_node gives the node under its key a new inode. -/
theorem validateHashNode_spec {s : State C N} (nodes : NodesOk s) {v : VolumeIdx} {lbn : Nat}
    {p : NodePtr} (found : nodeAt s v lbn = some p) (i : InodeIdx N) :
    NodesOk (validateHashNode p i s) ∧ ∀ w l, validInode (validateHashNode p i s) w l =
      if w = v ∧ l = lbn then some i else validInode s w l := by
  apply payload_update (validateHashNode p i s) nodes (some i) found (fun w l => rfl) rfl
  · simp [validateHashNode, nodes.unlocked found]
  · intro q other
    simp [validateHashNode, Function.update_of_ne other]

/-- new_hash_node and insert_hash_node put a new node under a key that had none. -/
theorem insertHashNode_spec {s t : State C N} (nodes : NodesOk s) {v : VolumeIdx} {lbn : Nat}
    {i : InodeIdx N} (key : (s.inodeTable i).lbn = lbn)
    (inserted : insertHashNode v s.nextNode (newHashNode i s).2 = some t) :
    NodesOk t ∧ nodeAt t v lbn = some s.nextNode ∧
      (t.hashNodes s.nextNode).inode = some i ∧
      (∀ w l, validInode t w l = if w = v ∧ l = lbn then some i else validInode s w l) ∧
      (∀ w, ((t.volumeTable w).vid, (t.volumeTable w).fd, (t.volumeTable w).blockIndex,
          (t.volumeTable w).hashTable.isSome) =
        ((s.volumeTable w).vid, (s.volumeTable w).fd, (s.volumeTable w).blockIndex,
          (s.volumeTable w).hashTable.isSome)) ∧
      t = { s with
        volumeTable := t.volumeTable, hashNodes := t.hashNodes, nextNode := s.nextNode + 1 } := by
  cases opened : (s.volumeTable v).hashTable with
  | none => simp [insertHashNode, newHashNode, opened] at inserted
  | some table =>
    simp only [insertHashNode, newHashNode, State.setNode_volumeTable, opened,
      State.setNode_hashNodes, Function.update_self, State.setNode_inodeTable, key,
      Option.bind_eq_bind, Option.bind_some, Option.some.injEq] at inserted
    have tables : ∀ w l, nodeAt t w l =
        if w = v ∧ l = lbn then some s.nextNode else nodeAt s w l := by
      intro w l
      by_cases same : w = v
      · subst w
        simp [← inserted, nodeAt, opened, searchHashNode, C.find_store]
      · simp [← inserted, nodeAt, same]
    have fresh : ∀ {w l q}, nodeAt s w l = some q → q ≠ s.nextNode := by
      intro w l q seen same
      exact absurd (same ▸ nodes.allocated seen) (Nat.lt_irrefl _)
    have newNode : (t.hashNodes s.nextNode).inode = some i ∧
        (t.hashNodes s.nextNode).isValid = true ∧ (t.hashNodes s.nextNode).mutex = false := by
      simp [← inserted]
    have oldNode : ∀ q, q ≠ s.nextNode → t.hashNodes q = s.hashNodes q := by
      intro q other
      simp [← inserted, Function.update_of_ne other]
    have next : t.nextNode = s.nextNode + 1 := by simp [← inserted]
    refine ⟨⟨?_, ?_, ?_, ?_⟩, ?_, newNode.1, ?_, ?_, by rw [← inserted]; rfl⟩
    · intro w l q seen
      rw [tables] at seen
      rw [next]
      split at seen
      · cases seen
        exact Nat.lt_succ_self _
      · exact Nat.lt_succ_of_lt (nodes.allocated seen)
    · intro w w' l l' q first second
      rw [tables] at first second
      split at first <;> split at second
      · rename_i one two
        exact ⟨one.1.trans two.1.symm, one.2.trans two.2.symm⟩
      · cases first
        exact absurd rfl (fresh second)
      · cases second
        exact absurd rfl (fresh first)
      · exact nodes.owner first second
    · intro w l q seen
      rw [tables] at seen
      split at seen
      · cases seen
        simp [newNode]
      · rw [oldNode q (fresh seen)]
        exact nodes.valid seen
    · intro w l q seen
      rw [tables] at seen
      split at seen
      · cases seen
        exact newNode.2.2
      · rw [oldNode q (fresh seen)]
        exact nodes.unlocked seen
    · rw [tables, if_pos ⟨rfl, rfl⟩]
    · intro w l
      unfold validInode
      rw [tables]
      by_cases same : w = v ∧ l = lbn
      · simp [same, newNode]
      · rw [if_neg same, if_neg same]
        cases seen : nodeAt s w l with
        | none => rfl
        | some q => simp only [Option.bind_some, oldNode q (fresh seen)]
    · intro w
      by_cases same : w = v
      · subst w
        simp [← inserted, opened]
      · simp [← inserted, Function.update_of_ne same]

end BurstBuffer.Source
