import BurstBuffer.Invariants.Nodes

/-!
# The effect of one block step

`writeBlock_spec` says everything a completed block step of nvm_durable_write
does: which inode it works on, and how each table, queue and counter changes.
The invariants are derived from it without unfolding the step again.
-/
namespace BurstBuffer.Source

open Library

variable {C : CuckoohashMap} {N : Nat}

/-- The part of a volume entry that only allocation and closing change. -/
def volumeIdentity (s : State C N) (v : VolumeIdx) : Nat × Option String × Bool :=
  ((s.volumeTable v).vid, (s.volumeTable v).fd, (s.volumeTable v).hashTable.isSome)

/-- The inode a block step works on: that of the valid node, else the oldest
entry of the free queue whose turn it is. -/
def blockInode (s : State C N) (v : VolumeIdx) (lbn : Nat) : Option (InodeIdx N) :=
  match validInode s v lbn with
  | some i => some i
  | none =>
    ((s.inodeFreeLfqueue (roundRobin defaultNumFree s.freeDequeueIdx)).dequeue).map Prod.fst

theorem inodeIdxOfPointer_of_lt {i : InodeIdx N} (narrow : i.val < 2 ^ 26) :
    inodeIdxOfPointer i = i := by
  apply Fin.ext
  simp only [inodeIdxOfPointer]
  omega

theorem inodeIdxOfPointer_val (i : InodeIdx N) : (inodeIdxOfPointer i).val = i.val % 2 ^ 26 := by
  simp only [inodeIdxOfPointer]
  omega

/-- Where the inode of a block step comes from: it is bound to the block
already, or it is the oldest entry of the free queue whose turn it is. -/
inductive InodeSource (s t : State C N) (v : VolumeIdx) (lbn : Nat) (i : InodeIdx N) : Prop where
  | bound (valid : validInode s v lbn = some i)
      (queues : t.inodeFreeLfqueue = s.inodeFreeLfqueue)
      (count : t.inodeFreeCount = s.inodeFreeCount)
      (turn : t.freeDequeueIdx = s.freeDequeueIdx)
  | taken (unbound : validInode s v lbn = none)
      (enough : defaultFreeMinCount ≤ s.inodeFreeCount)
      (rest : LfQueue (InodeIdx N) N)
      (head : (s.inodeFreeLfqueue (roundRobin defaultNumFree s.freeDequeueIdx)).dequeue =
        some (i, rest))
      (queues : t.inodeFreeLfqueue =
        Function.update s.inodeFreeLfqueue (roundRobin defaultNumFree s.freeDequeueIdx) rest)
      (count : t.inodeFreeCount = s.inodeFreeCount - 1)
      (turn : t.freeDequeueIdx = s.freeDequeueIdx + 1)

theorem InodeSource.blockInode {s t : State C N} {v : VolumeIdx} {lbn : Nat} {i : InodeIdx N}
    (source : InodeSource s t v lbn i) : blockInode s v lbn = some i := by
  unfold Source.blockInode
  cases source with
  | bound valid => rw [valid]
  | taken unbound _ rest head => rw [unbound, head]; rfl

/-- What get_hash_node_with_lock does; the node maps are those after the node is
unlocked again. -/
structure NodeLocked (s t : State C N) (v : VolumeIdx) (lbn : Nat) (p : NodePtr)
    (i : InodeIdx N) : Prop where
  found : nodeAt t v lbn = some p
  inode : (t.hashNodes p).inode = some i
  nodes : NodesOk (unlockHashNode p t)
  bound : ∀ w l, validInode (unlockHashNode p t) w l =
    if w = v ∧ l = lbn then some i else validInode s w l
  entries : t.inodeTable =
    Function.update s.inodeTable i { s.inodeTable i with lbn := lbn, volume := some v }
  identity : ∀ w, volumeIdentity t w = volumeIdentity s w
  volumeBlock : ∀ w, (t.volumeTable w).blockIndex = (s.volumeTable w).blockIndex
  source : InodeSource s t v lbn i
  frame : t = { s with
    inodeTable := t.inodeTable, volumeTable := t.volumeTable, hashNodes := t.hashNodes
    nextNode := t.nextNode, inodeFreeLfqueue := t.inodeFreeLfqueue
    freeDequeueIdx := t.freeDequeueIdx, inodeFreeCount := t.inodeFreeCount }

/-- A bound inode already carries the key. -/
def KeyOk (s : State C N) (v : VolumeIdx) (lbn : Nat) : Prop :=
  ∀ i, validInode s v lbn = some i →
    (s.inodeTable i).lbn = lbn ∧ (s.inodeTable i).volume = some v

theorem lockInode_eq_some {i : InodeIdx N} {s t : State C N} :
    lockInode i s = some t ↔ (s.inodeTable i).lock = false ∧
      t = s.setInode i { s.inodeTable i with lock := true } := by
  unfold lockInode
  cases (s.inodeTable i).lock <;> simp [eq_comm]

/-- Locking and unlocking a node that was unlocked leaves the heap as it was. -/
theorem relock_hashNodes {s : State C N} {p : NodePtr} (free : (s.hashNodes p).mutex = false) :
    (unlockHashNode p (s.setNode p { s.hashNodes p with mutex := true })).hashNodes =
      s.hashNodes := by
  funext q
  by_cases same : q = p
  · subst q
    simp [unlockHashNode, ← free]
  · simp [unlockHashNode, Function.update_of_ne same]

/-- The node was found valid: only its mutex changes. -/
theorem nodeLocked_of_valid {s : State C N} (nodes : NodesOk s) {v : VolumeIdx} {lbn : Nat}
    (keys : KeyOk s v lbn) {p : NodePtr} (found : nodeAt s v lbn = some p)
    (valid : (s.hashNodes p).isValid = true) {t : State C N}
    (locked : lockHashNode p s = some t) : ∃ i, NodeLocked s t v lbn p i := by
  obtain ⟨free, lockedState⟩ := lockHashNode_eq_some.mp locked
  obtain ⟨i, inode⟩ := Option.isSome_iff_exists.mp ((nodes.valid found).mp valid)
  have bound : validInode s v lbn = some i := by rw [validInode_eq_inode nodes found, inode]
  have heap : (unlockHashNode p t).hashNodes = s.hashNodes := lockedState ▸ relock_hashNodes free
  have same : NodesOk (unlockHashNode p t) ∧
      ∀ w l, validInode (unlockHashNode p t) w l = validInode s w l :=
    nodes_congr _ (fun w l => by rw [lockedState]; rfl) (by rw [lockedState]; rfl)
      (fun w l q _ => by rw [heap]; exact ⟨rfl, rfl, rfl⟩) nodes
  obtain ⟨lbnEq, volumeEq⟩ := keys i bound
  subst lockedState
  refine ⟨i, found, by simp [inode], same.1, ?_, ?_, fun w => rfl, fun w => rfl,
    .bound bound rfl rfl rfl, rfl⟩
  · intro w l
    rw [same.2]
    split
    · rename_i key
      rw [key.1, key.2, bound]
    · rfl
  · rw [← lbnEq, ← volumeEq]
    simp

theorem isValidNode_eq (s : State C N) (v : VolumeIdx) (lbn : Nat) (nodes : NodesOk s) :
    isValidNode (nodeAt s v lbn) s = (validInode s v lbn).isSome := by
  cases found : nodeAt s v lbn with
  | none => simp [isValidNode, validInode, found]
  | some p =>
    rw [validInode_eq_inode nodes found, isValidNode, Bool.eq_iff_iff]
    exact nodes.valid found

theorem getFreeInode_spec {s t : State C N} {v : VolumeIdx} {lbn : Nat} {i : InodeIdx N}
    (taken : getFreeInodeFromFreeLFQueue v lbn s = some (i, t)) :
    (∃ rest, (s.inodeFreeLfqueue (roundRobin defaultNumFree s.freeDequeueIdx)).dequeue =
        some (i, rest) ∧ t.inodeFreeLfqueue =
          Function.update s.inodeFreeLfqueue (roundRobin defaultNumFree s.freeDequeueIdx) rest) ∧
      t.inodeTable =
        Function.update s.inodeTable i { s.inodeTable i with lbn := lbn, volume := some v } ∧
      t.inodeFreeCount = s.inodeFreeCount - 1 ∧ t.freeDequeueIdx = s.freeDequeueIdx + 1 ∧
      t = { s with
        inodeTable := t.inodeTable, inodeFreeLfqueue := t.inodeFreeLfqueue
        inodeFreeCount := t.inodeFreeCount, freeDequeueIdx := t.freeDequeueIdx } := by
  obtain ⟨⟨j, rest⟩, head, tail⟩ := Option.bind_eq_some_iff.mp taken
  cases tail
  exact ⟨⟨rest, head, rfl⟩, rfl, rfl, rfl, rfl⟩

/-- The node get_hash_node_with_lock locks, when it had to take a new inode. -/
theorem nodeLocked_of_taken {s t u w : State C N} (nodes : NodesOk s) {v : VolumeIdx} {lbn : Nat}
    (unbound : validInode s v lbn = none) (enough : defaultFreeMinCount ≤ s.inodeFreeCount)
    {i : InodeIdx N} (taken : getFreeInodeFromFreeLFQueue v lbn s = some (i, t)) {p : NodePtr}
    (placed : placeHashNode v (nodeAt s v lbn) i t = some (p, u))
    (locked : lockHashNode p u = some w) : NodeLocked s w v lbn p i := by
  obtain ⟨⟨remaining, head, queues⟩, entries, count, turn, frame⟩ := getFreeInode_spec taken
  obtain ⟨free, lockedState⟩ := lockHashNode_eq_some.mp locked
  have heap : (unlockHashNode p w).hashNodes = u.hashNodes := lockedState ▸ relock_hashNodes free
  have tableEq : t.volumeTable = s.volumeTable := by rw [frame]
  have same : ∀ w l, nodeAt t w l = nodeAt s w l := fun w l => by rw [nodeAt, tableEq]; rfl
  have before : NodesOk t ∧ ∀ w l, validInode t w l = validInode s w l :=
    nodes_congr t same (by rw [frame])
      (fun w l q _ => by rw [frame]; exact ⟨rfl, rfl, rfl⟩) nodes
  have key : (t.inodeTable i).lbn = lbn := by simp [entries]
  have reached : NodesOk u ∧ nodeAt u v lbn = some p ∧ (u.hashNodes p).inode = some i ∧
      (∀ x l, validInode u x l = if x = v ∧ l = lbn then some i else validInode t x l) ∧
      (∀ x, volumeIdentity u x = volumeIdentity t x) ∧
      (∀ x, (u.volumeTable x).blockIndex = (t.volumeTable x).blockIndex) ∧
      u = { t with
        volumeTable := u.volumeTable, hashNodes := u.hashNodes, nextNode := u.nextNode } := by
    cases found : nodeAt s v lbn with
    | none =>
      simp only [placeHashNode, found, Option.map_eq_some_iff, Prod.mk.injEq] at placed
      obtain ⟨x, inserted, rfl, rfl⟩ := placed
      obtain ⟨after, present, inode, bound, identity, rest⟩ :=
        insertHashNode_spec before.1 key inserted
      refine ⟨after, present, inode, bound, fun y => ?_, fun y => ?_, by rw [rest]⟩
      · have entry := identity y
        simp only [Prod.mk.injEq] at entry
        simp only [volumeIdentity, entry]
      · have entry := identity y
        simp only [Prod.mk.injEq] at entry
        exact entry.2.2.1
    | some q =>
      simp only [placeHashNode, found, Option.some.injEq, Prod.mk.injEq] at placed
      obtain ⟨rfl, rfl⟩ := placed
      have present : nodeAt t v lbn = some q := (same v lbn).trans found
      obtain ⟨after, bound⟩ := validateHashNode_spec before.1 present i
      exact ⟨after, present, by simp [validateHashNode], bound, fun y => rfl, fun y => rfl, rfl⟩
  obtain ⟨after, present, inode, bound, identity, blockIndex, rest⟩ := reached
  have settled : NodesOk (unlockHashNode p w) ∧
      ∀ x l, validInode (unlockHashNode p w) x l = validInode u x l :=
    nodes_congr _ (fun x l => by rw [lockedState]; rfl) (by rw [lockedState]; rfl)
      (fun x l q _ => by rw [heap]; exact ⟨rfl, rfl, rfl⟩) after
  have whole : u = { s with
      inodeTable := t.inodeTable, volumeTable := u.volumeTable, hashNodes := u.hashNodes
      nextNode := u.nextNode, inodeFreeLfqueue := t.inodeFreeLfqueue
      freeDequeueIdx := t.freeDequeueIdx, inodeFreeCount := t.inodeFreeCount } := by
    rw [rest, frame]
  have tEntries : u.inodeTable = t.inodeTable := by rw [rest]
  have tQueues : u.inodeFreeLfqueue = t.inodeFreeLfqueue := by rw [rest]
  have tCount : u.inodeFreeCount = t.inodeFreeCount := by rw [rest]
  have tTurn : u.freeDequeueIdx = t.freeDequeueIdx := by rw [rest]
  refine ⟨?_, ?_, settled.1, ?_, ?_, ?_, ?_, ?_, ?_⟩
  · rw [lockedState]
    exact present
  · rw [lockedState]
    simp [inode]
  · intro x l
    rw [settled.2, bound, before.2]
  · rw [lockedState]
    exact tEntries.trans entries
  · intro x
    rw [lockedState,
      ← show volumeIdentity t x = volumeIdentity s x by simp [volumeIdentity, tableEq]]
    exact identity x
  · intro x
    rw [lockedState, ← tableEq]
    exact blockIndex x
  · rw [lockedState]
    exact .taken unbound enough remaining head (tQueues.trans queues) (tCount.trans count)
      (tTurn.trans turn)
  · rw [lockedState, whole]
    rfl

theorem getHashNodeWithLock_spec {s t : State C N} (nodes : NodesOk s) {v : VolumeIdx} {lbn : Nat}
    (keys : KeyOk s v lbn) {p : NodePtr} (located : getHashNodeWithLock v lbn s = some (p, t)) :
    ∃ i, NodeLocked s t v lbn p i := by
  simp only [getHashNodeWithLock, Option.bind_eq_bind] at located
  obtain ⟨table, opened, located⟩ := Option.bind_eq_some_iff.mp located
  have search : searchHashNode table lbn = nodeAt s v lbn := by simp [nodeAt, opened]
  rw [search, isValidNode_eq s v lbn nodes] at located
  cases bound : validInode s v lbn with
  | none =>
    rw [bound] at located
    simp only [Option.isSome_none, Bool.not_false, if_true] at located
    split at located
    · cases located
    · rename_i enough
      obtain ⟨⟨i, taken⟩, free, located⟩ := Option.bind_eq_some_iff.mp located
      obtain ⟨⟨q, placed⟩, place, located⟩ := Option.bind_eq_some_iff.mp located
      obtain ⟨locked, lock, located⟩ := Option.bind_eq_some_iff.mp located
      simp only [Option.some.injEq, Prod.mk.injEq] at located
      obtain ⟨rfl, rfl⟩ := located
      simp only [isFreeLFQueueEnough, Bool.not_eq_true, Bool.not_eq_false', decide_eq_true_eq]
        at enough
      exact ⟨i, nodeLocked_of_taken nodes bound enough free place lock⟩
  | some i =>
    rw [bound] at located
    simp only [Option.isSome_some, Bool.not_true, Bool.false_eq_true, if_false] at located
    obtain ⟨q, found, located⟩ := Option.bind_eq_some_iff.mp located
    obtain ⟨locked, lock, located⟩ := Option.bind_eq_some_iff.mp located
    simp only [Option.some.injEq, Prod.mk.injEq] at located
    obtain ⟨rfl, rfl⟩ := located
    obtain ⟨r, present, valid, _⟩ := nodeAt_of_validInode bound
    cases found.symm.trans present
    exact nodeLocked_of_valid nodes keys found valid lock

/-- Copying a whole block leaves nothing of what was there. -/
theorem memcpy_block (block : Block) (ptr : Nat → UInt8) :
    memcpy block ptr blockSize = fun i => ptr i.val := by
  funext i
  exact if_pos i.isLt

/-- Everything a block step on `(v, lbn)` that works on inode `i` changes. -/
structure BlockWritten (s t : State C N) (v : VolumeIdx) (lbn : Nat) (buf : Nat → UInt8)
    (count : Nat) (i : InodeIdx N) : Prop where
  wasUnlocked : (s.inodeTable i).lock = false
  entries : t.inodeTable = Function.update s.inodeTable i
    { lbn := lbn, state := .dirty, volume := some v
      blockIndex := (s.volumeTable v).blockIndex, lock := false }
  identity : ∀ w, volumeIdentity t w = volumeIdentity s w
  volumeBlock : ∀ w, (t.volumeTable w).blockIndex =
    if w = v then (s.inodeTable i).blockIndex else (s.volumeTable w).blockIndex
  blocks : t.blockTable = Function.update s.blockTable (s.volumeTable v).blockIndex
    (memcpy (s.blockTable (s.volumeTable v).blockIndex) buf count)
  nodes : NodesOk t
  bound : ∀ w l, validInode t w l = if w = v ∧ l = lbn then some i else validInode s w l
  source : InodeSource s t v lbn i
  dirty : if (s.inodeTable i).state = .dirty then
      t.inodeDirtyLfqueue = s.inodeDirtyLfqueue ∧ t.inodeDirtyCount = s.inodeDirtyCount
    else ∃ q, (s.inodeDirtyLfqueue v).enqueue i = some q ∧
      t.inodeDirtyLfqueue = Function.update s.inodeDirtyLfqueue v q ∧
      t.inodeDirtyCount = s.inodeDirtyCount + 1
  frame : t = { s with
    inodeTable := t.inodeTable, volumeTable := t.volumeTable, blockTable := t.blockTable
    hashNodes := t.hashNodes, nextNode := t.nextNode, inodeFreeLfqueue := t.inodeFreeLfqueue
    freeDequeueIdx := t.freeDequeueIdx, inodeFreeCount := t.inodeFreeCount
    inodeDirtyLfqueue := t.inodeDirtyLfqueue, inodeDirtyCount := t.inodeDirtyCount }

/-- writeDataToNvmBlock exchanges the inode's block for the ownerless block of its volume. -/
theorem writeData_spec {s t : State C N} {idx : InodeIdx N} {offset count n : Nat}
    {buf : Nat → UInt8} {v : VolumeIdx} (owner : (s.inodeTable idx).volume = some v)
    (written : writeDataToNvmBlock idx offset buf count s = some (n, t)) :
    n = count ∧
      t.inodeTable = Function.update s.inodeTable idx
        { s.inodeTable idx with blockIndex := (s.volumeTable v).blockIndex } ∧
      t.volumeTable = Function.update s.volumeTable v
        { s.volumeTable v with blockIndex := (s.inodeTable idx).blockIndex } ∧
      t.blockTable = Function.update s.blockTable (s.volumeTable v).blockIndex
        (memcpy (s.blockTable (s.volumeTable v).blockIndex) buf count) ∧
      t = { s with
        inodeTable := t.inodeTable, volumeTable := t.volumeTable, blockTable := t.blockTable } := by
  obtain ⟨w, volume, written⟩ := Option.bind_eq_some_iff.mp written
  cases owner.symm.trans volume
  cases written
  exact ⟨rfl, rfl, rfl, rfl, rfl⟩

theorem enqueueDirty_spec {old : InodeState} {v : VolumeIdx} {i : InodeIdx N} {s t : State C N}
    (marked : enqueueDirty old v i s = some t) :
    (if old = .dirty then
        t.inodeDirtyLfqueue = s.inodeDirtyLfqueue ∧ t.inodeDirtyCount = s.inodeDirtyCount
      else ∃ q, (s.inodeDirtyLfqueue v).enqueue i = some q ∧
        t.inodeDirtyLfqueue = Function.update s.inodeDirtyLfqueue v q ∧
        t.inodeDirtyCount = s.inodeDirtyCount + 1) ∧
      t = { s with
        inodeDirtyLfqueue := t.inodeDirtyLfqueue, inodeDirtyCount := t.inodeDirtyCount } := by
  unfold enqueueDirty at marked
  split at marked
  · rename_i other
    obtain ⟨q, queued, rfl⟩ := Option.map_eq_some_iff.mp marked
    rw [if_neg other]
    exact ⟨⟨q, queued, rfl, rfl⟩, rfl⟩
  · rename_i dirty
    cases marked
    rw [if_pos (not_not.mp dirty)]
    exact ⟨⟨rfl, rfl⟩, rfl⟩

/-- The part of a block step after the node lock has been taken: `inode` is what
the node points to, `idx` the index computed from that pointer. -/
def storeInBlock (node : NodePtr) (inode idx : InodeIdx N) (v : VolumeIdx) (offset : Nat)
    (buf : Nat → UInt8) (count : Nat) (s : State C N) : Option (Nat × State C N) := do
  let s ← lockInode inode s
  let oldState := (s.inodeTable inode).state
  let s := s.setInode inode { s.inodeTable inode with state := .dirty }
  let (writeCount, s) ← writeDataToNvmBlock idx offset buf count s
  let s ← enqueueDirty oldState v idx s
  some (writeCount, unlockHashNode node (unlockInode inode s))

theorem writeBlock_eq {s u : State C N} {v : VolumeIdx} {lbn offset count : Nat}
    {buf : Nat → UInt8} {p : NodePtr} {i : InodeIdx N}
    (located : getHashNodeWithLock v lbn s = some (p, u)) (inode : (u.hashNodes p).inode = some i) :
    writeBlock v lbn offset buf count s =
      storeInBlock p i (inodeIdxOfPointer i) v offset buf count u := by
  simp [writeBlock, located, getInodeEntryIdxFromHash, inode, storeInBlock]

/-- The inode table with one inode marked dirty and unlocked. -/
def markDirty (s : State C N) (i : InodeIdx N) : InodeIdx N → InodeEntry N :=
  Function.update s.inodeTable i { s.inodeTable i with state := .dirty, lock := false }

/-- The stores of a block step, in terms of the state in which the node has been locked. -/
structure Stored (s t : State C N) (p : NodePtr) (i idx : InodeIdx N) (v w : VolumeIdx)
    (buf : Nat → UInt8) (count : Nat) : Prop where
  wasUnlocked : (s.inodeTable i).lock = false
  entries : t.inodeTable = Function.update (markDirty s i) idx
    { markDirty s i idx with blockIndex := (s.volumeTable w).blockIndex }
  volumes : t.volumeTable = Function.update s.volumeTable w
    { s.volumeTable w with blockIndex := (s.inodeTable idx).blockIndex }
  blocks : t.blockTable = Function.update s.blockTable (s.volumeTable w).blockIndex
    (memcpy (s.blockTable (s.volumeTable w).blockIndex) buf count)
  heap : t.hashNodes = (unlockHashNode p s).hashNodes
  dirty : if (s.inodeTable i).state = .dirty then
      t.inodeDirtyLfqueue = s.inodeDirtyLfqueue ∧ t.inodeDirtyCount = s.inodeDirtyCount
    else ∃ q, (s.inodeDirtyLfqueue v).enqueue idx = some q ∧
      t.inodeDirtyLfqueue = Function.update s.inodeDirtyLfqueue v q ∧
      t.inodeDirtyCount = s.inodeDirtyCount + 1
  frame : t = { s with
    inodeTable := t.inodeTable, volumeTable := t.volumeTable, blockTable := t.blockTable
    hashNodes := t.hashNodes, inodeDirtyLfqueue := t.inodeDirtyLfqueue
    inodeDirtyCount := t.inodeDirtyCount }

theorem storeInBlock_spec {s t : State C N} {p : NodePtr} {i idx : InodeIdx N} {v w : VolumeIdx}
    {offset count n : Nat} {buf : Nat → UInt8} (owner : (s.inodeTable idx).volume = some w)
    (stored : storeInBlock p i idx v offset buf count s = some (n, t)) :
    n = count ∧ Stored s t p i idx v w buf count := by
  obtain ⟨locked, lock, afterLock⟩ := Option.bind_eq_some_iff.mp stored
  obtain ⟨unlocked, rfl⟩ := lockInode_eq_some.mp lock
  obtain ⟨⟨m, x⟩, written, afterWrite⟩ := Option.bind_eq_some_iff.mp afterLock
  obtain ⟨y, marked, last⟩ := Option.bind_eq_some_iff.mp afterWrite
  have kept : (Function.update s.inodeTable i
      { s.inodeTable i with state := .dirty, lock := true } idx).volume = some w ∧
      (Function.update s.inodeTable i
        { s.inodeTable i with state := .dirty, lock := true } idx).blockIndex =
        (s.inodeTable idx).blockIndex := by
    by_cases same : idx = i
    · subst idx
      simp [owner]
    · simp [same, owner]
  obtain ⟨same, entries, volumes, blocks, frame⟩ :=
    writeData_spec (v := w) (by simpa using kept.1) written
  obtain ⟨dirty, yFrame⟩ := enqueueDirty_spec marked
  simp only [Option.some.injEq, Prod.mk.injEq] at last
  obtain ⟨rfl, rfl⟩ := last
  simp only [State.setInode_inodeTable, Function.update_self, Function.update_idem,
    State.setInode_volumeTable, State.setInode_blockTable, kept.2] at entries volumes blocks
  have xDirty : x.inodeDirtyLfqueue = s.inodeDirtyLfqueue ∧
      x.inodeDirtyCount = s.inodeDirtyCount ∧ x.hashNodes = s.hashNodes := by
    rw [frame]
    exact ⟨rfl, rfl, rfl⟩
  have yEntries : y.inodeTable = x.inodeTable := by rw [yFrame]
  have yVolumes : y.volumeTable = x.volumeTable := by rw [yFrame]
  have yBlocks : y.blockTable = x.blockTable := by rw [yFrame]
  have yNodes : y.hashNodes = s.hashNodes := by rw [yFrame]; exact xDirty.2.2
  refine ⟨same, unlocked, ?_, ?_, ?_, ?_, ?_, ?_⟩
  · simp only [unlockHashNode, unlockInode, State.setNode_inodeTable, State.setInode_inodeTable,
      yEntries, entries, markDirty]
    funext j
    by_cases here : j = i <;> by_cases there : j = idx
    · subst j
      subst idx
      simp
    · subst j
      simp [there]
    · subst j
      simp [here]
    · simp [here, there]
  · simp [unlockHashNode, unlockInode, yVolumes, volumes]
  · simp [unlockHashNode, unlockInode, yBlocks, blocks]
  · simp [unlockHashNode, unlockInode, yNodes]
  · simpa [unlockHashNode, unlockInode, xDirty] using dirty
  · rw [yFrame, frame]
    rfl

/-- Where the index is the inode's own, one entry changes. -/
theorem Stored.entries_self {s t : State C N} {p : NodePtr} {i : InodeIdx N} {v w : VolumeIdx}
    {buf : Nat → UInt8} {count : Nat} (stored : Stored s t p i i v w buf count) :
    t.inodeTable = Function.update s.inodeTable i { s.inodeTable i with
      state := .dirty, blockIndex := (s.volumeTable w).blockIndex, lock := false } := by
  simpa [markDirty] using stored.entries

/-- The stores leave the nodes as they are once the node is unlocked. -/
theorem Stored.nodes {s t : State C N} {p : NodePtr} {i idx : InodeIdx N} {v w : VolumeIdx}
    {buf : Nat → UInt8} {count : Nat} (stored : Stored s t p i idx v w buf count)
    (nodes : NodesOk (unlockHashNode p s)) :
    NodesOk t ∧ ∀ x l, validInode t x l = validInode (unlockHashNode p s) x l := by
  have next : t.nextNode = s.nextNode := by rw [stored.frame]
  refine nodes_congr t (fun x l => ?_) next
    (fun x l q _ => by rw [stored.heap]; exact ⟨rfl, rfl, rfl⟩) nodes
  by_cases here : x = w
  · subst x
    simp [nodeAt, stored.volumes, unlockHashNode]
  · simp [nodeAt, stored.volumes, unlockHashNode, Function.update_of_ne here]

theorem Stored.identity {s t : State C N} {p : NodePtr} {i idx : InodeIdx N} {v w : VolumeIdx}
    {buf : Nat → UInt8} {count : Nat} (stored : Stored s t p i idx v w buf count) (x : VolumeIdx) :
    volumeIdentity t x = volumeIdentity s x := by
  by_cases here : x = w
  · subst x
    simp [volumeIdentity, stored.volumes]
  · simp [volumeIdentity, stored.volumes, Function.update_of_ne here]

/-- They leave the free queues alone. -/
theorem Stored.source {s u t : State C N} {p : NodePtr} {i idx : InodeIdx N} {v w : VolumeIdx}
    {lbn count : Nat} {buf : Nat → UInt8} (stored : Stored u t p i idx v w buf count)
    (source : InodeSource s u v lbn i) : InodeSource s t v lbn i := by
  have frees : t.inodeFreeLfqueue = u.inodeFreeLfqueue ∧ t.inodeFreeCount = u.inodeFreeCount ∧
      t.freeDequeueIdx = u.freeDequeueIdx := by
    rw [stored.frame]
    exact ⟨rfl, rfl, rfl⟩
  cases source with
  | bound valid queues count turn =>
    exact .bound valid (frees.1.trans queues) (frees.2.1.trans count) (frees.2.2.trans turn)
  | taken unbound enough rest head queues count turn =>
    exact .taken unbound enough rest head (frees.1.trans queues) (frees.2.1.trans count)
      (frees.2.2.trans turn)

theorem writeBlock_spec {s t : State C N} (nodes : NodesOk s) {v : VolumeIdx}
    {lbn offset count n : Nat} {buf : Nat → UInt8} (keys : KeyOk s v lbn)
    (narrow : ∀ i, blockInode s v lbn = some i → i.val < 2 ^ 26)
    (written : writeBlock v lbn offset buf count s = some (n, t)) :
    n = count ∧ ∃ i, BlockWritten s t v lbn buf count i := by
  obtain ⟨⟨p, u⟩, located, _⟩ := Option.bind_eq_some_iff.mp written
  obtain ⟨i, node⟩ := getHashNodeWithLock_spec nodes keys located
  rw [writeBlock_eq located node.inode,
    inodeIdxOfPointer_of_lt (narrow i node.source.blockInode)] at written
  have uEntry : u.inodeTable i = { s.inodeTable i with lbn := lbn, volume := some v } := by
    rw [node.entries, Function.update_self]
  obtain ⟨same, stored⟩ := storeInBlock_spec (w := v) (by rw [uEntry]) written
  have entries := stored.entries_self
  have after := stored.nodes node.nodes
  have identity := stored.identity
  have source := stored.source node.source
  obtain ⟨unlocked, _, volumes, blocks, heap, dirty, frame⟩ := stored
  have uDirty : u.inodeDirtyLfqueue = s.inodeDirtyLfqueue ∧
      u.inodeDirtyCount = s.inodeDirtyCount ∧ u.blockTable = s.blockTable := by
    rw [node.frame]
    exact ⟨rfl, rfl, rfl⟩
  rw [uEntry] at unlocked dirty
  refine ⟨same, i, unlocked, ?_, fun w => (identity w).trans (node.identity w), ?_, ?_, after.1,
    ?_, source, ?_, ?_⟩
  · rw [entries, uEntry, node.entries, Function.update_idem, node.volumeBlock]
  · intro w
    rw [volumes, ← node.volumeBlock]
    by_cases here : w = v
    · subst w
      simp [uEntry]
    · simp [here]
  · rw [blocks, node.volumeBlock, uDirty.2.2]
  · intro w l
    rw [after.2, node.bound]
  · simpa only [uDirty] using dirty
  · rw [frame, node.frame]

end BurstBuffer.Source
