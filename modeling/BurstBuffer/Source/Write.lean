import BurstBuffer.Source.Volume

/-!
# Block writes

nvm0write.cc with WRITE_DEBUG undefined. `ptr` is the memory from the caller's
pointer on. A step that spins or waits for a lock has no result; nothing else
runs in between, so it would wait for ever.
-/
namespace BurstBuffer.Source

variable {C : CuckoohashMap} {N : Nat}

/-- The index behind an inode pointer `64` bytes per entry into the table: the
byte distance is cast to 32 bits before the division by the entry size. -/
def inodeIdxOfPointer (inode : InodeIdx N) : InodeIdx N :=
  ⟨inode.val * 64 % 2 ^ 32 / 64, by
    have bound := inode.isLt
    omega⟩

/-- get_inode_entry_idx_from_hash -/
def getInodeEntryIdxFromHash (node : NodePtr) (s : State C N) : Option (InodeIdx N) :=
  (s.hashNodes node).inode.map inodeIdxOfPointer

def isValidNode (node : Option NodePtr) (s : State C N) : Bool :=
  match node with
  | none => false
  | some p => (s.hashNodes p).isValid

def isFreeLFQueueEnough (s : State C N) : Bool := s.inodeFreeCount ≥ defaultFreeMinCount

/-- `memcpy(ownerless_block, ptr, count)` -/
def memcpy (block : Block) (ptr : Nat → UInt8) (count : Nat) : Block := fun i =>
  if i.val < count then ptr i.val else block i

/-- writeDataToNvmBlock: `offset` is not used. -/
def writeDataToNvmBlock (inodeIndex : InodeIdx N) (_offset : Nat) (ptr : Nat → UInt8) (count : Nat)
    (s : State C N) : Option (Nat × State C N) := do
  let inode := s.inodeTable inodeIndex
  let v ← inode.volume
  let ownerlessBlockIndex := (s.volumeTable v).blockIndex
  let written := memcpy (s.blockTable ownerlessBlockIndex) ptr count
  let s := { s with blockTable := Function.update s.blockTable ownerlessBlockIndex written }
  let s := s.setVolume v { s.volumeTable v with blockIndex := inode.blockIndex }
  some (count, s.setInode inodeIndex { inode with blockIndex := ownerlessBlockIndex })

/-- getFreeInodeFromFreeLFQueue -/
def getFreeInodeFromFreeLFQueue (v : VolumeIdx) (lbn : Nat) (s : State C N) :
    Option (InodeIdx N × State C N) := do
  let queue := roundRobin defaultNumFree s.freeDequeueIdx
  let (idx, rest) ← (s.inodeFreeLfqueue queue).dequeue
  let s := { s with
    freeDequeueIdx := s.freeDequeueIdx + 1
    inodeFreeLfqueue := Function.update s.inodeFreeLfqueue queue rest }
  let s := s.setInode idx { s.inodeTable idx with lbn := lbn, volume := some v }
  some (idx, { s with inodeFreeCount := s.inodeFreeCount - 1 })

/-- `pthread_mutex_lock(&hash_node->mutex)` -/
def lockHashNode (node : NodePtr) (s : State C N) : Option (State C N) :=
  if (s.hashNodes node).mutex then none
  else some (s.setNode node { s.hashNodes node with mutex := true })

def unlockHashNode (node : NodePtr) (s : State C N) : State C N :=
  s.setNode node { s.hashNodes node with mutex := false }

/-- The branches of get_hash_node_with_lock on a null and on an invalid node. -/
def placeHashNode (v : VolumeIdx) (hashNode : Option NodePtr) (newInode : InodeIdx N)
    (s : State C N) : Option (NodePtr × State C N) :=
  match hashNode with
  | none =>
    let (node, s) := newHashNode newInode s
    (insertHashNode v node s).map fun s => (node, s)
  | some node => some (node, validateHashNode node newInode s)

/-- get_hash_node_with_lock: one round of its loop; the rounds that only wait
for more free inodes have no result. -/
def getHashNodeWithLock (v : VolumeIdx) (lbn : Nat) (s : State C N) :
    Option (NodePtr × State C N) := do
  let table ← (s.volumeTable v).hashTable
  let hashNode := searchHashNode table lbn
  if !isValidNode hashNode s then
    if !isFreeLFQueueEnough s then none
    else
      let (newInode, s) ← getFreeInodeFromFreeLFQueue v lbn s
      let (node, s) ← placeHashNode v hashNode newInode s
      let s ← lockHashNode node s
      some (node, s)
  else
    let node ← hashNode
    let s ← lockHashNode node s
    some (node, s)

/-- `pthread_mutex_lock(&hash_node->inode->lock)` -/
def lockInode (inode : InodeIdx N) (s : State C N) : Option (State C N) :=
  if (s.inodeTable inode).lock then none
  else some (s.setInode inode { s.inodeTable inode with lock := true })

def unlockInode (inode : InodeIdx N) (s : State C N) : State C N :=
  s.setInode inode { s.inodeTable inode with lock := false }

/-- `inode_dirty_count++; inode_dirty_lfqueue[v_idx]->enqueue(idx)`, unless the
inode was dirty already. -/
def enqueueDirty (oldState : InodeState) (v : VolumeIdx) (idx : InodeIdx N) (s : State C N) :
    Option (State C N) :=
  if oldState ≠ .dirty then
    ((s.inodeDirtyLfqueue v).enqueue idx).map fun queue => { s with
      inodeDirtyCount := s.inodeDirtyCount + 1
      inodeDirtyLfqueue := Function.update s.inodeDirtyLfqueue v queue }
  else some s

/-- The body of the block loop of nvm_durable_write. -/
def writeBlock (v : VolumeIdx) (lbn localOffset : Nat) (buf : Nat → UInt8) (localCount : Nat)
    (s : State C N) : Option (Nat × State C N) := do
  let (node, s) ← getHashNodeWithLock v lbn s
  let idx ← getInodeEntryIdxFromHash node s
  let inode ← (s.hashNodes node).inode
  let s ← lockInode inode s
  let oldState := (s.inodeTable inode).state
  let s := s.setInode inode { s.inodeTable inode with state := .dirty }
  let (writeCount, s) ← writeDataToNvmBlock idx localOffset buf localCount s
  let s ← enqueueDirty oldState v idx s
  some (writeCount, unlockHashNode node (unlockInode inode s))

/-- The loop of nvm_durable_write with its variables: 32-bit `lbn`, `lbn_end`,
`local_offset` and `local_count`, 64-bit `count` and `bytes_written`. -/
def writeLoop (v : VolumeIdx) (buf : Nat → UInt8) (lbnEnd : Nat) :
    Nat → (lbn localOffset localCount count bytesWritten : Nat) → State C N →
      Option (Nat × State C N)
  | 0, _, _, _, _, _, _ => none
  | fuel + 1, lbn, localOffset, localCount, count, bytesWritten, s => do
    let (writeCount, s) ← writeBlock v lbn localOffset buf localCount s
    let count := (count + 2 ^ 64 - writeCount) % 2 ^ 64
    let bytesWritten := bytesWritten + writeCount
    let localCount := if count > blockSize then blockSize else count % 2 ^ 32
    let lbn := (lbn + 1) % 2 ^ 32
    if lbn ≤ lbnEnd then writeLoop v buf lbnEnd fuel lbn 0 localCount count bytesWritten s
    else some (bytesWritten, s)

/-- nvm_durable_write for an offset of at least 0; the fuel bounds the number of
blocks the loop may write. -/
def nvmDurableWrite (fuel : Nat) (vid offset : Nat) (buf : Nat → UInt8) (count : Nat)
    (s : State C N) : Option (Nat × State C N) := do
  let (v, s) ← getVolumeEntryIdx vid s
  let lbnStart := offset / blockSize % 2 ^ 32
  let lbnEnd := (offset + count + 2 ^ 64 - 1) % 2 ^ 64 / blockSize % 2 ^ 32
  let localOffset := offset % blockSize
  writeLoop v buf lbnEnd fuel lbnStart localOffset (blockSize - localOffset) count 0 s

end BurstBuffer.Source
