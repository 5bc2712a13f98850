import BurstBuffer.Source.Flush

/-!
# Sync and balloon

nvm_sync of nvm0sync.cc and fill_free_inodes of nvm0balloon.cc.
-/
namespace BurstBuffer.Source

variable {C : CuckoohashMap} {N : Nat}

/-- The body of the loop of nvm_sync. -/
def syncOne (index : Fin defaultNumSyncer) (s : State C N) : Option (State C N) := do
  let (idx, queue) ← (s.inodeSyncLfqueue index).dequeue
  let s := { s with inodeSyncLfqueue := Function.update s.inodeSyncLfqueue index queue }
  let s := s.setInode idx { s.inodeTable idx with state := .clean }
  let k := roundRobin defaultNumBalloon s.cleanQueueIdx
  let queue ← (s.inodeCleanLfqueue k).enqueue idx
  let s := { s with
    cleanQueueIdx := s.cleanQueueIdx + 1
    inodeCleanLfqueue := Function.update s.inodeCleanLfqueue k queue }
  some (unlockInode idx s)

def syncLoop (index : Fin defaultNumSyncer) : Nat → State C N → Option (State C N)
  | 0, s => some s
  | n + 1, s => do
    let s ← syncOne index s
    syncLoop index n s

/-- nvm_sync: the number of rounds is sampled before `sync()`. -/
def nvmSync (index : Fin defaultNumSyncer) (s : State C N) : Option (State C N) :=
  syncLoop index (s.inodeSyncLfqueue index).getSize s

/-- try_lock_hash_node: whether the node is locked now, and the state after. -/
def tryLockHashNode (node : NodePtr) (s : State C N) : Option (Bool × State C N) :=
  match lockHashNode node s with
  | none => some (false, s)
  | some s => do
    let inode ← (s.hashNodes node).inode
    if (s.inodeTable inode).state ≠ .clean then some (false, unlockHashNode node s)
    else some (true, s)

/-- The stores of fill_free_inodes that make an inode FREE. -/
def releaseInode (idx : InodeIdx N) (s : State C N) : Option (State C N) := do
  let s := s.setInode idx { s.inodeTable idx with state := .free }
  let k := roundRobin defaultNumFree s.freeEnqueueIdx
  let queue ← (s.inodeFreeLfqueue k).enqueue idx
  some { s with
    inodeFreeCount := s.inodeFreeCount + 1
    freeEnqueueIdx := s.freeEnqueueIdx + 1
    inodeFreeLfqueue := Function.update s.inodeFreeLfqueue k queue }

/-- One pass of the loop of fill_free_inodes, taken when the clean queue is not empty. -/
def fillFreeInodesPass (index : Fin defaultNumBalloon) (s : State C N) : Option (State C N) := do
  let (idx, queue) ← (s.inodeCleanLfqueue index).dequeue
  let s := { s with inodeCleanLfqueue := Function.update s.inodeCleanLfqueue index queue }
  if (s.inodeTable idx).state ≠ .clean then some s
  else
    let v ← (s.inodeTable idx).volume
    let table ← (s.volumeTable v).hashTable
    let node ← searchHashNode table (s.inodeTable idx).lbn
    let (locked, s) ← tryLockHashNode node s
    if !locked then some s
    else
      let s ← logicalDeleteHashNode v node s
      let s ← releaseInode idx s
      some (unlockHashNode node s)

end BurstBuffer.Source
