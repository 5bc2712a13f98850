import BurstBuffer.Source.HashTable
import BurstBuffer.Source.Threads

/-!
# Block writes and balloon threads, one atomic step at a time

get_hash_node_with_lock with the round of the block loop that calls it, and
fill_free_inodes, next to the flush and sync threads of Threads. A call searches,
takes an inode and publishes its node before it locks anything. Three groups of
accesses are one step each: the two stores of the key of a free inode; the last test
of the node found and the validation or insertion behind it; writeDataToNvmBlock, as
in Threads. `hash_node->inode` is read once for a round, after the node has been
locked. `core` is what the steps of Threads work on; its `mutex` stays unused, the
mutexes are those of the hash nodes.
-/
namespace BurstBuffer.Source

open Library

/-- One round of the block loop of nvm_durable_write. -/
structure Call where
  volume : VolumeIdx
  lbn : Nat
  buf : Nat → UInt8
  localCount : Nat

/-- Where a call is: what it does next. `found` is what the search found; `fresh`
tells the lock of the node that the call has published from that of a valid node.
A call in its block is where `core.writer` says. -/
inductive CallPc (N : Nat) where
  | idle
  | search (c : Call)
  | isValid (c : Call) (found : Option NodePtr)
  | isEnough (c : Call) (found : Option NodePtr)
  | nextFree (c : Call) (found : Option NodePtr)
  | dequeue (c : Call) (found : Option NodePtr) (queue : Fin defaultNumFree)
  | storeKey (c : Call) (found : Option NodePtr) (idx : InodeIdx N)
  | uncount (c : Call) (found : Option NodePtr) (idx : InodeIdx N)
  | publish (c : Call) (found : Option NodePtr) (idx : InodeIdx N)
  | lockNode (c : Call) (node : NodePtr) (fresh : Bool)
  | recheck (c : Call) (node : NodePtr)
  | release (c : Call) (node : NodePtr)
  | readInode (c : Call) (node : NodePtr)
  | inBlock (c : Call) (node : NodePtr)

/-- Where a balloon thread is with the inode it has dequeued from its clean queue. -/
inductive BalloonPc (N : Nat) where
  | idle
  | test (idx : InodeIdx N)
  | search (idx : InodeIdx N)
  | tryLock (idx : InodeIdx N) (node : NodePtr)
  | retest (idx : InodeIdx N) (node : NodePtr)
  | giveUp (node : NodePtr)
  | delete (idx : InodeIdx N) (node : NodePtr)
  | storeFree (idx : InodeIdx N) (node : NodePtr)
  | count (idx : InodeIdx N) (node : NodePtr)
  | nextQueue (idx : InodeIdx N) (node : NodePtr)
  | enqueue (idx : InodeIdx N) (node : NodePtr) (queue : Fin defaultNumFree)
  | unlock (node : NodePtr)

structure CallState (C : CuckoohashMap) (W : Type) (N S : Nat) where
  core : ThreadState W N S
  lbn : InodeIdx N → Nat
  volume : InodeIdx N → Option VolumeIdx
  table : VolumeIdx → HashTable C
  node : NodePtr → HashNode N
  nextNode : NodePtr
  freeQueue : Fin defaultNumFree → LfQueue (InodeIdx N) N
  freeEnqueueIdx : Nat
  freeDequeueIdx : Nat
  freeCount : Nat
  call : W → CallPc N
  balloon : Fin defaultNumBalloon → BalloonPc N

section Blocks

variable {W : Type} {N S : Nat} [DecidableEq W] [NeZero S]

/-- For the steps of Threads that only ask which volume they work on: every inode
is taken for a block of it. -/
def blocksOf (N : Nat) (v : VolumeIdx) : Assignment N where
  volume _ := v
  lbn i := i.val
  distinct _ _ _ same := Fin.ext same

/-- A step of writer `w` in its block, from the lock of the inode to its unlock,
with `inode->volume` as it is when the data is written. -/
def blockNext (volume : InodeIdx N → Option VolumeIdx) (v : VolumeIdx) (w : W)
    (s : ThreadState W N S) : Option (ThreadState W N S) :=
  match s.writer w with
  | .idle | .lockNode _ | .unlockNode _ => none
  | .writeData r oldState =>
    let idx := inodeIdxOfPointer r.inode
    (volume idx).map fun u =>
      (writeThreadData (blocksOf N u) idx r.buf r.localCount s).toWriter w (.countDirty r oldState)
  | .lockInode r | .readState r | .storeDirty r _ | .countDirty r _ | .enqueue r
  | .unlockInode r => writerNext (blocksOf N v) w r s

/-- A step of the flusher of volume `v`, with the block numbers and the volume of
the inodes as they are when the batch is written. -/
def drainNext (lbn : InodeIdx N → Nat) (volume : InodeIdx N → Option VolumeIdx) (v : VolumeIdx)
    (s : ThreadState W N S) : Option (ThreadState W N S) :=
  match s.flusher v with
  | .write (start :: rest) =>
    let batchCount := lookAhead lbn (lbn start) rest + 1
    let batch := (start :: rest).take batchCount
    (volume start).map fun u =>
      { s with
        cache := Function.update s.cache u
          (writeRun (s.cache u) (blockSize * lbn start) (batch.map s.blockOf)) }.toFlusher v
        (.handOff batch ((start :: rest).drop batchCount))
  | _ => flusherNext (blocksOf N v) v s

end Blocks

variable {C : CuckoohashMap} {W : Type} {N S : Nat} [DecidableEq W] [NeZero S]

namespace CallState

/-- search_hash_node in the table of volume `v` -/
def nodeAt (s : CallState C W N S) (v : VolumeIdx) (lbn : Nat) : Option NodePtr :=
  searchHashNode (s.table v) lbn

/-- isValidNode -/
def isValidNode (s : CallState C W N S) : Option NodePtr → Bool
  | none => false
  | some p => (s.node p).isValid

def toCall (s : CallState C W N S) (w : W) (pc : CallPc N) : CallState C W N S :=
  { s with call := Function.update s.call w pc }

omit [NeZero S] in
@[simp]
theorem toCall_self (s : CallState C W N S) (w : W) (pc : CallPc N) :
    (s.toCall w pc).call w = pc := by
  simp only [toCall, Function.update_self]

omit [NeZero S] in
theorem toCall_other (s : CallState C W N S) {w x : W} (other : x ≠ w) (pc : CallPc N) :
    (s.toCall w pc).call x = s.call x := by
  simp only [toCall, Function.update_of_ne other]

def toBalloon (s : CallState C W N S) (b : Fin defaultNumBalloon) (pc : BalloonPc N) :
    CallState C W N S :=
  { s with balloon := Function.update s.balloon b pc }

omit [DecidableEq W] [NeZero S] in
@[simp]
theorem toBalloon_self (s : CallState C W N S) (b : Fin defaultNumBalloon) (pc : BalloonPc N) :
    (s.toBalloon b pc).balloon b = pc := by
  simp only [toBalloon, Function.update_self]

omit [DecidableEq W] [NeZero S] in
theorem toBalloon_other (s : CallState C W N S) {b c : Fin defaultNumBalloon} (other : c ≠ b)
    (pc : BalloonPc N) : (s.toBalloon b pc).balloon c = s.balloon c := by
  simp only [toBalloon, Function.update_of_ne other]

def setMutex (s : CallState C W N S) (p : NodePtr) (locked : Bool) : CallState C W N S :=
  { s with node := Function.update s.node p { s.node p with mutex := locked } }

/-- new_hash_node and insert_hash_node into the table of volume `v` -/
def insertNode (s : CallState C W N S) (v : VolumeIdx) (idx : InodeIdx N) : CallState C W N S :=
  { s with
    node := Function.update s.node s.nextNode
      { inode := some idx, lbn := s.lbn idx, isValid := true, mutex := false, prev := none,
        next := none }
    nextNode := s.nextNode + 1
    table := Function.update s.table v
      { s.table v with map := C.store (s.table v).map (s.lbn idx) s.nextNode } }

/-- validate_hash_node -/
def validateNode (s : CallState C W N S) (p : NodePtr) (idx : InodeIdx N) : CallState C W N S :=
  { s with
    node := Function.update s.node p
      { s.node p with inode := some idx, lbn := s.lbn idx, isValid := true } }

/-- logical_delete_hash_node in the table of volume `v` -/
def deleteNode (s : CallState C W N S) (v : VolumeIdx) (p : NodePtr) : CallState C W N S :=
  let node := Function.update s.node p { s.node p with inode := none, isValid := false }
  let (node, list) := pushBackListNode node (s.table v).invalidList p
  { s with
    node := node
    table := Function.update s.table v { s.table v with invalidList := list } }

end CallState

/-- One step of the call of thread `w`; `c` is the block it goes on with when it is idle. -/
def callNext (w : W) (c : Call) (s : CallState C W N S) : Option (CallState C W N S) :=
  match s.call w with
  | .idle => if c.localCount ≤ blockSize then some (s.toCall w (.search c)) else none
  | .search c => some (s.toCall w (.isValid c (s.nodeAt c.volume c.lbn)))
  | .isValid c found =>
    match found with
    | some p =>
      if s.isValidNode (some p) then some (s.toCall w (.lockNode c p false))
      else some (s.toCall w (.isEnough c (some p)))
    | none => some (s.toCall w (.isEnough c none))
  | .isEnough c found =>
    if s.freeCount ≥ defaultFreeMinCount then some (s.toCall w (.nextFree c found))
    else some (s.toCall w (.search c))
  | .nextFree c found =>
    some ({ s with freeDequeueIdx := s.freeDequeueIdx + 1 }.toCall w
      (.dequeue c found (roundRobin defaultNumFree s.freeDequeueIdx)))
  | .dequeue c found k =>
    (s.freeQueue k).dequeue.map fun (idx, queue) =>
      { s with freeQueue := Function.update s.freeQueue k queue }.toCall w (.storeKey c found idx)
  | .storeKey c found idx =>
    some ({ s with
      lbn := Function.update s.lbn idx c.lbn
      volume := Function.update s.volume idx (some c.volume) }.toCall w (.uncount c found idx))
  | .uncount c found idx =>
    some ({ s with freeCount := s.freeCount - 1 }.toCall w (.publish c found idx))
  | .publish c found idx =>
    match found with
    | none => some ((s.insertNode c.volume idx).toCall w (.lockNode c s.nextNode true))
    | some p =>
      if s.isValidNode (some p) then some (s.toCall w (.lockNode c p true))
      else some ((s.validateNode p idx).toCall w (.lockNode c p true))
  | .lockNode c p fresh =>
    if (s.node p).mutex then none
    else some ((s.setMutex p true).toCall w (if fresh then .readInode c p else .recheck c p))
  | .recheck c p =>
    some (s.toCall w (if s.isValidNode (some p) then .readInode c p else .release c p))
  | .release c p => some ((s.setMutex p false).toCall w (.search c))
  | .readInode c p =>
    (s.node p).inode.map fun inode =>
      { s with core := s.core.toWriter w (.lockInode ⟨inode, c.buf, c.localCount⟩) }.toCall w
        (.inBlock c p)
  | .inBlock c p =>
    match s.core.writer w with
    | .unlockNode _ =>
      some (({ s with core := s.core.toWriter w .idle }.setMutex p false).toCall w .idle)
    | _ => (blockNext s.volume c.volume w s.core).map fun core => { s with core := core }

/-- One step of balloon thread `b`. A search that finds nothing, and a read through
a null inode pointer, have no result. -/
def balloonNext (b : Fin defaultNumBalloon) (s : CallState C W N S) :
    Option (CallState C W N S) :=
  match s.balloon b with
  | .idle =>
    (s.core.cleanQueue b).dequeue.map fun (idx, queue) =>
      { s with core := { s.core with
          cleanQueue := Function.update s.core.cleanQueue b queue } }.toBalloon b (.test idx)
  | .test idx =>
    some (s.toBalloon b (if s.core.state idx ≠ .clean then .idle else .search idx))
  | .search idx => do
    let v ← s.volume idx
    let p ← s.nodeAt v (s.lbn idx)
    some (s.toBalloon b (.tryLock idx p))
  | .tryLock idx p =>
    if (s.node p).mutex then some (s.toBalloon b .idle)
    else some ((s.setMutex p true).toBalloon b (.retest idx p))
  | .retest idx p =>
    (s.node p).inode.map fun inode =>
      s.toBalloon b (if s.core.state inode ≠ .clean then .giveUp p else .delete idx p)
  | .giveUp p => some ((s.setMutex p false).toBalloon b .idle)
  | .delete idx p =>
    (s.volume idx).map fun v => (s.deleteNode v p).toBalloon b (.storeFree idx p)
  | .storeFree idx p =>
    some ({ s with core := { s.core with
      state := Function.update s.core.state idx .free } }.toBalloon b (.count idx p))
  | .count idx p => some ({ s with freeCount := s.freeCount + 1 }.toBalloon b (.nextQueue idx p))
  | .nextQueue idx p =>
    some ({ s with freeEnqueueIdx := s.freeEnqueueIdx + 1 }.toBalloon b
      (.enqueue idx p (roundRobin defaultNumFree s.freeEnqueueIdx)))
  | .enqueue idx p k =>
    ((s.freeQueue k).enqueue idx).map fun queue =>
      { s with freeQueue := Function.update s.freeQueue k queue }.toBalloon b (.unlock p)
  | .unlock p => some ((s.setMutex p false).toBalloon b .idle)

inductive CallEvent (W : Type) (S : Nat) where
  | call (w : W) (c : Call)
  | flusher (v : VolumeIdx)
  | syncer (k : Fin S)
  | balloon (b : Fin defaultNumBalloon)

def callsNext (s : CallState C W N S) : CallEvent W S → Option (CallState C W N S)
  | .call w c => callNext w c s
  | .flusher v => (drainNext s.lbn s.volume v s.core).map fun core => { s with core := core }
  | .syncer k => (syncerNext k s.core).map fun core => { s with core := core }
  | .balloon b => balloonNext b s

/-- After nvm_system_init: every inode FREE and in a free queue, the hash tables of
the volumes new, no node allocated yet, every thread idle. -/
structure CallStart (s : CallState C W N S) : Prop where
  core : ThreadStart s.core
  free : ∀ i, copies (contents s.freeQueue) i = 1
  counts : s.freeCount = N ∧ s.core.dirtyCount = 0
  tables : ∀ v, s.table v = newHashTable
  heap : ∀ p, (s.node p).inode = none ∧ (s.node p).isValid = false ∧ (s.node p).mutex = false
  idle : (∀ w, s.call w = .idle) ∧ ∀ b, s.balloon b = .idle

def calls (C : CuckoohashMap) (W : Type) (N S : Nat) [DecidableEq W] [NeZero S] :
    Machine (CallState C W N S) (CallEvent W S) where
  init := CallStart
  next := callsNext

/-- With the free queues as nvm_system_init fills them, in turn. -/
structure DealtStart (s : CallState C W N S) : Prop where
  start : CallStart s
  queues : ∀ k, (s.freeQueue k).values =
    (List.finRange N).filter fun i => i.val % defaultNumFree = k.val
  counters : s.freeEnqueueIdx = 0 ∧ s.freeDequeueIdx = 0

def dealtCalls (C : CuckoohashMap) (W : Type) (N S : Nat) [DecidableEq W] [NeZero S] :
    Machine (CallState C W N S) (CallEvent W S) where
  init := DealtStart
  next := callsNext

end BurstBuffer.Source
