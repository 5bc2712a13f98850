import BurstBuffer.Library.Machine
import BurstBuffer.Source.Flush

/-!
# Writers, flush threads and sync threads, one atomic step at a time

The block loop of nvm_durable_write, nvm_flush and nvm_sync cut into their atomic
steps, for inodes bound to valid hash nodes that no balloon thread takes away.
Each inode has a node with its mutex; its volume and block number are fixed. A
flush thread owns a volume while it works on it, so there is one flusher per
volume; a sync thread owns its sync queue. writeDataToNvmBlock is one step; BlockSwap
and SwapCalls cut it into its memory accesses. `cache` is what a read of a volume's
file returns, `durable` what of it a power failure leaves: SYNC_OPTION is on.
-/
namespace BurstBuffer.Source

open Library

/-- Inodes bound to distinct keys. -/
structure Assignment (N : Nat) where
  volume : InodeIdx N → VolumeIdx
  lbn : InodeIdx N → Nat
  distinct : ∀ i j, volume i = volume j → lbn i = lbn j → i = j

/-- One round of the block loop: the inode of the hash node, and what is copied. -/
structure Request (N : Nat) where
  inode : InodeIdx N
  buf : Nat → UInt8
  localCount : Nat

/-- Where a writer is: what it does next. -/
inductive WriterPc (N : Nat) where
  | idle
  | lockNode (r : Request N)
  | lockInode (r : Request N)
  | readState (r : Request N)
  | storeDirty (r : Request N) (oldState : InodeState)
  | writeData (r : Request N) (oldState : InodeState)
  | countDirty (r : Request N) (oldState : InodeState)
  | enqueue (r : Request N)
  | unlockInode (r : Request N)
  | unlockNode (r : Request N)

/-- Where the flusher of a volume is. `iIdxs` is `i_idxs[0 .. i)` in the first
loop; later `batch` is what is still to be handed off of the batch written last,
`rest` what is still to be written. -/
inductive FlusherPc (N S : Nat) where
  | idle
  | collect (iIdxs : List (InodeIdx N)) (numDirtyInodes writeSize : Int)
  | tryLock (iIdxs : List (InodeIdx N)) (numDirtyInodes writeSize : Int) (idx : InodeIdx N)
  | enqueueAgain (iIdxs : List (InodeIdx N)) (numDirtyInodes writeSize : Int) (idx : InodeIdx N)
  | write (rest : List (InodeIdx N))
  | handOff (batch rest : List (InodeIdx N))
  | storeSync (idx : InodeIdx N) (batch rest : List (InodeIdx N))
  | nextQueue (idx : InodeIdx N) (batch rest : List (InodeIdx N))
  | enqueue (idx : InodeIdx N) (queue : Fin S) (batch rest : List (InodeIdx N))

/-- Where a sync thread is; `n` is the number of rounds its loop has left. -/
inductive SyncerPc (N : Nat) where
  | idle
  | sync (n : Nat)
  | loop (n : Nat)
  | storeClean (idx : InodeIdx N) (n : Nat)
  | nextQueue (idx : InodeIdx N) (n : Nat)
  | enqueue (idx : InodeIdx N) (queue : Fin defaultNumBalloon) (n : Nat)
  | unlock (idx : InodeIdx N) (n : Nat)

structure ThreadState (W : Type) (N S : Nat) where
  state : InodeIdx N → InodeState
  lock : InodeIdx N → Bool
  mutex : InodeIdx N → Bool
  blockIndex : InodeIdx N → BlockIdx N
  volumeBlock : VolumeIdx → BlockIdx N
  blockTable : BlockIdx N → Block
  dirtyQueue : VolumeIdx → LfQueue (InodeIdx N) N
  dirtyCount : Nat
  syncQueue : Fin S → LfQueue (InodeIdx N) N
  syncQueueIdx : Nat
  cleanQueue : Fin defaultNumBalloon → LfQueue (InodeIdx N) N
  cleanQueueIdx : Nat
  cache : VolumeIdx → File UInt8
  durable : VolumeIdx → File UInt8
  writer : W → WriterPc N
  flusher : VolumeIdx → FlusherPc N S
  syncer : Fin S → SyncerPc N

variable {W : Type} {N S : Nat} [DecidableEq W] [NeZero S]

namespace ThreadState

/-- The bytes of the block an inode owns. -/
def blockOf (s : ThreadState W N S) (i : InodeIdx N) : Block := s.blockTable (s.blockIndex i)

def toWriter (s : ThreadState W N S) (w : W) (pc : WriterPc N) : ThreadState W N S :=
  { s with writer := Function.update s.writer w pc }

omit [NeZero S] in
@[simp]
theorem toWriter_self (s : ThreadState W N S) (w : W) (pc : WriterPc N) :
    (s.toWriter w pc).writer w = pc := by
  simp only [toWriter, Function.update_self]

omit [NeZero S] in
theorem toWriter_other (s : ThreadState W N S) {w x : W} (other : x ≠ w) (pc : WriterPc N) :
    (s.toWriter w pc).writer x = s.writer x := by
  simp only [toWriter, Function.update_of_ne other]

def toFlusher (s : ThreadState W N S) (v : VolumeIdx) (pc : FlusherPc N S) :
    ThreadState W N S :=
  { s with flusher := Function.update s.flusher v pc }

def toSyncer (s : ThreadState W N S) (k : Fin S) (pc : SyncerPc N) : ThreadState W N S :=
  { s with syncer := Function.update s.syncer k pc }

end ThreadState

/-- writeDataToNvmBlock on the inode with index `idx`. -/
def writeThreadData (a : Assignment N) (idx : InodeIdx N) (ptr : Nat → UInt8) (count : Nat)
    (s : ThreadState W N S) : ThreadState W N S :=
  let v := a.volume idx
  let ownerlessBlockIndex := s.volumeBlock v
  { s with
    blockTable := Function.update s.blockTable ownerlessBlockIndex
      (memcpy (s.blockTable ownerlessBlockIndex) ptr count)
    volumeBlock := Function.update s.volumeBlock v (s.blockIndex idx)
    blockIndex := Function.update s.blockIndex idx ownerlessBlockIndex }

/-- One step of writer `w`; `request` is the block it goes on with when it is idle. -/
def writerNext (a : Assignment N) (w : W) (request : Request N) (s : ThreadState W N S) :
    Option (ThreadState W N S) :=
  match s.writer w with
  | .idle =>
    if request.localCount ≤ blockSize then some (s.toWriter w (.lockNode request)) else none
  | .lockNode r =>
    if s.mutex r.inode then none
    else some ({ s with mutex := Function.update s.mutex r.inode true }.toWriter w (.lockInode r))
  | .lockInode r =>
    if s.lock r.inode then none
    else some ({ s with lock := Function.update s.lock r.inode true }.toWriter w (.readState r))
  | .readState r => some (s.toWriter w (.storeDirty r (s.state r.inode)))
  | .storeDirty r oldState =>
    some ({ s with state := Function.update s.state r.inode .dirty }.toWriter w
      (.writeData r oldState))
  | .writeData r oldState =>
    some ((writeThreadData a (inodeIdxOfPointer r.inode) r.buf r.localCount s).toWriter w
      (.countDirty r oldState))
  | .countDirty r oldState =>
    if oldState ≠ .dirty then
      some ({ s with dirtyCount := s.dirtyCount + 1 }.toWriter w (.enqueue r))
    else some (s.toWriter w (.unlockInode r))
  | .enqueue r =>
    let v := a.volume r.inode
    ((s.dirtyQueue v).enqueue (inodeIdxOfPointer r.inode)).map fun queue =>
      { s with dirtyQueue := Function.update s.dirtyQueue v queue }.toWriter w (.unlockInode r)
  | .unlockInode r =>
    some ({ s with lock := Function.update s.lock r.inode false }.toWriter w (.unlockNode r))
  | .unlockNode r =>
    some ({ s with mutex := Function.update s.mutex r.inode false }.toWriter w .idle)

/-- `pwritev` of a batch of volume `v`. -/
def pwritevThread (a : Assignment N) (v : VolumeIdx) (start : InodeIdx N)
    (batch : List (InodeIdx N)) (s : ThreadState W N S) : ThreadState W N S :=
  { s with
    cache := Function.update s.cache v
      (writeRun (s.cache v) (blockSize * a.lbn start) (batch.map s.blockOf)) }

/-- One step of the flusher of volume `v`. -/
def flusherNext (a : Assignment N) (v : VolumeIdx) (s : ThreadState W N S) :
    Option (ThreadState W N S) :=
  match s.flusher v with
  | .idle =>
    let numDirtyInodes := numDirtyInodesOf (s.dirtyQueue v).getSize
    some (s.toFlusher v (.collect [] numDirtyInodes (writeSizeOf numDirtyInodes)))
  | .collect iIdxs numDirtyInodes writeSize =>
    if iIdxs.length < writeSize then
      (s.dirtyQueue v).dequeue.map fun (idx, queue) =>
        { s with dirtyQueue := Function.update s.dirtyQueue v queue }.toFlusher v
          (.tryLock iIdxs numDirtyInodes writeSize idx)
    else some (s.toFlusher v (.write (iIdxs.take writeSize.toNat)))
  | .tryLock iIdxs numDirtyInodes writeSize idx =>
    if s.lock idx then some (s.toFlusher v (.enqueueAgain iIdxs numDirtyInodes writeSize idx))
    else some ({ s with lock := Function.update s.lock idx true }.toFlusher v
      (.collect (iIdxs ++ [idx]) numDirtyInodes writeSize))
  | .enqueueAgain iIdxs numDirtyInodes writeSize idx =>
    ((s.dirtyQueue v).enqueue idx).map fun queue =>
      let numDirtyInodes := numDirtyInodes - 1
      { s with dirtyQueue := Function.update s.dirtyQueue v queue }.toFlusher v
        (.collect iIdxs numDirtyInodes
          (if numDirtyInodes < flushBatchSize then writeSize - 1 else writeSize))
  | .write [] => some (s.toFlusher v .idle)
  | .write (start :: rest) =>
    let batchCount := lookAhead a.lbn (a.lbn start) rest + 1
    let batch := (start :: rest).take batchCount
    some ((pwritevThread a (a.volume start) start batch s).toFlusher v
      (.handOff batch ((start :: rest).drop batchCount)))
  | .handOff [] rest => some (s.toFlusher v (.write rest))
  | .handOff (idx :: batch) rest =>
    some ({ s with dirtyCount := s.dirtyCount - 1 }.toFlusher v (.storeSync idx batch rest))
  | .storeSync idx batch rest =>
    some ({ s with state := Function.update s.state idx .sync }.toFlusher v
      (.nextQueue idx batch rest))
  | .nextQueue idx batch rest =>
    some ({ s with syncQueueIdx := s.syncQueueIdx + 1 }.toFlusher v
      (.enqueue idx (roundRobin S s.syncQueueIdx) batch rest))
  | .enqueue idx k batch rest =>
    ((s.syncQueue k).enqueue idx).map fun queue =>
      { s with syncQueue := Function.update s.syncQueue k queue }.toFlusher v (.handOff batch rest)

/-- One step of the sync thread of queue `k`. -/
def syncerNext (k : Fin S) (s : ThreadState W N S) : Option (ThreadState W N S) :=
  match s.syncer k with
  | .idle => some (s.toSyncer k (.sync (s.syncQueue k).getSize))
  | .sync n => some ({ s with durable := s.cache }.toSyncer k (.loop n))
  | .loop 0 => some (s.toSyncer k .idle)
  | .loop (n + 1) =>
    (s.syncQueue k).dequeue.map fun (idx, queue) =>
      { s with syncQueue := Function.update s.syncQueue k queue }.toSyncer k (.storeClean idx n)
  | .storeClean idx n =>
    some ({ s with state := Function.update s.state idx .clean }.toSyncer k (.nextQueue idx n))
  | .nextQueue idx n =>
    some ({ s with cleanQueueIdx := s.cleanQueueIdx + 1 }.toSyncer k
      (.enqueue idx (roundRobin defaultNumBalloon s.cleanQueueIdx) n))
  | .enqueue idx c n =>
    ((s.cleanQueue c).enqueue idx).map fun queue =>
      { s with cleanQueue := Function.update s.cleanQueue c queue }.toSyncer k (.unlock idx n)
  | .unlock idx n =>
    some ({ s with lock := Function.update s.lock idx false }.toSyncer k (.loop n))

inductive ThreadEvent (W : Type) (N S : Nat) where
  | writer (w : W) (request : Request N)
  | flusher (v : VolumeIdx)
  | syncer (k : Fin S)

def threadNext (a : Assignment N) (s : ThreadState W N S) :
    ThreadEvent W N S → Option (ThreadState W N S)
  | .writer w request => writerNext a w request s
  | .flusher v => flusherNext a v s
  | .syncer k => syncerNext k s

/-- Before the first write: every thread idle, every inode FREE and unlocked, all
queues empty, every block with one owner, any bytes. -/
structure ThreadStart (s : ThreadState W N S) : Prop where
  free : ∀ i, s.state i = .free
  unlocked : ∀ i, s.lock i = false ∧ s.mutex i = false
  owned : Function.Injective (Sum.elim s.blockIndex s.volumeBlock)
  queues : (∀ v, s.dirtyQueue v = .new) ∧ (∀ k, s.syncQueue k = .new) ∧ ∀ c, s.cleanQueue c = .new
  idle : (∀ w, s.writer w = .idle) ∧ (∀ v, s.flusher v = .idle) ∧ ∀ k, s.syncer k = .idle

def threads (W : Type) (S : Nat) [DecidableEq W] [NeZero S] (a : Assignment N) :
    Machine (ThreadState W N S) (ThreadEvent W N S) where
  init := ThreadStart
  next := threadNext a

end BurstBuffer.Source
