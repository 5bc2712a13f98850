import BurstBuffer.Source.Flush
import BurstBuffer.Source.LfQueueSteps

/-!
# Flush threads and the volumes they take turns with

flush_thread_func and nvm_flush of nvm0flush.cc and alloc_volume_entry_idx of
nvm0volume.cc, one atomic step at a time, on queues that are themselves taken
step by step. What a step depends on outside the volume queues and the dirty
queues is up to its event: who calls what, and whether a trylock finds the inode
locked. The steps of nvm_flush after its first loop only show in
`inode_dirty_count` here.
-/
namespace BurstBuffer.Source

open Library

/-- Where a thread is: outside, in alloc_volume_entry_idx, in the enqueue of
nvm_durable_write, in flush_thread_func with the volume it has dequeued, or in
nvm_flush. `iIdxs` is `i_idxs[0 .. i)`. A thread between the two loads of
get_size or is_empty has read `pCount`. -/
inductive FlushPc (N : Nat) where
  | idle
  | freeIsEmpty
  | freeIsEmptyLoad (pCount : Nat)
  | freeDequeue
  | allocEnqueue (v : VolumeIdx)
  | dirtyEnqueue (v : VolumeIdx) (idx : InodeIdx N)
  | inuseGetSize
  | inuseGetSizeLoad (pCount : Nat)
  | inuseDequeue
  | dirtyGetSize (v : VolumeIdx)
  | dirtyGetSizeLoad (v : VolumeIdx) (pCount : Nat)
  | flushGetSize (v : VolumeIdx)
  | flushGetSizeLoad (v : VolumeIdx) (pCount : Nat)
  | collect (v : VolumeIdx) (iIdxs : List (InodeIdx N)) (numDirtyInodes writeSize : Int)
  | tryLock (v : VolumeIdx) (iIdxs : List (InodeIdx N)) (numDirtyInodes writeSize : Int)
      (idx : InodeIdx N)
  | enqueueAgain (v : VolumeIdx) (iIdxs : List (InodeIdx N)) (numDirtyInodes writeSize : Int)
      (idx : InodeIdx N)
  | handOff (v : VolumeIdx) (rest : List (InodeIdx N))
  | inuseEnqueue (v : VolumeIdx)

structure FlushState (τ : Type) (N : Nat) [NeZero N] where
  free : QueueState τ VolumeIdx maxVolumeEntry
  inuse : QueueState τ VolumeIdx maxVolumeEntry
  dirty : VolumeIdx → QueueState τ (InodeIdx N) N
  dirtyCount : Nat
  pc : τ → FlushPc N

inductive FlushEvent (τ : Type) (N : Nat) where
  | alloc (thread : τ)
  | makeDirty (thread : τ) (v : VolumeIdx) (idx : InodeIdx N)
  | flush (thread : τ)
  | advance (thread : τ) (locked : Bool)

section Calls

variable {τ α : Type} [DecidableEq τ] {capacity : Nat} [NeZero capacity]

/-- The next step of a call of enqueue, and whether the call returns. -/
def callEnqueue (thread : τ) (value : α) (q : QueueState τ α capacity) :
    Option (Bool × QueueState τ α capacity) :=
  match q.pc thread with
  | .idle => (claimProducer thread value q).map fun q => (false, q)
  | .enqueuePublish _ _ => (advance thread q).map fun q => (true, q)
  | _ => (advance thread q).map fun q => (false, q)

/-- The next step of a call of dequeue, and what the call returns if it does. -/
def callDequeue (thread : τ) (q : QueueState τ α capacity) :
    Option (Option α × QueueState τ α capacity) :=
  match q.pc thread with
  | .idle => (claimConsumer thread q).map fun q => (none, q)
  | .dequeueRelease _ value => (advance thread q).map fun q => (some value, q)
  | _ => (advance thread q).map fun q => (none, q)

/-- A whole call of enqueue that does not spin. -/
def enqueueWhole (thread : τ) (q : QueueState τ α capacity) (value : α) :
    Option (QueueState τ α capacity) := do
  let (claimed, q) ← callEnqueue thread value q
  let (found, q) ← callEnqueue thread value q
  let (stored, q) ← callEnqueue thread value q
  let (published, q) ← callEnqueue thread value q
  if !claimed && !found && !stored && published then some q else none

end Calls

/-- get_size of two loads: 32 bits of the difference, `0` if it is negative. -/
def loadedSize (pCount cCount : Nat) : Nat :=
  if pCount ≥ cCount then (pCount - cCount) % 2 ^ 32 else 0

section Steps

variable {τ : Type} [DecidableEq τ] {N : Nat} [NeZero N]

namespace FlushState

def goto (s : FlushState τ N) (thread : τ) (pc : FlushPc N) : FlushState τ N :=
  { s with pc := Function.update s.pc thread pc }

def setDirty (s : FlushState τ N) (v : VolumeIdx) (q : QueueState τ (InodeIdx N) N) :
    FlushState τ N :=
  { s with dirty := Function.update s.dirty v q }

end FlushState

/-- The first step of a call by a thread that is outside. A flush thread goes on
when `inode_dirty_count` is not below kFlushLwm; a writer counts the inode it has
made dirty. -/
def flushCall (thread : τ) (s : FlushState τ N) (e : FlushEvent τ N) :
    Option (FlushState τ N) :=
  match s.pc thread with
  | .idle =>
    match e with
    | .alloc _ => some (s.goto thread .freeIsEmpty)
    | .makeDirty _ v idx =>
      some ({ s with dirtyCount := s.dirtyCount + 1 }.goto thread (.dirtyEnqueue v idx))
    | .flush _ => if s.dirtyCount < N / 10 then none else some (s.goto thread .inuseGetSize)
    | .advance _ _ => none
  | _ => none

/-- The next atomic step of a thread; `locked` is what a trylock finds. -/
def flushAdvance (thread : τ) (locked : Bool) (s : FlushState τ N) : Option (FlushState τ N) :=
  match s.pc thread with
  | .idle => none
  | .freeIsEmpty => some (s.goto thread (.freeIsEmptyLoad s.free.pCount))
  | .freeIsEmptyLoad pCount =>
    if pCount ≤ s.free.cCount then none else some (s.goto thread .freeDequeue)
  | .freeDequeue => do
    let (returned, q) ← callDequeue thread s.free
    let s := { s with free := q }
    match returned with
    | none => some s
    | some v => some (s.goto thread (.allocEnqueue v))
  | .allocEnqueue v => do
    let (returned, q) ← callEnqueue thread v s.inuse
    let s := { s with inuse := q }
    if returned then some (s.goto thread .idle) else some s
  | .dirtyEnqueue v idx => do
    let (returned, q) ← callEnqueue thread idx (s.dirty v)
    let s := s.setDirty v q
    if returned then some (s.goto thread .idle) else some s
  | .inuseGetSize => some (s.goto thread (.inuseGetSizeLoad s.inuse.pCount))
  | .inuseGetSizeLoad pCount =>
    if loadedSize pCount s.inuse.cCount = 0 then some (s.goto thread .idle)
    else some (s.goto thread .inuseDequeue)
  | .inuseDequeue => do
    let (returned, q) ← callDequeue thread s.inuse
    let s := { s with inuse := q }
    match returned with
    | none => some s
    | some v => some (s.goto thread (.dirtyGetSize v))
  | .dirtyGetSize v => some (s.goto thread (.dirtyGetSizeLoad v (s.dirty v).pCount))
  | .dirtyGetSizeLoad v pCount =>
    if loadedSize pCount (s.dirty v).cCount > 1 then some (s.goto thread (.flushGetSize v))
    else some (s.goto thread (.inuseEnqueue v))
  | .flushGetSize v => some (s.goto thread (.flushGetSizeLoad v (s.dirty v).pCount))
  | .flushGetSizeLoad v pCount =>
    let numDirtyInodes := numDirtyInodesOf (loadedSize pCount (s.dirty v).cCount)
    let writeSize := if numDirtyInodes ≥ flushBatchSize then (flushBatchSize : Int)
      else numDirtyInodes
    some (s.goto thread (.collect v [] numDirtyInodes writeSize))
  | .collect v iIdxs numDirtyInodes writeSize =>
    if iIdxs.length < writeSize then do
      let (returned, q) ← callDequeue thread (s.dirty v)
      let s := s.setDirty v q
      match returned with
      | none => some s
      | some idx => some (s.goto thread (.tryLock v iIdxs numDirtyInodes writeSize idx))
    else some (s.goto thread (.handOff v (iIdxs.take writeSize.toNat)))
  | .tryLock v iIdxs numDirtyInodes writeSize idx =>
    if locked then some (s.goto thread (.enqueueAgain v iIdxs numDirtyInodes writeSize idx))
    else some (s.goto thread (.collect v (iIdxs ++ [idx]) numDirtyInodes writeSize))
  | .enqueueAgain v iIdxs numDirtyInodes writeSize idx => do
    let (returned, q) ← callEnqueue thread idx (s.dirty v)
    let s := s.setDirty v q
    let numDirtyInodes := numDirtyInodes - 1
    let writeSize' := if numDirtyInodes < flushBatchSize then writeSize - 1 else writeSize
    if returned then some (s.goto thread (.collect v iIdxs numDirtyInodes writeSize'))
    else some s
  | .handOff v [] => some (s.goto thread (.inuseEnqueue v))
  | .handOff v (_ :: rest) =>
    some ({ s with dirtyCount := s.dirtyCount - 1 }.goto thread (.handOff v rest))
  | .inuseEnqueue v => do
    let (returned, q) ← callEnqueue thread v s.inuse
    let s := { s with inuse := q }
    if returned then some (s.goto thread .idle) else some s

def flushNext (s : FlushState τ N) : FlushEvent τ N → Option (FlushState τ N)
  | .alloc thread => flushCall thread s (.alloc thread)
  | .makeDirty thread v idx => flushCall thread s (.makeDirty thread v idx)
  | .flush thread => flushCall thread s (.flush thread)
  | .advance thread locked => flushAdvance thread locked s

/-- nvm_system_init has put all volume entries into the free queue. -/
structure FlushStart (s : FlushState τ N) : Prop where
  free : ∃ values main, (List.finRange maxVolumeEntry).foldlM (enqueueWhole main)
    (.initial values) = some s.free
  inuse : ∃ values, s.inuse = .initial values
  dirty : ∀ v, ∃ values, s.dirty v = .initial values
  dirtyCount : s.dirtyCount = 0
  idle : ∀ θ, s.pc θ = .idle

def flushMachine (τ : Type) [DecidableEq τ] (N : Nat) [NeZero N] :
    Machine (FlushState τ N) (FlushEvent τ N) where
  init := FlushStart
  next := flushNext

end Steps

end BurstBuffer.Source
