import BurstBuffer.Source.Write

/-!
# Flushing dirty inodes

nvm_flush of nvm0flush.cc with TEMP_FIX undefined, `pwritev` writing the whole
request. `get_filesize` is called there for a value nothing uses; its `stat` succeeds.
-/
namespace BurstBuffer.Source

open Library

variable {C : CuckoohashMap} {N : Nat}

/-- `int num_dirty_inodes = get_size() - 1`, of an unsigned 32-bit size. -/
def numDirtyInodesOf (size : Nat) : Int :=
  let x : Nat := (size + (2 ^ 32 - 1)) % 2 ^ 32
  if x < 2 ^ 31 then (x : Int) else x - 2 ^ 32

theorem numDirtyInodesOf_lt (size : Nat) : numDirtyInodesOf size < size := by
  unfold numDirtyInodesOf
  dsimp only
  split <;> omega

/-- `write_size` before the first loop. -/
def writeSizeOf (numDirtyInodes : Int) : Int :=
  if numDirtyInodes ≥ flushBatchSize then flushBatchSize else numDirtyInodes

theorem writeSizeOf_le (numDirtyInodes : Int) :
    writeSizeOf numDirtyInodes ≤ flushBatchSize ∧ writeSizeOf numDirtyInodes ≤ numDirtyInodes := by
  unfold writeSizeOf
  split <;> omega

/-- The loop that dequeues from the dirty queue and locks. `iIdxs` is
`i_idxs[0 .. i)`; the result is `i_idxs` with the final `write_size`. -/
def collectDirty (v : VolumeIdx) :
    Nat → List (InodeIdx N) → (numDirtyInodes writeSize : Int) → State C N →
      Option (List (InodeIdx N) × Int × State C N)
  | 0, _, _, _, _ => none
  | fuel + 1, iIdxs, numDirtyInodes, writeSize, s =>
    if iIdxs.length < writeSize then do
      let (idx, queue) ← (s.inodeDirtyLfqueue v).dequeue
      let s := { s with inodeDirtyLfqueue := Function.update s.inodeDirtyLfqueue v queue }
      match lockInode idx s with
      | some s => collectDirty v fuel (iIdxs ++ [idx]) numDirtyInodes writeSize s
      | none =>
        let queue ← (s.inodeDirtyLfqueue v).enqueue idx
        let s := { s with inodeDirtyLfqueue := Function.update s.inodeDirtyLfqueue v queue }
        let numDirtyInodes := numDirtyInodes - 1
        collectDirty v fuel iIdxs numDirtyInodes
          (if numDirtyInodes < flushBatchSize then writeSize - 1 else writeSize) s
    else some (iIdxs, writeSize, s)

/-- The look-ahead: how many of the following entries continue the run after `currLbn`. -/
def lookAhead (lbn : InodeIdx N → Nat) (currLbn : Nat) : List (InodeIdx N) → Nat
  | [] => 0
  | idx :: rest =>
    let succLbn := lbn idx
    if succLbn = (currLbn + 1) % 2 ^ 32 then lookAhead lbn succLbn rest + 1 else 0

/-- `pwritev` of the blocks of a batch, from the position of its first inode on. -/
def pwritevBatch (start : InodeIdx N) (batch : List (InodeIdx N)) (s : State C N) :
    Option (State C N) := do
  let v ← (s.inodeTable start).volume
  let file ← (s.volumeTable v).fd
  let offset := blockSize * (s.inodeTable start).lbn
  some (s.setFile file (writeRun (s.files file) offset (batch.map s.blockOf)))

/-- One inode handed from dirty to sync. -/
def handOff (idx : InodeIdx N) (s : State C N) : Option (State C N) := do
  let s := { s with inodeDirtyCount := s.inodeDirtyCount - 1 }
  let s := s.setInode idx { s.inodeTable idx with state := .sync }
  let k := roundRobin defaultNumSyncer s.syncQueueIdx
  let queue ← (s.inodeSyncLfqueue k).enqueue idx
  some { s with
    syncQueueIdx := s.syncQueueIdx + 1
    inodeSyncLfqueue := Function.update s.inodeSyncLfqueue k queue }

/-- The loop over the batches of `i_idxs[indexToWrite .. write_size)`. -/
def writeBatches : Nat → List (InodeIdx N) → State C N → Option (State C N)
  | _, [], s => some s
  | 0, _ :: _, _ => none
  | fuel + 1, start :: rest, s => do
    let batchCount := lookAhead (fun i => (s.inodeTable i).lbn) (s.inodeTable start).lbn rest + 1
    let batch := (start :: rest).take batchCount
    let s ← pwritevBatch start batch s
    let s ← batch.foldlM (fun s idx => handOff idx s) s
    writeBatches fuel ((start :: rest).drop batchCount) s

/-- nvm_flush -/
def nvmFlush (v : VolumeIdx) (s : State C N) : Option (State C N) := do
  let numDirtyInodes := numDirtyInodesOf (s.inodeDirtyLfqueue v).getSize
  let writeSize := writeSizeOf numDirtyInodes
  let fuel := (s.inodeDirtyLfqueue v).getSize + 1
  let (iIdxs, writeSize, s) ← collectDirty v fuel [] numDirtyInodes writeSize s
  writeBatches iIdxs.length (iIdxs.take writeSize.toNat) s

section Trylocks

variable {α : Type} {capacity : Nat}

/-- The variables of the first loop alone, with the whole array `i_idxs` and the
values dequeued so far. -/
structure CollectVars (α : Type) (capacity : Nat) where
  queue : LfQueue α capacity
  i : Nat
  iIdxs : Fin flushBatchSize → Option α
  numDirtyInodes : Int
  writeSize : Int
  dequeued : List α

/-- One round of it; a write behind `i_idxs` has no result. -/
def collectRound (locked : Bool) (s : CollectVars α capacity) :
    Option (CollectVars α capacity) := do
  let (idx, queue) ← s.queue.dequeue
  if h : s.i < flushBatchSize then
    let s := { s with
      queue := queue
      iIdxs := Function.update s.iIdxs ⟨s.i, h⟩ (some idx)
      dequeued := s.dequeued ++ [idx] }
    if locked then some { s with i := s.i + 1 }
    else do
      let queue ← s.queue.enqueue idx
      let numDirtyInodes : Int := s.numDirtyInodes - 1
      some { s with
        queue := queue
        numDirtyInodes := numDirtyInodes
        writeSize := if numDirtyInodes < flushBatchSize then s.writeSize - 1 else s.writeSize }
  else none

/-- The loop, given what its trylocks find. -/
def collectLoop (results : List Bool) (s : CollectVars α capacity) :
    Option (CollectVars α capacity) :=
  if s.i < s.writeSize then
    match results with
    | [] => none
    | locked :: results => do
      let s ← collectRound locked s
      collectLoop results s
  else some s

/-- The variables before the loop. -/
def collectStart (queue : LfQueue α capacity) : CollectVars α capacity where
  queue := queue
  i := 0
  iIdxs := fun _ => none
  numDirtyInodes := numDirtyInodesOf queue.getSize
  writeSize := writeSizeOf (numDirtyInodesOf queue.getSize)
  dequeued := []

end Trylocks

end BurstBuffer.Source
