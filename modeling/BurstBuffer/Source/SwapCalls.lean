import BurstBuffer.Source.CallCrashes

/-!
# Calls that swap blocks one memory access at a time

The calls with their disk, but writeDataToNvmBlock cut into its read of
`volume->block_index`, its memcpy, which copies any number of bytes in a step, and its two
stores of block indices. Steps of other threads and power failures come between any two.
-/
namespace BurstBuffer.Source

open Library

/-- Where a call is in writeDataToNvmBlock once it has read the index of the ownerless
block: the memcpy has `copied` bytes into it. -/
inductive Access (N : Nat) where
  | copy (ownerless : BlockIdx N) (copied : Nat)
  | storeVolume (ownerless : BlockIdx N)
  | storeInode (ownerless : BlockIdx N)

structure SwapCallState (C : CuckoohashMap) (W : Type) (N S : Nat) where
  calls : CallState C W N S
  access : W → Option (Access N)

/-- A step; `bytes` is how many bytes a memcpy copies in it. -/
structure SwapCallEvent (W : Type) (S : Nat) where
  event : StorageEvent W S
  bytes : Nat

variable {C : CuckoohashMap} {W : Type} {N S : Nat}

/-- The request of a call that is in writeDataToNvmBlock, and the old state of its inode. -/
def CallState.swapping (s : CallState C W N S) (w : W) : Option (Call × Request N × InodeState) :=
  match s.call w, s.core.writer w with
  | .inBlock c _, .writeData r oldState => some (c, r, oldState)
  | _, _ => none

variable [DecidableEq W]

/-- The next memory access of writeDataToNvmBlock. -/
def accessNext (volume : InodeIdx N → Option VolumeIdx) (w : W) (r : Request N)
    (oldState : InodeState) (bytes : Nat) (s : ThreadState W N S) :
    Option (Access N) → Option (ThreadState W N S × Option (Access N))
  | none => (volume (inodeIdxOfPointer r.inode)).map fun v =>
    (s, some (.copy (s.volumeBlock v) 0))
  | some (.copy ownerless copied) =>
    let copied := min (copied + bytes) r.localCount
    some ({ s with
      blockTable := Function.update s.blockTable ownerless
        (memcpy (s.blockTable ownerless) r.buf copied) },
      some (if copied < r.localCount then .copy ownerless copied else .storeVolume ownerless))
  | some (.storeVolume ownerless) => (volume (inodeIdxOfPointer r.inode)).map fun v =>
    ({ s with
      volumeBlock := Function.update s.volumeBlock v (s.blockIndex (inodeIdxOfPointer r.inode)) },
      some (.storeInode ownerless))
  | some (.storeInode ownerless) =>
    some ({ s with
      blockIndex := Function.update s.blockIndex (inodeIdxOfPointer r.inode) ownerless }.toWriter w
        (.countDirty r oldState), none)

variable [NeZero S]

def swapCallsNext (s : SwapCallState C W N S) (e : SwapCallEvent W S) :
    Option (SwapCallState C W N S) :=
  match e.event with
  | .step (.call w request) =>
    match s.calls.swapping w with
    | some (_, r, oldState) =>
      (accessNext s.calls.volume w r oldState e.bytes s.calls.core (s.access w)).map
        fun (core, access) =>
          { calls := { s.calls with core := core }
            access := Function.update s.access w access }
    | none => (callNext w request s.calls).map fun calls => { s with calls := calls }
  | event => (storageNext s.calls event).map fun calls => { s with calls := calls }

def swapCalls (C : CuckoohashMap) (W : Type) (N S : Nat) [DecidableEq W] [NeZero S] :
    Machine (SwapCallState C W N S) (SwapCallEvent W S) where
  init s := (CallStart s.calls ∧ s.calls.core.durable = s.calls.core.cache) ∧
    ∀ w, s.access w = none
  next := swapCallsNext

omit [DecidableEq W] [NeZero S] in
/-- The writes a run shows: that of a call is its store of the inode's block index. -/
def swapWrites (s : SwapCallState C W N S) (e : SwapCallEvent W S) :
    List (BlockWrite (VolumeIdx × Nat) UInt8) :=
  match e.event with
  | .step (.call w _) =>
    match s.calls.swapping w, s.access w with
    | some (c, _, _), some (.storeInode _) => [⟨(c.volume, c.lbn), c.buf, c.localCount⟩]
    | _, _ => []
  | .step (.flusher _) | .step (.syncer _) | .step (.balloon _) | .writeBack _ => []

end BurstBuffer.Source
