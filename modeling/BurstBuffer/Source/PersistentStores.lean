import BurstBuffer.Source.Write

/-!
# The persistent stores of a block step

The stores into NVM that a block step makes, in program order:
getFreeInodeFromFreeLFQueue for an inode it takes, nvm_durable_write for the
state, writeDataToNvmBlock for the rest. Hash nodes, queues and counters are in
the heap and do not outlive the process, and a new start clears the locks.
-/
namespace BurstBuffer.Source

variable {C : CuckoohashMap} {N : Nat}

inductive Store (N : Nat) where
  | lbn (inode : InodeIdx N) (lbn : Nat)
  | volume (inode : InodeIdx N) (v : VolumeIdx)
  | dirty (inode : InodeIdx N)
  | block (index : BlockIdx N) (ptr : Nat → UInt8) (count : Nat)
  | volumeBlock (v : VolumeIdx) (index : BlockIdx N)
  | inodeBlock (inode : InodeIdx N) (index : BlockIdx N)

def persist (s : State C N) : Store N → State C N
  | .lbn i lbn => s.setInode i { s.inodeTable i with lbn := lbn }
  | .volume i v => s.setInode i { s.inodeTable i with volume := some v }
  | .dirty i => s.setInode i { s.inodeTable i with state := .dirty }
  | .block index ptr count =>
    { s with
      blockTable := Function.update s.blockTable index (memcpy (s.blockTable index) ptr count) }
  | .volumeBlock v index => s.setVolume v { s.volumeTable v with blockIndex := index }
  | .inodeBlock i index => s.setInode i { s.inodeTable i with blockIndex := index }

/-- The stores of a block step on inode `i`, `taken` if it came from a free queue. -/
def blockStores (taken : Bool) (i : InodeIdx N) (v : VolumeIdx) (lbn : Nat) (ptr : Nat → UInt8)
    (count : Nat) (s : State C N) : List (Store N) :=
  let ownerlessBlockIndex := (s.volumeTable v).blockIndex
  let stores := [.dirty i, .block ownerlessBlockIndex ptr count,
    .volumeBlock v (s.inodeTable i).blockIndex, .inodeBlock i ownerlessBlockIndex]
  if taken then .lbn i lbn :: .volume i v :: stores else stores

/-- NVM after the first `k` of a list of stores. -/
def persisted (stores : List (Store N)) (k : Nat) (s : State C N) : State C N :=
  (stores.take k).foldl persist s

/-- The stores of any block step whose hash node points to inode `i`: the swap is
that of the inode with the computed index, and of this inode's volume. -/
def stepStores (taken : Bool) (i : InodeIdx N) (v : VolumeIdx) (lbn : Nat) (ptr : Nat → UInt8)
    (count : Nat) (s : State C N) : Option (List (Store N)) :=
  let key : List (Store N) := if taken then [.lbn i lbn, .volume i v] else []
  let idx := inodeIdxOfPointer i
  ((persisted key key.length s).inodeTable idx).volume.map fun w =>
    let ownerlessBlockIndex := (s.volumeTable w).blockIndex
    key ++ [.dirty i, .block ownerlessBlockIndex ptr count,
      .volumeBlock w (s.inodeTable idx).blockIndex, .inodeBlock idx ownerlessBlockIndex]

end BurstBuffer.Source
