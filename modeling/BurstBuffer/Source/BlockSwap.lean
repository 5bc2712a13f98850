import BurstBuffer.Source.Threads

/-!
# The block swap, one memory access at a time

The block loop of nvm_durable_write on valid hash nodes, with writeDataToNvmBlock
cut into its read of `volume->block_index`, the copy, and the two stores of block
indices. The state of the inode and the dirty queue decide none of these steps and
are left out.
-/
namespace BurstBuffer.Source

open Library

/-- Where a writer is: what it does next. `ownerless` is the block index it has read. -/
inductive SwapPc (N : Nat) where
  | idle
  | lockNode (r : Request N)
  | lockInode (r : Request N)
  | readVolume (r : Request N)
  | copy (r : Request N) (ownerless : BlockIdx N)
  | storeVolume (r : Request N) (ownerless : BlockIdx N)
  | storeInode (r : Request N) (ownerless : BlockIdx N)
  | unlockInode (r : Request N)
  | unlockNode (r : Request N)

structure SwapState (W : Type) (N : Nat) where
  lock : InodeIdx N → Bool
  mutex : InodeIdx N → Bool
  blockIndex : InodeIdx N → BlockIdx N
  volumeBlock : VolumeIdx → BlockIdx N
  blockTable : BlockIdx N → Block
  writer : W → SwapPc N

/-- A step of a writer; `request` is the block it goes on with when it is idle. -/
structure SwapEvent (W : Type) (N : Nat) where
  writer : W
  request : Request N

variable {W : Type} {N : Nat} [DecidableEq W]

namespace SwapState

def goto (s : SwapState W N) (w : W) (pc : SwapPc N) : SwapState W N :=
  { s with writer := Function.update s.writer w pc }

end SwapState

/-- The inode whose block a request swaps. -/
def Request.idx (r : Request N) : InodeIdx N := inodeIdxOfPointer r.inode

def swapNext (a : Assignment N) (s : SwapState W N) (e : SwapEvent W N) : Option (SwapState W N) :=
  let w := e.writer
  match s.writer w with
  | .idle =>
    if e.request.localCount ≤ blockSize then some (s.goto w (.lockNode e.request)) else none
  | .lockNode r =>
    if s.mutex r.inode then none
    else some ({ s with mutex := Function.update s.mutex r.inode true }.goto w (.lockInode r))
  | .lockInode r =>
    if s.lock r.inode then none
    else some ({ s with lock := Function.update s.lock r.inode true }.goto w (.readVolume r))
  | .readVolume r => some (s.goto w (.copy r (s.volumeBlock (a.volume r.idx))))
  | .copy r ownerless =>
    some ({ s with
      blockTable := Function.update s.blockTable ownerless
        (memcpy (s.blockTable ownerless) r.buf r.localCount) }.goto w (.storeVolume r ownerless))
  | .storeVolume r ownerless =>
    some ({ s with
      volumeBlock := Function.update s.volumeBlock (a.volume r.idx) (s.blockIndex r.idx) }.goto w
        (.storeInode r ownerless))
  | .storeInode r ownerless =>
    some ({ s with blockIndex := Function.update s.blockIndex r.idx ownerless }.goto w
      (.unlockInode r))
  | .unlockInode r =>
    some ({ s with lock := Function.update s.lock r.inode false }.goto w (.unlockNode r))
  | .unlockNode r =>
    some ({ s with mutex := Function.update s.mutex r.inode false }.goto w .idle)

/-- Nobody writes, nothing is locked, and each block has at most one owner. -/
structure SwapStart (s : SwapState W N) : Prop where
  unlocked : ∀ i, s.lock i = false ∧ s.mutex i = false
  owned : Function.Injective (Sum.elim s.blockIndex s.volumeBlock)
  idle : ∀ w, s.writer w = .idle

def swaps (W : Type) [DecidableEq W] (a : Assignment N) :
    Machine (SwapState W N) (SwapEvent W N) where
  init := SwapStart
  next := swapNext a

end BurstBuffer.Source
