import BurstBuffer.Library.Machine
import BurstBuffer.Source.Sync

/-!
# Building, starting, recovering and closing the system

nvm0nvm.cc, and the machine whose steps are whole operations: the calls of
get_volume_entry_idx, the block steps of nvm_durable_write, nvm_flush, nvm_sync,
the passes of fill_free_inodes, and a close followed by a new start. The threads
that nvm_system_init creates are this machine's events.
-/
namespace BurstBuffer.Source

open Library

variable {C : CuckoohashMap} {N : Nat}

/-- The tables part of nvm_structure_build; everything else in memory is left as it was. -/
def nvmStructureBuild (s : State C N) : State C N :=
  { s with
    inodeTable := fun i =>
      { s.inodeTable i with state := .free, blockIndex := Fin.castAdd maxVolumeEntry i }
    volumeTable := fun v => { s.volumeTable v with blockIndex := Fin.natAdd N v } }

/-- The relative name recovery_start opens, in the working directory of the process. -/
def recoveryFilename (cwd : String) (vid : Nat) : String :=
  cwd ++ "/VOL_" ++ toString vid ++ ".txt"

def isUnwritten (state : InodeState) : Bool := state = .dirty || state = .sync

/-- One round of the first loop of recovery_start. The seek offset is the product
of two 32-bit numbers. -/
def recoverBlock (cwd : String) (s : State C N) (idx : InodeIdx N) : Option (State C N) :=
  let inode := s.inodeTable idx
  if isUnwritten inode.state then do
    let v ← inode.volume
    let name := recoveryFilename cwd (s.volumeTable v).vid
    let offset := blockSize * inode.lbn % 2 ^ 32
    some (s.setFile name (writeAt (s.files name) offset (s.blockTable inode.blockIndex)))
  else some s

/-- One round of the loops that set written inodes to CLEAN. -/
def settleInode (s : State C N) (idx : InodeIdx N) : State C N :=
  if isUnwritten (s.inodeTable idx).state then
    s.setInode idx { s.inodeTable idx with state := .clean }
  else s

def settleInodes (s : State C N) : State C N := (List.finRange N).foldl settleInode s

/-- recovery_start -/
def recoveryStart (cwd : String) (s : State C N) : Option (State C N) := do
  let s ← (List.finRange N).foldlM (recoverBlock cwd) s
  some (settleInodes s)

/-- One round of the volume loop of nvm_system_init. The descriptor and the heap
pointer an earlier process left in the entry denote nothing any more. -/
def initVolume (s : State C N) (v : VolumeIdx) : Option (State C N) := do
  let s := s.setVolume v
    { s.volumeTable v with vid := unusedVid, fd := none, hashTable := none }
  let queue ← s.volumeFreeLfqueue.enqueue v
  some { s with volumeFreeLfqueue := queue }

/-- One round of the loop that fills the free queues. -/
def initInode (s : State C N) (i : InodeIdx N) : Option (State C N) := do
  let s := s.setInode i { s.inodeTable i with state := .free, lock := false }
  let k := roundRobin defaultNumFree i.val
  let queue ← (s.inodeFreeLfqueue k).enqueue i
  some { s with inodeFreeLfqueue := Function.update s.inodeFreeLfqueue k queue }

/-- nvm_system_init -/
def nvmSystemInit (cwd : String) (s : State C N) : Option (State C N) := do
  let s ← recoveryStart cwd s
  let s := { s with volumeFreeLfqueue := .new, volumeInuseLfqueue := .new }
  let s ← (List.finRange maxVolumeEntry).foldlM initVolume s
  let s := { s with
    inodeFreeLfqueue := fun _ => .new
    inodeDirtyLfqueue := fun _ => .new
    inodeDirtyCount := 0
    inodeSyncLfqueue := fun _ => .new
    inodeCleanLfqueue := fun _ => .new
    inodeFreeCount := N }
  let s ← (List.finRange N).foldlM initInode s
  some { s with freeEnqueueIdx := 0, freeDequeueIdx := 0, syncQueueIdx := 0, cleanQueueIdx := 0 }

/-- The body of the flush loop of nvm_system_close. -/
def closeFlushOne (v : VolumeIdx) (s : State C N) : Option (State C N) := do
  let (idx, queue) ← (s.inodeDirtyLfqueue v).dequeue
  let s := { s with inodeDirtyLfqueue := Function.update s.inodeDirtyLfqueue v queue }
  let inode := s.inodeTable idx
  let owner ← inode.volume
  let file ← (s.volumeTable owner).fd
  some (s.setFile file
    (writeAt (s.files file) (blockSize * inode.lbn) (s.blockTable inode.blockIndex)))

def closeFlushLoop (v : VolumeIdx) : Nat → State C N → Option (State C N)
  | 0, s => some s
  | n + 1, s => do
    let s ← closeFlushOne v s
    closeFlushLoop v n s

/-- The flush loop of one volume runs until its dirty queue is empty. -/
def closeFlushVolume (s : State C N) (v : VolumeIdx) : Option (State C N) :=
  closeFlushLoop v (s.inodeDirtyLfqueue v).getSize s

/-- The loop that closes the volumes in use and frees their hash tables. -/
def closeVolumes : Nat → State C N → Option (State C N)
  | 0, s => some s
  | n + 1, s => do
    let (v, queue) ← s.volumeInuseLfqueue.dequeue
    let s := { s with volumeInuseLfqueue := queue }
    closeVolumes n (s.setVolume v { s.volumeTable v with fd := none, hashTable := none })

/-- nvm_system_close, once its threads have been joined. -/
def nvmSystemClose (s : State C N) : Option (State C N) := do
  let s ← (List.finRange maxVolumeEntry).foldlM closeFlushVolume s
  let s := settleInodes s
  closeVolumes s.volumeInuseLfqueue.getSize s

inductive Event where
  | openVolume (vid : Nat)
  | writeBlock (v : VolumeIdx) (lbn localOffset : Nat) (buf : Nat → UInt8) (localCount : Nat)
  | flush (v : VolumeIdx)
  | sync (index : Fin defaultNumSyncer)
  | balloon (index : Fin defaultNumBalloon)
  | restart

/-- One operation, on block numbers below `limit`. A block step copies at most
one block. -/
def next (cwd : String) (limit : Nat) (s : State C N) : Event → Option (State C N)
  | .openVolume vid => (getVolumeEntryIdx vid s).map Prod.snd
  | .writeBlock v lbn localOffset buf localCount =>
    if lbn < limit ∧ localCount ≤ blockSize then
      (writeBlock v lbn localOffset buf localCount s).map Prod.snd
    else none
  | .flush v => nvmFlush v s
  | .sync index => nvmSync index s
  | .balloon index => fillFreeInodesPass index s
  | .restart => (nvmSystemClose s).bind (nvmSystemInit cwd)

/-- Runs start on freshly built tables in otherwise arbitrary memory, with any files. -/
def system (C : CuckoohashMap) (N : Nat) (cwd : String) (limit : Nat) :
    Machine (State C N) Event where
  init s := ∃ memory, nvmSystemInit cwd (nvmStructureBuild memory) = some s
  next := next cwd limit

end BurstBuffer.Source
