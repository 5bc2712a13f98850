import BurstBuffer.Source.Calls
import BurstBuffer.Source.PowerFailures

/-!
# Calls with their disk

The steps of Calls, bytes of the files that become durable at any time between them, and what
a power failure at any moment leaves for nvm_system_init: the tables in NVM and the files on
disk.
-/
namespace BurstBuffer.Source

open Library

variable {C : CuckoohashMap} {W : Type} {N S : Nat} [DecidableEq W] [NeZero S]

inductive StorageEvent (W : Type) (S : Nat) where
  | step (e : CallEvent W S)
  | writeBack (written : VolumeIdx → Nat → Bool)

def storageNext (s : CallState C W N S) : StorageEvent W S → Option (CallState C W N S)
  | .step e => callsNext s e
  | .writeBack written => some { s with
      core := { s.core with durable := writeBack written s.core.cache s.core.durable } }

/-- The writes a run shows: that of a call is the step that copies its bytes. -/
def callWrites (s : CallState C W N S) :
    StorageEvent W S → List (BlockWrite (VolumeIdx × Nat) UInt8)
  | .step (.call w _) =>
    match s.call w, s.core.writer w with
    | .inBlock c _, .writeData _ _ => [⟨(c.volume, c.lbn), c.buf, c.localCount⟩]
    | _, _ => []
  | .step (.flusher _) | .step (.syncer _) | .step (.balloon _) | .writeBack _ => []

theorem length_volumes : (List.finRange maxVolumeEntry).length ≤ maxVolumeEntry :=
  Nat.le_of_eq List.length_finRange

/-- What a power failure leaves where volume `v` is open under `vid v`. Of the queues and
counters nvm_system_init reads nothing. -/
def survivors (vid : VolumeIdx → Nat) (s : CallState C W N S) : State C N where
  inodeTable i :=
    { lbn := s.lbn i, state := s.core.state i, volume := s.volume i
      blockIndex := s.core.blockIndex i, lock := s.core.lock i }
  volumeTable v :=
    { vid := vid v, fd := some (getFilename (vid v)), blockIndex := s.core.volumeBlock v
      hashTable := some (s.table v) }
  blockTable := s.core.blockTable
  hashNodes := s.node
  nextNode := s.nextNode
  volumeFreeLfqueue := .new
  volumeInuseLfqueue := ⟨List.finRange maxVolumeEntry, length_volumes⟩
  inodeFreeLfqueue _ := .new
  freeEnqueueIdx := 0
  freeDequeueIdx := 0
  inodeFreeCount := 0
  inodeDirtyLfqueue _ := .new
  inodeDirtyCount := 0
  inodeSyncLfqueue _ := .new
  syncQueueIdx := 0
  inodeCleanLfqueue _ := .new
  cleanQueueIdx := 0
  files name := ((List.finRange maxVolumeEntry).find? fun v => getFilename (vid v) = name).elim
    (fun _ => 0) s.core.durable

end BurstBuffer.Source
