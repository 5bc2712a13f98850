import BurstBuffer.Source.System

/-!
# The free queues

The machine whose steps are the operations on the queues of free inodes: a writer that
takes an inode once isFreeLFQueueEnough holds, and a balloon thread that gives back an
inode that has been taken.
-/
namespace BurstBuffer.Source

open Library

variable {C : CuckoohashMap} {N : Nat}

inductive FreeEvent (N : Nat) where
  | getFreeInode (v : VolumeIdx) (lbn : Nat)
  | releaseInode (idx : InodeIdx N)

/-- One step; the inodes that are taken stand beside the memory. -/
def freeNext (p : State C N × List (InodeIdx N)) :
    FreeEvent N → Option (State C N × List (InodeIdx N))
  | .getFreeInode v lbn =>
    if isFreeLFQueueEnough p.1 then
      (getFreeInodeFromFreeLFQueue v lbn p.1).map fun (idx, s) => (s, idx :: p.2)
    else none
  | .releaseInode idx =>
    if idx ∈ p.2 then (releaseInode idx p.1).map fun s => (s, p.2.erase idx) else none

/-- The operations on the free queues, from what nvm_system_init leaves. -/
def freeQueues (C : CuckoohashMap) (N : Nat) (cwd : String) :
    Machine (State C N × List (InodeIdx N)) (FreeEvent N) where
  init p := (∃ memory, nvmSystemInit cwd memory = some p.1) ∧ p.2 = []
  next := freeNext

end BurstBuffer.Source
