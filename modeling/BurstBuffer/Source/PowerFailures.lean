import BurstBuffer.Source.CrashingSystem

/-!
# The system with its disk

What is written to a file is not durable yet, O_DIRECT or not. Any of it may become
durable at any time, and all of it does at a `sync`. A power failure loses the rest, but not
the tables in NVM. `SYNC_OPTION` decides whether nvm_sync calls `sync`; recovery_start and
nvm_system_close always do.
-/
namespace BurstBuffer.Source

open Library

variable {C : CuckoohashMap} {N : Nat}

/-- `core.files` is what reads of the files return, `disk` what is on disk. -/
structure DiskState (C : CuckoohashMap) (N : Nat) where
  core : State C N
  disk : String → File UInt8

/-- Where a recovery loses power: behind `rounds` of its first loop, some of whose bytes
have been written back, or behind `sync` and `rounds` of its second loop. -/
inductive RecoveryStop where
  | writing (rounds : Nat) (written : String → Nat → Bool)
  | settling (rounds : Nat)

inductive DiskEvent where
  | run (e : CrashEvent)
  | writeBack (written : String → Nat → Bool)
  | powerFailure (stops : List RecoveryStop)

/-- The bytes of the files that have been `written` back replace those on disk. -/
def writeBack {κ : Type} (written : κ → Nat → Bool) (cache disk : κ → File UInt8) :
    κ → File UInt8 :=
  fun file p => if written file p then cache file p else disk file p

/-- The disk after a step from `s` to `t`. nvm_sync calls `sync` before its loop; behind
the `sync` of recovery_start a start writes no file any more. -/
def diskAfter (syncOption : Bool) (s t : State C N) (disk : String → File UInt8) :
    CrashEvent → String → File UInt8
  | .operation (.sync _) => if syncOption then s.files else disk
  | .operation .restart | .crash => t.files
  | .operation (.openVolume _) | .operation (.writeBlock _ _ _ _ _) | .operation (.flush _)
  | .operation (.balloon _) => disk

/-- A recovery that loses power, started on the files on disk. -/
def stoppedRecovery (cwd : String) (s : State C N) : RecoveryStop → Option (State C N)
  | .writing rounds written =>
    (((List.finRange N).take rounds).foldlM (recoverBlock cwd) s).map fun t =>
      { s with files := writeBack written t.files s.files }
  | .settling rounds =>
    ((List.finRange N).foldlM (recoverBlock cwd) s).map fun t =>
      ((List.finRange N).take rounds).foldl settleInode t

/-- One step. After a power failure recoveries may lose power again, until one ends. -/
def diskNext (cwd : String) (limit : Nat) (syncOption : Bool) (x : DiskState C N) :
    DiskEvent → Option (DiskState C N)
  | .run e => (crashingNext cwd limit x.core e).map fun t =>
    { core := t, disk := diskAfter syncOption x.core t x.disk e }
  | .writeBack written => some { x with disk := writeBack written x.core.files x.disk }
  | .powerFailure stops => do
    let s ← stops.foldlM (stoppedRecovery cwd) { x.core with files := x.disk }
    let t ← nvmSystemInit cwd s
    some { core := t, disk := t.files }

def diskSystem (C : CuckoohashMap) (N : Nat) (cwd : String) (limit : Nat) (syncOption : Bool) :
    Machine (DiskState C N) DiskEvent where
  init x := (system C N cwd limit).init x.core ∧ x.disk = x.core.files
  next := diskNext cwd limit syncOption

/-- The writes a run shows. -/
def diskWrites (x : DiskState C N) : DiskEvent → List (BlockWrite (Nat × Nat) UInt8)
  | .run e => blockWrites x.core e
  | _ => []

end BurstBuffer.Source
