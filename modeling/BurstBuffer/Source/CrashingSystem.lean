import BurstBuffer.Library.BlockStore
import BurstBuffer.Source.System

/-!
# The system with crashes

A process may stop between two operations; a new one then calls nvm_system_init on the
tables and files it finds. What a user of the volumes can tell are the blocks written.
-/
namespace BurstBuffer.Source

open Library

variable {C : CuckoohashMap} {N : Nat}

inductive CrashEvent where
  | operation (e : Event)
  | crash

def crashingNext (cwd : String) (limit : Nat) (s : State C N) : CrashEvent → Option (State C N)
  | .operation e => next cwd limit s e
  | .crash => nvmSystemInit cwd s

def crashingSystem (C : CuckoohashMap) (N : Nat) (cwd : String) (limit : Nat) :
    Machine (State C N) CrashEvent where
  init := (system C N cwd limit).init
  next := crashingNext cwd limit

/-- The writes a run shows, to blocks named by vid and block number. -/
def blockWrites (s : State C N) : CrashEvent → List (BlockWrite (Nat × Nat) UInt8)
  | .operation (.writeBlock v lbn _ buf count) => [⟨((s.volumeTable v).vid, lbn), buf, count⟩]
  | _ => []

end BurstBuffer.Source
