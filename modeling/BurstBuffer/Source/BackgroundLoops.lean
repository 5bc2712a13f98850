import BurstBuffer.Source.System

/-!
# When the background threads work

The tests in the loops of flush_thread_func, sync_thread_func and fill_free_inodes.
-/
namespace BurstBuffer.Source

open Library

variable {C : CuckoohashMap} {N : Nat}

/-- kFlushLwm is a tenth of `max_inode_entry`. -/
def kFlushLwm (N : Nat) : Nat := N / 10

abbrev defaultSyncLwm : Nat := 1

/-- Whether a background thread that comes by takes the operation. -/
def works (s : State C N) : Event → Bool
  | .flush v =>
    kFlushLwm N ≤ s.inodeDirtyCount && s.volumeInuseLfqueue.values.contains v &&
      (s.inodeDirtyLfqueue v).getSize > 1
  | .sync index => (s.inodeSyncLfqueue index).getSize ≥ defaultSyncLwm
  | .balloon index => !(s.inodeCleanLfqueue index).isEmpty
  | _ => false

/-- A step of one of the threads: what a writer asks for, or an operation that a background
thread takes when it comes by. -/
def GuardedStep (s : State C N) : Event → Prop
  | .openVolume _ | .writeBlock .. => True
  | .restart => False
  | e => works s e = true

/-- What a run of the background threads alone can take. -/
def backgroundRun (cwd : String) (limit : Nat) (s : State C N) (es : List Event) :
    Option (State C N) :=
  (system C N cwd limit).runBy (fun s e => works s e = true) s es

end BurstBuffer.Source
