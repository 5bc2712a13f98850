import BurstBuffer.Library.Machine
import BurstBuffer.Source.Volume

/-!
# Looking up a volume entry, step by step

get_volume_entry_idx and alloc_volume_entry_idx as their comparisons, the dequeue
from the free queue, the stores of `vid`, `fd` and `hash_table`, and the enqueue, for
any set of threads `τ`; `open` succeeds. Where the free queue is empty the code fails
an assertion and there is no step. `returned` records what calls have returned.
-/
namespace BurstBuffer.Source

open Library

/-- Where a call with a `vid` is. -/
inductive ScanPc where
  | idle
  | compare (vid v : Nat)
  | dequeue (vid : Nat)
  | storeVid (vid : Nat) (v : VolumeIdx)
  | storeFd (vid : Nat) (v : VolumeIdx)
  | storeTable (vid : Nat) (v : VolumeIdx)
  | enqueue (vid : Nat) (v : VolumeIdx)

structure ScanState (τ : Type) (C : CuckoohashMap) (N : Nat) where
  volumeTable : VolumeIdx → VolumeEntry C N
  volumeFreeLfqueue : LfQueue VolumeIdx maxVolumeEntry
  volumeInuseLfqueue : LfQueue VolumeIdx maxVolumeEntry
  pc : τ → ScanPc
  returned : List (Nat × VolumeIdx)

inductive ScanEvent (τ : Type) where
  | call (thread : τ) (vid : Nat)
  | advance (thread : τ)

variable {τ : Type} [DecidableEq τ] {C : CuckoohashMap} {N : Nat}

namespace ScanState

def goto (s : ScanState τ C N) (θ : τ) (pc : ScanPc) : ScanState τ C N :=
  { s with pc := Function.update s.pc θ pc }

def setEntry (s : ScanState τ C N) (v : VolumeIdx) (entry : VolumeEntry C N) : ScanState τ C N :=
  { s with volumeTable := Function.update s.volumeTable v entry }

/-- The call of thread `θ` with `vid` returns `v`. -/
def finish (s : ScanState τ C N) (θ : τ) (vid : Nat) (v : VolumeIdx) : ScanState τ C N :=
  { s.goto θ .idle with returned := (vid, v) :: s.returned }

end ScanState

/-- A call of get_volume_entry_idx with a vid other than `2^32 - 1`. -/
def callScan (θ : τ) (vid : Nat) (s : ScanState τ C N) : Option (ScanState τ C N) :=
  match s.pc θ with
  | .idle => if vid < unusedVid then some (s.goto θ (.compare vid 0)) else none
  | _ => none

def advanceScan (θ : τ) (s : ScanState τ C N) : Option (ScanState τ C N) :=
  match s.pc θ with
  | .idle => none
  | .compare vid v =>
    if inside : v < maxVolumeEntry then
      if (s.volumeTable ⟨v, inside⟩).vid = vid then some (s.finish θ vid ⟨v, inside⟩)
      else some (s.goto θ (.compare vid (v + 1)))
    else some (s.goto θ (.dequeue vid))
  | .dequeue vid =>
    s.volumeFreeLfqueue.dequeue.map fun (v, free) =>
      { s with volumeFreeLfqueue := free }.goto θ (.storeVid vid v)
  | .storeVid vid v =>
    some ((s.setEntry v { s.volumeTable v with vid := vid }).goto θ (.storeFd vid v))
  | .storeFd vid v =>
    some ((s.setEntry v { s.volumeTable v with fd := some (getFilename vid) }).goto θ
      (.storeTable vid v))
  | .storeTable vid v =>
    some ((s.setEntry v { s.volumeTable v with hashTable := some newHashTable }).goto θ
      (.enqueue vid v))
  | .enqueue vid v =>
    (s.volumeInuseLfqueue.enqueue v).map fun inuse =>
      { s with volumeInuseLfqueue := inuse }.finish θ vid v

def scanNext (s : ScanState τ C N) : ScanEvent τ → Option (ScanState τ C N)
  | .call θ vid => callScan θ vid s
  | .advance θ => advanceScan θ s

/-- What nvm_system_init leaves: every entry unused and in the free queue. -/
structure ScanStart (s : ScanState τ C N) : Prop where
  unused : ∀ v, (s.volumeTable v).vid = unusedVid
  free : s.volumeFreeLfqueue.values = List.finRange maxVolumeEntry
  inuse : s.volumeInuseLfqueue.values = []
  idle : ∀ θ, s.pc θ = .idle
  returned : s.returned = []

def scans (τ : Type) [DecidableEq τ] (C : CuckoohashMap) (N : Nat) :
    Machine (ScanState τ C N) (ScanEvent τ) where
  init := ScanStart
  next := scanNext

end BurstBuffer.Source
