import BurstBuffer.Source.HashTable

/-!
# Volume entries

nvm0volume.cc, built with MULTIPLE_STORAGE_ON, `open` succeeding.
-/
namespace BurstBuffer.Source

variable {C : CuckoohashMap} {N : Nat}

/-- get_filename -/
def getFilename (vid : Nat) : String :=
  if vid % 2 = 1 then "/opt/nvm1/NVM/VOL_" ++ toString vid ++ ".txt"
  else "/opt/nvm2/NVM/VOL_" ++ toString vid ++ ".txt"

/-- alloc_volume_entry_idx: no result when the free queue is empty, where the
code fails an assertion. -/
def allocVolumeEntryIdx (vid : Nat) (s : State C N) : Option (VolumeIdx × State C N) := do
  let (v, free) ← s.volumeFreeLfqueue.dequeue
  let s := { s with volumeFreeLfqueue := free }.setVolume v
    { s.volumeTable v with
      vid := vid, fd := some (getFilename vid), hashTable := some newHashTable }
  let inuse ← s.volumeInuseLfqueue.enqueue v
  some (v, { s with volumeInuseLfqueue := inuse })

/-- get_volume_entry_idx -/
def getVolumeEntryIdx (vid : Nat) (s : State C N) : Option (VolumeIdx × State C N) :=
  match (List.finRange maxVolumeEntry).find? fun v => (s.volumeTable v).vid = vid with
  | some v => some (v, s)
  | none => allocVolumeEntryIdx vid s

end BurstBuffer.Source
