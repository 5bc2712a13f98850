import BurstBuffer.Invariants.Ownership

/-!
# Invariants of whole runs

`SystemOk` holds in every state of a run whose block steps find the inode they
hold under the index they compute for it (`NarrowStep`).
-/
namespace BurstBuffer.Source

open Library

variable {C : CuckoohashMap} {N : Nat} {limit : Nat}

structure SystemOk (limit : Nat) (s : State C N) : Prop where
  cycle : LifeCycle s []
  volumes : VolumesOk s
  keys : ∀ v lbn i, validInode s v lbn = some i → lbn < limit
  owned : Function.Bijective (owners s)
  settled : limit ≤ 2 ^ 32 - 1 → Settled s

/-- The inode of a block step starts less than `2^32` bytes into the inode table. -/
def NarrowStep (s : State C N) : Event → Prop
  | .writeBlock v lbn _ _ _ => ∀ i, blockInode s v lbn = some i → i.val < 2 ^ 26
  | _ => True

theorem narrowStep_of_le (small : N ≤ 2 ^ 26) (s : State C N) (e : Event) : NarrowStep s e := by
  cases e with
  | writeBlock v lbn localOffset buf localCount =>
    exact fun i _ => Nat.lt_of_lt_of_le i.isLt small
  | openVolume | flush | sync | balloon | restart => trivial

namespace SystemOk

variable {s t : State C N}

theorem lowKeys (ok : SystemOk limit s) (low : limit ≤ 2 ^ 32 - 1) : LowKeys s :=
  fun v lbn i bound => Nat.lt_of_lt_of_le (ok.keys v lbn i bound) low

theorem background (ok : SystemOk limit s) (cycle : LifeCycle t []) (step : Background s t) :
    SystemOk limit t where
  cycle := cycle
  volumes := step.kept.volumesOk ok.volumes
  keys v lbn i bound := ok.keys v lbn i (step.bound v lbn i bound)
  owned := step.kept.owners ▸ ok.owned
  settled low := (step.images (ok.lowKeys low) ok.volumes.filesOk (ok.settled low)).1

theorem opened (ok : SystemOk limit s) {vid : Nat} {v : VolumeIdx} (step : Opened s t vid v) :
    SystemOk limit t where
  cycle := step.lifeCycle ok.volumes ok.cycle
  volumes := step.volumesOk ok.volumes
  keys w lbn i bound := by
    rw [(step.nodes ok.volumes ok.cycle.nodes).2] at bound
    exact ok.keys w lbn i bound
  owned := step.owners ▸ ok.owned
  settled low := step.settled ok.volumes ok.cycle (ok.settled low)

theorem found (ok : SystemOk limit s) {vid : Nat} {v : VolumeIdx}
    (got : getVolumeEntryIdx vid s = some (v, t)) : SystemOk limit t := by
  rcases getVolumeEntryIdx_cases got with ⟨rfl, _⟩ | opened
  · exact ok
  · exact ok.opened opened

theorem written (ok : SystemOk limit s) {v : VolumeIdx} {lbn count : Nat} {buf : Nat → UInt8}
    {i : InodeIdx N} (inside : lbn < limit) (step : BlockWritten s t v lbn buf count i) :
    SystemOk limit t where
  cycle := ok.cycle.writeBlock step
  volumes := ok.volumes.congr step.identity (by rw [step.frame]) (by rw [step.frame])
  keys w l j bound := by
    rw [step.bound] at bound
    split at bound
    · rename_i key
      exact key.2 ▸ inside
    · exact ok.keys w l j bound
  owned := step.owners_bijective ok.owned
  settled low := step.settled ok.owned (ok.settled low)

theorem fresh {r : State C N} (fresh : Fresh r t) (owned : Function.Bijective (owners r)) :
    SystemOk limit t where
  cycle := fresh.lifeCycle
  volumes := fresh.volumesOk
  keys v lbn i bound := by
    rw [fresh.validInode] at bound
    cases bound
  owned := fresh.owners ▸ owned
  settled _ := fresh.settled

/-- Every step out of a good state leads to a good state. -/
theorem next {cwd : String} {e : Event} (ok : SystemOk limit s) (narrow : NarrowStep s e)
    (step : next cwd limit s e = some t) : SystemOk limit t := by
  cases e with
  | openVolume vid =>
    obtain ⟨⟨v, u⟩, got, rfl⟩ := Option.map_eq_some_iff.mp step
    exact ok.found got
  | writeBlock v lbn localOffset buf localCount =>
    simp only [Source.next] at step
    split at step
    · rename_i guard
      obtain ⟨⟨n, u⟩, wrote, rfl⟩ := Option.map_eq_some_iff.mp step
      obtain ⟨_, i, effect⟩ := writeBlock_spec ok.cycle.nodes (ok.cycle.keyOk v lbn) narrow wrote
      exact ok.written guard.1 effect
    · cases step
  | flush v =>
    obtain ⟨cycle, effect⟩ := ok.cycle.nvmFlush step
    exact ok.background cycle effect
  | sync index =>
    obtain ⟨cycle, effect⟩ := ok.cycle.nvmSync step
    exact ok.background cycle effect
  | balloon index =>
    obtain ⟨cycle, effect⟩ := ok.cycle.fillFreeInodesPass step
    exact ok.background cycle effect
  | restart =>
    obtain ⟨u, _, closed, fresh⟩ := restart_spec step
    exact SystemOk.fresh fresh (closed.owners ▸ ok.owned)

theorem init {cwd : String} (initial : (system C N cwd limit).init s) : SystemOk limit s := by
  obtain ⟨memory, started⟩ := initial
  obtain ⟨t, started', fresh⟩ := nvmSystemInit_spec
    (recoveryStart_of_written cwd (s := nvmStructureBuild memory) fun _ => rfl)
  cases started.symm.trans started'
  exact SystemOk.fresh fresh (built_owners memory)

/-- The invariant of every run whose block steps are narrow. -/
theorem of_reachable {cwd : String} (reach : (system C N cwd limit).ReachableBy NarrowStep s) :
    SystemOk limit s :=
  reach.invariant (fun _ => SystemOk.init) fun _ _ _ ok narrow step => ok.next narrow step

end SystemOk

/-- The system can start, on any memory. -/
theorem system_starts (limit : Nat) (cwd : String) (memory : State C N) :
    ∃ s, (system C N cwd limit).init s ∧ Fresh (nvmStructureBuild memory) s := by
  obtain ⟨s, started, fresh⟩ := nvmSystemInit_spec
    (recoveryStart_of_written cwd (s := nvmStructureBuild memory) fun _ => rfl)
  exact ⟨s, ⟨memory, started⟩, fresh⟩

end BurstBuffer.Source
