import BurstBuffer.Invariants.Recovery
import BurstBuffer.Invariants.WideIndex

/-!
# Crash and restart

What is in the files after a crash at any point between operations and a new
start. recovery_start opens a name relative to its working directory and seeks
to a 32-bit position, so it depends on the state whether a block survives.
-/
namespace BurstBuffer.Guarantees

open Library Source

variable {C : CuckoohashMap} {N : Nat} {cwd : String}

/-- After a crash in state `s` and a new start, the file of every open volume
holds the image of every block below `2^18` as it was visible before. -/
def SurvivesCrash (cwd : String) (s : State C N) : Prop :=
  ∃ t, nvmSystemInit cwd s = some t ∧ ∀ v, (s.volumeTable v).hashTable.isSome →
    ∀ lbn < 2 ^ 18, visibleImage s v lbn =
      some (readBlock blockSize (t.files (getFilename (s.volumeTable v).vid)) lbn)

/-- Where recovery writes a block, the last DIRTY or SYNC inode of the table that
it writes there holds the visible image; elsewhere the inode of the block, if it
has one, is on file already. -/
def RecoveryCovers (cwd : String) (s : State C N) : Prop :=
  ∀ v, (s.volumeTable v).hashTable.isSome → ∀ lbn < 2 ^ 18,
    match replayed cwd s v lbn with
    | some i => visibleImage s v lbn = some (s.blockOf i)
    | none => ∀ i, validInode s v lbn = some i → OnFile s i

section Recovery

variable {limit : Nat} {s : State C N}

theorem image_eq_file_iff (ok : SystemOk limit s) {v : VolumeIdx}
    (table : (s.volumeTable v).hashTable.isSome) (lbn : Nat) :
    visibleImage s v lbn =
        some (readBlock blockSize (s.files (getFilename (s.volumeTable v).vid)) lbn) ↔
      ∀ i, validInode s v lbn = some i → OnFile s i := by
  have opened := ok.volumes.opened v table
  cases bound : validInode s v lbn with
  | none =>
    rw [visibleImage, bound, opened]
    simp
  | some i =>
    obtain ⟨_, owner, key⟩ := ((ok.cycle.inode i).bound v lbn).mp bound
    constructor
    · intro image j same w file home named
      cases same
      cases owner.symm.trans home
      cases opened.symm.trans named
      rw [visibleImage, bound] at image
      rw [key]
      exact (Option.some.inj image).symm
    · exact fun written => visibleImage_of_onFile bound owner key (written i rfl) opened

theorem survivesCrash_iff (ok : SystemOk limit s) :
    SurvivesCrash cwd s ↔ RecoveryCovers cwd s := by
  obtain ⟨r, recovered⟩ := recoveryStart_returns cwd ok.cycle
  obtain ⟨t, started, fresh⟩ := nvmSystemInit_spec recovered
  have files : t.files = r.files := by rw [fresh.frame]
  have blocks : ∀ v, (s.volumeTable v).hashTable.isSome → ∀ lbn, (visibleImage s v lbn =
        some (readBlock blockSize (t.files (getFilename (s.volumeTable v).vid)) lbn) ↔
      match replayed cwd s v lbn with
      | some i => visibleImage s v lbn = some (s.blockOf i)
      | none => ∀ i, validInode s v lbn = some i → OnFile s i) := by
    intro v table lbn
    rw [files, recoveryStart_read ok.volumes table recovered]
    cases replayed cwd s v lbn with
    | some i => exact Iff.rfl
    | none => exact image_eq_file_iff ok table lbn
  constructor
  · rintro ⟨t', started', images⟩ v table lbn low
    cases started.symm.trans started'
    exact (blocks v table lbn).mp (images v table lbn low)
  · intro covers
    exact ⟨t, started, fun v table lbn low => (blocks v table lbn).mpr (covers v table lbn low)⟩

/-- With all volumes' files in the working directory and all blocks below `2^18`,
recovery covers everything. -/
theorem recoveryCovers_of_matching (ok : SystemOk limit s) (low : limit ≤ 2 ^ 18)
    (matching : ∀ v, (s.volumeTable v).hashTable.isSome →
      recoveryFilename cwd (s.volumeTable v).vid = getFilename (s.volumeTable v).vid) :
    RecoveryCovers cwd s := by
  intro v table lbn _
  rw [replayed, if_pos (matching v table)]
  cases last : lastReplayed s v lbn with
  | some i =>
    rw [visibleImage, bound_of_replays ok low (lastReplayed_eq_some.mp last).1]
  | none =>
    exact fun i bound => onFile_of_skipped ok low bound (lastReplayed_eq_none.mp last i)

end Recovery

/-- A volume is opened only if recovery would find its file. -/
def InPlaceStep (cwd : String) (s : State C N) (e : Event) : Prop :=
  NarrowStep s e ∧ ∀ vid, e = .openVolume vid → recoveryFilename cwd vid = getFilename vid

/-- Recovery finds the files of all open volumes. -/
def FilesInPlace (cwd : String) (s : State C N) : Prop :=
  ∀ v, (s.volumeTable v).hashTable.isSome →
    recoveryFilename cwd (s.volumeTable v).vid = getFilename (s.volumeTable v).vid

theorem FilesInPlace.congr {s t : State C N} (placed : FilesInPlace cwd s)
    (identity : ∀ v, volumeIdentity t v = volumeIdentity s v) : FilesInPlace cwd t := by
  intro v table
  have same := identity v
  simp only [volumeIdentity, Prod.mk.injEq] at same
  rw [same.1]
  exact placed v (same.2.2 ▸ table)

theorem FilesInPlace.next {limit : Nat} {s t : State C N} {e : Event} (ok : SystemOk limit s)
    (placed : FilesInPlace cwd s) (guard : InPlaceStep cwd s e)
    (step : next cwd limit s e = some t) : FilesInPlace cwd t := by
  cases e with
  | openVolume vid =>
    obtain ⟨⟨v, u⟩, got, rfl⟩ := Option.map_eq_some_iff.mp step
    rcases getVolumeEntryIdx_cases got with ⟨rfl, _⟩ | opened
    · exact placed
    · intro w table
      rw [opened.table] at table ⊢
      by_cases here : w = v
      · subst w
        rw [Function.update_self]
        exact guard.2 vid rfl
      · rw [Function.update_of_ne here] at table ⊢
        exact placed w table
  | writeBlock v lbn localOffset buf localCount =>
    simp only [Source.next] at step
    split at step
    · obtain ⟨⟨n, u⟩, wrote, rfl⟩ := Option.map_eq_some_iff.mp step
      obtain ⟨_, i, effect⟩ :=
        writeBlock_spec ok.cycle.nodes (ok.cycle.keyOk v lbn) guard.1 wrote
      exact placed.congr effect.identity
    · cases step
  | flush v => exact placed.congr (ok.cycle.nvmFlush step).2.kept.identity
  | sync index => exact placed.congr (ok.cycle.nvmSync step).2.kept.identity
  | balloon index => exact placed.congr (ok.cycle.fillFreeInodesPass step).2.kept.identity
  | restart =>
    obtain ⟨u, _, _, fresh⟩ := restart_spec step
    intro v table
    rw [fresh.closed] at table
    cases table

/-- Runs on files in place keep them in place. -/
theorem filesInPlace_of_reachable {limit : Nat} {s : State C N}
    (reach : (system C N cwd limit).ReachableBy (InPlaceStep cwd) s) :
    SystemOk limit s ∧ FilesInPlace cwd s := by
  refine reach.invariant (I := fun s => SystemOk limit s ∧ FilesInPlace cwd s) ?_ ?_
  · rintro s ⟨memory, started⟩
    refine ⟨SystemOk.init ⟨memory, started⟩, fun v table => ?_⟩
    obtain ⟨t, started', fresh⟩ := nvmSystemInit_spec
      (recoveryStart_of_written cwd (s := nvmStructureBuild memory) fun _ => rfl)
    cases started.symm.trans started'
    rw [fresh.closed] at table
    cases table
  · rintro s e t ⟨ok, placed⟩ guard step
    exact ⟨ok.next guard.1 step, placed.next ok guard step⟩

/-- In every run, exactly the covered states survive a crash; and all states do in
runs whose files are in place and whose block numbers are below `2^18`. -/
theorem crash_recovery (C : CuckoohashMap) (N : Nat) (cwd : String) :
    (∀ s : State C N, (system C N cwd (2 ^ 32)).ReachableBy NarrowStep s →
      (SurvivesCrash cwd s ↔ RecoveryCovers cwd s)) ∧
    ∀ s : State C N, (system C N cwd (2 ^ 18)).ReachableBy (InPlaceStep cwd) s →
      SurvivesCrash cwd s := by
  constructor
  · exact fun s reach => survivesCrash_iff (SystemOk.of_reachable reach)
  · intro s reach
    obtain ⟨ok, placed⟩ := filesInPlace_of_reachable reach
    exact (survivesCrash_iff ok).mpr (recoveryCovers_of_matching ok (Nat.le_refl _) placed)

/-- Volume `0`, recovered in the directory of its file. -/
theorem crash_recovery_in_place : ∃ s : State functionMap 128,
    visibleImage s zeroVolume 0 = some (fun _ => 0) ∧ SurvivesCrash "/opt/nvm2/NVM" s := by
  obtain ⟨r, initial, fresh⟩ :=
    system_starts (C := functionMap) (2 ^ 18) "/opt/nvm2/NVM" (blankMemory 128)
  obtain ⟨t, found, filled⟩ := Filled.start (2 ^ 18) fresh rfl rfl (built_layout _)
  obtain ⟨s, step, narrow, after⟩ :=
    filled.step (by decide) (by decide) (by decide) "/opt/nvm2/NVM"
  have first : next "/opt/nvm2/NVM" (2 ^ 18) r (.openVolume 0) = some t := by simp [next, found]
  have guard : InPlaceStep "/opt/nvm2/NVM" r (.openVolume 0) :=
    ⟨trivial, by rintro _ ⟨⟩; rfl⟩
  have guard' : InPlaceStep "/opt/nvm2/NVM" t
      (.writeBlock zeroVolume 0 0 (fun _ => 0) blockSize) := ⟨narrow, by rintro _ ⟨⟩⟩
  exact ⟨s, after.first (by decide), (crash_recovery functionMap 128 "/opt/nvm2/NVM").2 s
    (.step (.step (.init initial) guard first) guard' step)⟩

/-- Recovered in the root directory, the file of the volume keeps its old bytes. -/
theorem crash_recovery_elsewhere : ¬ ∀ s : State functionMap 128,
    (system functionMap 128 "/" (2 ^ 32)).Reachable s → SurvivesCrash "/" s := by
  intro survives
  obtain ⟨s, reach, filled⟩ := one_block_run "/" (2 ^ 32) (by decide)
  have ok := filled.ok
  have covers := (survivesCrash_iff ok).mp (survives s reach.reachable) zeroVolume filled.table 0
    (by decide)
  have elsewhere : ∀ vid, recoveryFilename "/" vid ≠ getFilename vid := by
    intro vid same
    have chars := congrArg (fun name => name.toList.take 2) same
    unfold getFilename at chars
    split at chars <;> simp [recoveryFilename] at chars
  rw [replayed, if_neg (elsewhere _)] at covers
  have image := (image_eq_file_iff ok filled.table 0).mpr covers
  rw [filled.first (by decide), filled.files, Option.some.injEq] at image
  have byte : (0 : UInt8) = 2 := congrFun image ⟨0, by decide⟩
  exact absurd byte (by decide)

end BurstBuffer.Guarantees
