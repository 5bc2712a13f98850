import BurstBuffer.Guarantees.CrashRecovery
import BurstBuffer.Invariants.StoredBlocks

/-!
# The system is a store of blocks

Over any run of opens, block steps, background operations, restarts and crashes, the volumes
keep what the block steps wrote, if recovery finds the files. It does where they are in its
working directory and the block numbers are below `2^18`.
-/
namespace BurstBuffer.Guarantees

open Library Source

variable {C : CuckoohashMap} {N : Nat} {cwd : String} {limit : Nat}

/-- The block steps find their inodes, the crashes leave what recovery can put back. -/
def SafeStep (cwd : String) (s : State C N) : CrashEvent → Prop
  | .operation e => NarrowStep s e
  | .crash => RecoversBlocks cwd s

/-- Each step of the system is a step of the abstract store, or none. -/
theorem crashing_refines {s t : State C N} {e : CrashEvent} (low : limit ≤ 2 ^ 32 - 1)
    (ok : SystemOk limit s) (safe : SafeStep cwd s e) (step : crashingNext cwd limit s e = some t) :
    StoresBy s (blockWrites s e) t ∧ SystemOk limit t := by
  cases e with
  | crash => exact crash_storesBy ok safe step
  | operation e =>
    have moved : next cwd limit s e = some t := step
    refine ⟨?_, ok.next safe moved⟩
    cases e with
    | openVolume vid =>
      obtain ⟨⟨v, u⟩, got, rfl⟩ := Option.map_eq_some_iff.mp step
      rcases getVolumeEntryIdx_cases got with ⟨rfl, _⟩ | opened
      · exact .of_same fun _ _ => rfl
      · exact opened.storesBy ok
    | writeBlock v lbn localOffset buf localCount =>
      obtain ⟨i, effect⟩ := ok.written_of_next safe moved
      exact effect.storesBy ok
    | flush v =>
      exact (ok.cycle.nvmFlush step).2.storesBy ok low (nvmFlush_openFiles step)
    | sync index => exact (ok.cycle.nvmSync step).2.storesBy ok low (nvmSync_openFiles step)
    | balloon index =>
      exact (ok.cycle.fillFreeInodesPass step).2.storesBy ok low
        (fillFreeInodesPass_openFiles ok.cycle step)
    | restart => exact restart_storesBy ok low step

/-- Files in place recover all blocks below `2^18`. -/
theorem recoversBlocks_in_place {s : State C N} (ok : SystemOk limit s) (low : limit ≤ 2 ^ 18)
    (placed : FilesInPlace cwd s) : RecoversBlocks cwd s := by
  intro v table lbn
  have image : visibleImage s v lbn = some (storedBlock s ((s.volumeTable v).vid, lbn)) :=
    visibleImage_eq_stored ok.volumes table
  rw [replayed, if_pos (placed v table)]
  cases last : lastReplayed s v lbn with
  | some i =>
    rw [visibleImage, bound_of_replays ok low (lastReplayed_eq_some.mp last).1] at image
    exact (Option.some.inj image).symm
  | none =>
    have written : ∀ i, validInode s v lbn = some i → OnFile s i :=
      fun i bound => onFile_of_skipped ok low bound (lastReplayed_eq_none.mp last i)
    rw [(image_eq_file_iff ok table lbn).mpr written, Option.some.injEq] at image
    exact image.symm

/-- At first all blocks are those of the files. -/
theorem storedBlock_init {s : State C N} (start : (system C N cwd limit).init s) (vid lbn : Nat) :
    storedBlock s (vid, lbn) = readBlock blockSize (s.files (getFilename vid)) lbn := by
  obtain ⟨memory, started⟩ := start
  obtain ⟨t, started', fresh⟩ := nvmSystemInit_spec
    (recoveryStart_of_written cwd (s := nvmStructureBuild memory) fun _ => rfl)
  cases started.symm.trans started'
  have files : s.files = (nvmStructureBuild memory).files := by rw [fresh.frame]
  rw [fresh.storedBlock, files]

/-- A crash happens where recovery finds the files. -/
def PlacedStep (cwd : String) (s : State C N) : CrashEvent → Prop
  | .operation _ => True
  | .crash => FilesInPlace cwd s

theorem PlacedStep.safe {s : State C N} {e : CrashEvent} (placed : PlacedStep cwd s e)
    (small : N ≤ 2 ^ 26) (ok : SystemOk limit s) (low : limit ≤ 2 ^ 18) : SafeStep cwd s e := by
  cases e with
  | operation e => exact narrowStep_of_le small s e
  | crash => exact recoversBlocks_in_place ok low placed

/-- In every run whose crashes find the files in place, the writes are what a store of blocks
has seen: each block starts as the last write to it says, in NVM or in the file of its volume,
and blocks that were not written are those of the files at first. The open volumes show
these blocks, and a close puts all of them into the files. -/
theorem blocks_as_written (C : CuckoohashMap) (N : Nat) (cwd : String) (limit : Nat)
    (small : N ≤ 2 ^ 26) (low : limit ≤ 2 ^ 18) (s t : State C N)
    (l : List (BlockWrite (Nat × Nat) UInt8)) (start : (crashingSystem C N cwd limit).init s)
    (run : (crashingSystem C N cwd limit).ShowsBy (PlacedStep cwd) blockWrites s l t) :
    (∀ vid lbn, AsWritten l (vid, lbn)
      (readBlock blockSize (s.files (getFilename vid)) lbn) (storedBlock t (vid, lbn))) ∧
    (∀ v lbn, (t.volumeTable v).hashTable.isSome →
      visibleImage t v lbn = some (storedBlock t ((t.volumeTable v).vid, lbn))) ∧
    ∃ u, nvmSystemClose t = some u ∧ ∀ vid lbn,
      readBlock blockSize (u.files (getFilename vid)) lbn = storedBlock t (vid, lbn) := by
  have initial : (system C N cwd limit).init s := start
  obtain ⟨_, shown, rfl, ok⟩ := run.simulates
    (R := fun x blocks => blocks = storedBlock x ∧ SystemOk limit x)
    (by
      rintro x _ e y ⟨rfl, before⟩ placed step
      obtain ⟨stores, after⟩ :=
        crashing_refines (by omega) before (placed.safe small before low) step
      exact ⟨_, stores, rfl, after⟩)
    ⟨rfl, SystemOk.init initial⟩
  refine ⟨fun vid lbn => ?_, fun v lbn table => visibleImage_eq_stored ok.volumes table,
    close_files ok (by omega)⟩
  rw [← storedBlock_init initial]
  exact asWritten_of_shows shown (vid, lbn)

/-- A small run in the directory of volume `0`: its block `0` is written once. -/
theorem zero_block_run : ∃ r s t : State functionMap 128,
    (system functionMap 128 "/opt/nvm2/NVM" (2 ^ 18)).init r ∧
      next "/opt/nvm2/NVM" (2 ^ 18) r (.openVolume 0) = some s ∧
      (s.volumeTable zeroVolume).vid = 0 ∧
      NarrowStep s (.writeBlock zeroVolume 0 0 (fun _ => 0) blockSize) ∧
      next "/opt/nvm2/NVM" (2 ^ 18) s (.writeBlock zeroVolume 0 0 (fun _ => 0) blockSize) =
        some t ∧
      SystemOk (2 ^ 18) t ∧ FilesInPlace "/opt/nvm2/NVM" t ∧
      visibleImage t zeroVolume 0 = some (fun _ => 0) := by
  obtain ⟨r, initial, fresh⟩ :=
    system_starts (C := functionMap) (2 ^ 18) "/opt/nvm2/NVM" (blankMemory 128)
  obtain ⟨s, found, filled⟩ := Filled.start (2 ^ 18) fresh rfl rfl (built_layout _)
  obtain ⟨t, step, narrow, after⟩ :=
    filled.step (by decide) (by decide) (by decide) "/opt/nvm2/NVM"
  have first : next "/opt/nvm2/NVM" (2 ^ 18) r (.openVolume 0) = some s := by simp [next, found]
  have guard : InPlaceStep "/opt/nvm2/NVM" r (.openVolume 0) :=
    ⟨trivial, by rintro _ ⟨⟩; rfl⟩
  have guard' : InPlaceStep "/opt/nvm2/NVM" s
      (.writeBlock zeroVolume 0 0 (fun _ => 0) blockSize) := ⟨narrow, by rintro _ ⟨⟩⟩
  obtain ⟨ok, placed⟩ := filesInPlace_of_reachable (.step (.step (.init initial) guard first)
    guard' step)
  have vid : (s.volumeTable zeroVolume).vid = 0 := by
    rcases getVolumeEntryIdx_cases found with ⟨rfl, same⟩ | opened
    · exact same
    · rw [opened.table, Function.update_self]
  exact ⟨r, s, t, initial, first, vid, narrow, step, ok, placed, after.first (by decide)⟩

/-- Block `0` of volume `0`, written once, after a crash in the directory of its file. -/
theorem blocks_as_written_crash : ∃ s t : State functionMap 128,
    visibleImage s zeroVolume 0 = some (fun _ => 0) ∧
      nvmSystemInit "/opt/nvm2/NVM" s = some t ∧ storedBlock t (0, 0) = fun _ => 0 := by
  obtain ⟨r, s, t, initial, first, vid, _, step, ok, placed, shown⟩ := zero_block_run
  obtain ⟨q, recovered⟩ := recoveryStart_returns "/opt/nvm2/NVM" ok.cycle
  obtain ⟨u, started, _⟩ := nvmSystemInit_spec recovered
  have opens : (crashingSystem functionMap 128 "/opt/nvm2/NVM" (2 ^ 18)).ShowsBy
      (PlacedStep "/opt/nvm2/NVM") blockWrites r [] s :=
    .single (e := CrashEvent.operation (.openVolume 0)) trivial first
  have writes : (crashingSystem functionMap 128 "/opt/nvm2/NVM" (2 ^ 18)).ShowsBy
      (PlacedStep "/opt/nvm2/NVM") blockWrites s
      [⟨((s.volumeTable zeroVolume).vid, 0), fun _ => 0, blockSize⟩] t :=
    .single (e := CrashEvent.operation (.writeBlock zeroVolume 0 0 (fun _ => 0) blockSize))
      trivial step
  have crashes : (crashingSystem functionMap 128 "/opt/nvm2/NVM" (2 ^ 18)).ShowsBy
      (PlacedStep "/opt/nvm2/NVM") blockWrites t [] u :=
    .single (e := CrashEvent.crash) placed started
  obtain ⟨written, _⟩ := blocks_as_written functionMap 128 "/opt/nvm2/NVM" (2 ^ 18) (by decide)
    (Nat.le_refl _) r u _ initial ((opens.trans writes).trans crashes)
  refine ⟨t, u, shown, started, ?_⟩
  have block := written 0 0
  simp only [AsWritten, vid, List.append_nil, List.nil_append, lastWrite] at block
  exact funext fun k => block k k.isLt

end BurstBuffer.Guarantees
