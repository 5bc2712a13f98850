import BurstBuffer.Guarantees.BlockStore
import BurstBuffer.Guarantees.RecoveryCrash
import BurstBuffer.Invariants.DiskBlocks

/-!
# Power failures

With `SYNC_OPTION` on, the system is a store of blocks even where power failures lose what
has not been written back of its files, during recoveries as well. A power failure is then
the same as a crash of the process.
-/
namespace BurstBuffer.Guarantees

open Library Source

variable {C : CuckoohashMap} {N : Nat} {cwd : String} {limit : Nat}

/-- The disk lacks nothing that recovery does not write. -/
structure DiskOk (limit : Nat) (x : DiskState C N) : Prop where
  system : SystemOk limit x.core
  synced : ∀ name lbn, (∀ i, ¬ UnsyncedAt x.core i name lbn) →
    readBlock blockSize (x.disk name) lbn = readBlock blockSize (x.core.files name) lbn

/-- The block steps find their inodes, and recovery finds the files. -/
def SafeDiskStep (cwd : String) (x : DiskState C N) : DiskEvent → Prop
  | .run (.operation e) => NarrowStep x.core e
  | .writeBack _ => True
  | .run .crash | .powerFailure _ => FilesInPlace cwd x.core

section Recoveries

variable {s t : State C N} {x : DiskState C N}

/-- A recovery that loses power makes no difference to the next one. -/
theorem recoveryStart_of_stopped {stop : RecoveryStop}
    (stopped : stoppedRecovery cwd s stop = some t) :
    recoveryStart cwd t = recoveryStart cwd s := by
  cases stop with
  | writing rounds written =>
    obtain ⟨u, recovered, rfl⟩ := Option.map_eq_some_iff.mp stopped
    obtain ⟨_, frame⟩ := recoverable_of_recovered recovered
    refine recoveryStart_of_interrupted (.lost (bytesOf (writeBack written u.files s.files)) ?_)
    intro place uncovered
    have same : bytesOf u.files place = bytesOf s.files place := by
      rw [frame]
      exact Overwrites.replay_of_uncovered fun i _ => uncovered i
    simp only [bytesOf, writeBack] at same ⊢
    rw [same, ite_self]
  | settling rounds =>
    obtain ⟨u, recovered, rfl⟩ := Option.map_eq_some_iff.mp stopped
    exact recoveryStart_of_interrupted (.settling rounds u recovered)

theorem recoveryStart_of_stops {stops : List RecoveryStop}
    (stopped : stops.foldlM (stoppedRecovery cwd) s = some t) :
    recoveryStart cwd t = recoveryStart cwd s :=
  foldlM_invariant (I := fun _ u => recoveryStart cwd u = recoveryStart cwd s)
    (fun _ _ _ _ before one => (recoveryStart_of_stopped one).trans before) rfl stopped

/-- Where the disk lacks a byte, recovery writes it. -/
theorem covers_of_unsynced (ok : SystemOk limit s) (low : limit ≤ 2 ^ 18)
    (placed : FilesInPlace cwd s) {i : InodeIdx N} {name : String} {p : Nat}
    (unsynced : UnsyncedAt s i name (p / blockSize)) :
    (recoveryWrites cwd s).covers i (name, p) = true := by
  obtain ⟨unwritten, key, v, owner, named⟩ := unsynced
  have used := not_free_of_unwritten unwritten
  have small := ok.keys v _ i (ok.cycle.validInode_self used owner)
  have target : replayTarget cwd s i = some (name, blockSize * (p / blockSize)) := by
    rw [replayTarget, unwritten, owner, if_pos rfl, Option.map_some,
      placed v (ok.cycle.owner_open used owner), named, position_eq, Nat.mod_eq_of_lt (by omega),
      key]
  have inside : blockSize * (p / blockSize) ≤ p ∧ p < blockSize * (p / blockSize) + blockSize := by
    rw [blockSize_eq]
    omega
  simp [recoveryWrites, target, inside]

/-- Recovery on the files on disk is recovery on the files as they were. -/
theorem DiskOk.recoveryStart_eq (ok : DiskOk limit x) (low : limit ≤ 2 ^ 18)
    (placed : FilesInPlace cwd x.core) :
    recoveryStart cwd { x.core with files := x.disk } = recoveryStart cwd x.core := by
  have start : recoveryStart cwd (x.core.withFiles (filesOf (bytesOf x.disk))) =
      recoveryStart cwd x.core := by
    apply recoveryStart_withFiles
    rintro ⟨name, p⟩ uncovered
    have none : ∀ i, ¬ UnsyncedAt x.core i name (p / blockSize) := by
      intro i unsynced
      have covered := covers_of_unsynced ok.system low placed unsynced
      rw [uncovered i] at covered
      cases covered
    have byte := congrFun (ok.synced name _ none) ⟨p % blockSize, Nat.mod_lt p (by decide)⟩
    simpa only [readBlock, readAt, Nat.div_add_mod, bytesOf] using byte
  exact start

theorem stoppedRecovery_returns (cwd : String) (fine : ∀ i, Recoverable s i)
    (stop : RecoveryStop) :
    ∃ t, stoppedRecovery cwd s stop = some t ∧ ∀ i, Recoverable t i := by
  cases stop with
  | writing rounds written =>
    have looped := recoverBlocks_eq cwd (l := (List.finRange N).take rounds) (fun i _ => fine i)
      (bytesOf s.files)
    exact ⟨_, Option.map_eq_some_iff.mpr ⟨_, looped, rfl⟩, fine⟩
  | settling rounds =>
    have looped := recoverBlocks_eq cwd (l := List.finRange N) (fun i _ => fine i)
      (bytesOf s.files)
    refine ⟨_, Option.map_eq_some_iff.mpr ⟨_, looped, rfl⟩, fun i => ?_⟩
    rw [settleInode_foldl_eq ((List.nodup_finRange N).sublist (List.take_sublist rounds _))]
    exact recoverable_settled _ (fine i)

/-- Recoveries can lose power anywhere, and one that does not runs through. -/
theorem stops_return (cwd : String) (fine : ∀ i, Recoverable s i) (stops : List RecoveryStop) :
    ∃ t r, stops.foldlM (stoppedRecovery cwd) s = some t ∧ recoveryStart cwd t = some r := by
  induction stops generalizing s with
  | nil =>
    obtain ⟨r, recovered⟩ := recoveryStart_total cwd fine
    exact ⟨s, r, rfl, recovered⟩
  | cons stop stops ih =>
    obtain ⟨u, stopped, fine'⟩ := stoppedRecovery_returns cwd fine stop
    obtain ⟨t, r, rest, recovered⟩ := ih fine'
    exact ⟨t, r, by rw [List.foldlM_cons, stopped]; exact rest, recovered⟩

theorem powerFailure_returns (cwd : String) (ok : SystemOk limit s) (syncOption : Bool)
    (disk : String → File UInt8) (stops : List RecoveryStop) :
    ∃ y, diskNext cwd limit syncOption ⟨s, disk⟩ (.powerFailure stops) = some y := by
  have fine : ∀ i, Recoverable ({ s with files := disk } : State C N) i := fun i unwritten =>
    (ok.cycle.inode i).owned (not_free_of_unwritten unwritten)
  obtain ⟨t, r, stopped, recovered⟩ := stops_return cwd fine stops
  obtain ⟨u, started, _⟩ := nvmSystemInit_spec recovered
  refine ⟨⟨u, u.files⟩, ?_⟩
  simp only [diskNext, stopped, started, Option.bind_eq_bind, Option.bind_some]

/-- A power failure is a crash. -/
theorem DiskOk.powerFailure_eq (ok : DiskOk limit x) (low : limit ≤ 2 ^ 18)
    (placed : FilesInPlace cwd x.core) (stops : List RecoveryStop) :
    diskNext cwd limit true x (.powerFailure stops) = diskNext cwd limit true x (.run .crash) := by
  obtain ⟨y, failed⟩ := powerFailure_returns cwd ok.system true x.disk stops
  obtain ⟨s, stopped, afterStops⟩ := Option.bind_eq_some_iff.mp failed
  obtain ⟨t, initialized, done⟩ := Option.bind_eq_some_iff.mp afterStops
  have same := (recoveryStart_of_stops stopped).trans (ok.recoveryStart_eq low placed)
  have crashed : crashingNext cwd limit x.core .crash = some t := by
    rw [← initialized, crashingNext, nvmSystemInit, nvmSystemInit, same]
  refine failed.trans ?_
  rw [← done, diskNext, crashed]
  rfl

end Recoveries

section Steps

variable {x y : DiskState C N}

theorem DiskOk.of_keeps {t : State C N} (ok : DiskOk limit x) (after : SystemOk limit t)
    (keeps : KeepsUnsynced x.core t) : DiskOk limit { core := t, disk := x.disk } where
  system := after
  synced name lbn none := by
    rw [keeps.files name lbn none]
    exact ok.synced name lbn fun i before => none i (keeps.unsynced i name lbn before)

theorem DiskOk.of_files {t : State C N} {disk : String → File UInt8} (after : SystemOk limit t)
    (same : disk = t.files) : DiskOk limit { core := t, disk := disk } :=
  ⟨after, fun name lbn _ => by rw [same]⟩

/-- One operation with the disk below it. -/
theorem DiskOk.operation {t : State C N} {e : Event} (low : limit ≤ 2 ^ 18)
    (ok : DiskOk limit x) (narrow : NarrowStep x.core e) (step : next cwd limit x.core e = some t) :
    DiskOk limit { core := t, disk := diskAfter true x.core t x.disk (.operation e) } := by
  have after := ok.system.next narrow step
  cases e with
  | openVolume vid =>
    obtain ⟨⟨v, u⟩, got, rfl⟩ := Option.map_eq_some_iff.mp step
    rcases getVolumeEntryIdx_cases got with ⟨rfl, _⟩ | opened
    · exact ok.of_keeps after (.refl _)
    · exact ok.of_keeps after (opened.unsynced ok.system)
  | writeBlock v lbn localOffset buf localCount =>
    obtain ⟨i, effect⟩ := ok.system.written_of_next narrow step
    exact ok.of_keeps after (effect.unsynced ok.system)
  | flush v => exact ok.of_keeps after (nvmFlush_unsynced ok.system (by omega) step)
  | sync index =>
    -- `sync` has written everything back, and the loop behind it writes no file
    exact .of_files after (nvmSync_same step).2.symm
  | balloon index => exact ok.of_keeps after (fillFreeInodesPass_unsynced ok.system step)
  | restart => exact .of_files after rfl

/-- Each step with the disk is a step of the abstract store, or none. -/
theorem disk_refines {e : DiskEvent} (low : limit ≤ 2 ^ 18) (ok : DiskOk limit x)
    (safe : SafeDiskStep cwd x e) (step : diskNext cwd limit true x e = some y) :
    StoresBy x.core (diskWrites x e) y.core ∧ DiskOk limit y := by
  cases e with
  | run e =>
    obtain ⟨t, moved, rfl⟩ := Option.map_eq_some_iff.mp step
    cases e with
    | operation e =>
      have allowed : SafeStep cwd x.core (.operation e) := safe
      obtain ⟨stores, _⟩ := crashing_refines (by omega) ok.system allowed moved
      exact ⟨stores, ok.operation low safe moved⟩
    | crash =>
      obtain ⟨stores, after⟩ :=
        crash_storesBy ok.system (recoversBlocks_in_place ok.system low safe) moved
      exact ⟨stores, .of_files after rfl⟩
  | writeBack written =>
    cases step
    refine ⟨.refl _, ok.system, fun name lbn none => ?_⟩
    have block := ok.synced name lbn none
    funext i
    have byte := congrFun block i
    simp only [readBlock, readAt, writeBack] at byte ⊢
    rw [byte, ite_self]
  | powerFailure stops =>
    rw [ok.powerFailure_eq low safe stops] at step
    obtain ⟨t, started, rfl⟩ := Option.map_eq_some_iff.mp step
    obtain ⟨stores, after⟩ :=
      crash_storesBy ok.system (recoversBlocks_in_place ok.system low safe) started
    exact ⟨stores, .of_files after rfl⟩

end Steps

/-- A crash or a power failure happens where recovery finds the files. -/
def PlacedDiskStep (cwd : String) (x : DiskState C N) : DiskEvent → Prop
  | .run (.operation _) | .writeBack _ => True
  | .run .crash | .powerFailure _ => FilesInPlace cwd x.core

theorem PlacedDiskStep.safe {x : DiskState C N} {e : DiskEvent} (placed : PlacedDiskStep cwd x e)
    (small : N ≤ 2 ^ 26) : SafeDiskStep cwd x e := by
  cases e with
  | run e =>
    cases e with
    | operation e => exact narrowStep_of_le small x.core e
    | crash => exact placed
  | writeBack written => trivial
  | powerFailure stops => exact placed

/-- In every run with `SYNC_OPTION` on in which recovery finds the files, whatever is written
back when, and however often the power fails, each block starts as the last write to it says;
and blocks that were not written are those on disk at first. A power failure leaves what a
crash leaves. -/
theorem blocks_survive_power_failures (C : CuckoohashMap) (N : Nat) (cwd : String) (limit : Nat)
    (small : N ≤ 2 ^ 26) (low : limit ≤ 2 ^ 18) (x y : DiskState C N)
    (l : List (BlockWrite (Nat × Nat) UInt8)) (start : (diskSystem C N cwd limit true).init x)
    (run : (diskSystem C N cwd limit true).ShowsBy (PlacedDiskStep cwd) diskWrites x l y) :
    (∀ vid lbn, AsWritten l (vid, lbn)
      (readBlock blockSize (x.disk (getFilename vid)) lbn) (storedBlock y.core (vid, lbn))) ∧
    (∀ v lbn, (y.core.volumeTable v).hashTable.isSome →
      visibleImage y.core v lbn = some (storedBlock y.core ((y.core.volumeTable v).vid, lbn))) ∧
    (∃ u, nvmSystemClose y.core = some u ∧ ∀ vid lbn,
      readBlock blockSize (u.files (getFilename vid)) lbn = storedBlock y.core (vid, lbn)) ∧
    (FilesInPlace cwd y.core → ∀ stops, diskNext cwd limit true y (.powerFailure stops) =
      diskNext cwd limit true y (.run .crash)) := by
  obtain ⟨initial, disk⟩ := start
  obtain ⟨_, shown, rfl, ok⟩ := run.simulates
    (R := fun z blocks => blocks = storedBlock z.core ∧ DiskOk limit z)
    (by
      rintro z _ e z' ⟨rfl, before⟩ placed step
      obtain ⟨stores, after⟩ := disk_refines low before (placed.safe small) step
      exact ⟨_, stores, rfl, after⟩)
    ⟨rfl, .of_files (SystemOk.init initial) disk⟩
  refine ⟨fun vid lbn => ?_,
    fun v lbn table => visibleImage_eq_stored ok.system.volumes table,
    close_files ok.system (by omega), fun placed stops => ok.powerFailure_eq low placed stops⟩
  rw [disk, ← storedBlock_init initial]
  exact asWritten_of_shows shown (vid, lbn)

/-- An operation that calls no `sync`, as a run. -/
theorem shows_operation {syncOption : Bool} {guard : DiskState C N → DiskEvent → Prop}
    {disk : String → File UInt8} {s t : State C N} {e : Event}
    (allowed : guard ⟨s, disk⟩ (.run (.operation e))) (step : next cwd limit s e = some t)
    (same : diskAfter syncOption s t disk (.operation e) = disk) :
    (diskSystem C N cwd limit syncOption).ShowsBy guard diskWrites ⟨s, disk⟩
      (blockWrites s (.operation e)) ⟨t, disk⟩ := by
  have moved : (diskSystem C N cwd limit syncOption).next ⟨s, disk⟩ (.run (.operation e)) =
      some ⟨t, disk⟩ := by
    simp only [diskSystem, diskNext, crashingNext, step, Option.map_some, same]
  exact .single (e := DiskEvent.run (.operation e)) allowed moved

/-- A block of volume `0` after a power failure and one more in each loop of recovery. -/
theorem blocks_survive_power_failures_again : ∃ x y : DiskState functionMap 128,
    visibleImage x.core zeroVolume 0 = some (fun _ => 0) ∧
      diskNext "/opt/nvm2/NVM" (2 ^ 18) true x
        (.powerFailure [.writing 1 fun _ _ => true, .settling 1]) = some y ∧
      storedBlock y.core (0, 0) = fun _ => 0 := by
  obtain ⟨r, s, t, initial, first, vid, _, step, ok, placed, shown⟩ := zero_block_run
  obtain ⟨y, failed⟩ := powerFailure_returns "/opt/nvm2/NVM" ok true r.files
    [.writing 1 fun _ _ => true, .settling 1]
  have writes : (diskSystem functionMap 128 "/opt/nvm2/NVM" (2 ^ 18) true).ShowsBy
      (PlacedDiskStep "/opt/nvm2/NVM") diskWrites ⟨r, r.files⟩ _ ⟨t, r.files⟩ :=
    (shows_operation trivial first rfl).trans (shows_operation trivial step rfl)
  have fails : (diskSystem functionMap 128 "/opt/nvm2/NVM" (2 ^ 18) true).ShowsBy
      (PlacedDiskStep "/opt/nvm2/NVM") diskWrites ⟨t, r.files⟩ [] y :=
    .single (e := DiskEvent.powerFailure [.writing 1 fun _ _ => true, .settling 1]) placed failed
  obtain ⟨written, _⟩ := blocks_survive_power_failures functionMap 128 "/opt/nvm2/NVM" (2 ^ 18)
    (by decide) (Nat.le_refl _) ⟨r, r.files⟩ y _ ⟨initial, rfl⟩ (writes.trans fails)
  refine ⟨⟨t, r.files⟩, y, shown, failed, ?_⟩
  have block := written 0 0
  simp only [AsWritten, blockWrites, vid, List.append_nil, List.nil_append, lastWrite] at block
  exact funext fun k => block k k.isLt

end BurstBuffer.Guarantees
