import BurstBuffer.Guarantees.PowerFailures
import BurstBuffer.Invariants.FirstFlush

/-!
# SYNC_OPTION off

With `SYNC_OPTION` off a flush and a sync make an inode CLEAN whose block may be written and
not yet durable. Recovery does not write it again, so a power failure brings back what the
disk held before.
-/
namespace BurstBuffer.Guarantees

open Library Source

variable {C : CuckoohashMap} {N : Nat} {cwd : String} {limit : Nat}

/-- A flush, a sync or a balloon pass is one that its thread takes. -/
def Taken (x : DiskState C N) : DiskEvent → Prop
  | .run (.operation (.flush v)) => works x.core (.flush v) = true
  | .run (.operation (.sync index)) => works x.core (.sync index) = true
  | .run (.operation (.balloon index)) => works x.core (.balloon index) = true
  | _ => True

/-- A safe step, by a thread that finds work if `limit` blocks of a volume can be enough
dirty inodes for a flush. -/
def AwakeStep (cwd : String) (limit : Nat) (x : DiskState C N) (e : DiskEvent) : Prop :=
  SafeDiskStep cwd x e ∧ (110 ≤ N → kFlushLwm N ≤ limit → Taken x e)

/-- After a power failure the block of a CLEAN inode is that on disk. -/
theorem lost_of_clean (cwd : String) {s : State C N} (ok : SystemOk limit s) (low : limit ≤ 2 ^ 18)
    {i : InodeIdx N} {v : VolumeIdx} (clean : (s.inodeTable i).state = .clean)
    (owner : (s.inodeTable i).volume = some v) (syncOption : Bool) (disk : String → File UInt8) :
    ∃ y, diskNext cwd limit syncOption ⟨s, disk⟩ (.powerFailure []) = some y ∧
      storedBlock y.core ((s.volumeTable v).vid, (s.inodeTable i).lbn) =
        readBlock blockSize (disk (getFilename (s.volumeTable v).vid)) (s.inodeTable i).lbn := by
  let x : State C N := { s with files := disk }
  have used : (s.inodeTable i).state ≠ .free := by
    rw [clean]
    decide
  have table : (x.volumeTable v).hashTable.isSome := ok.cycle.owner_open used owner
  have volumes : VolumesOk x := ok.volumes.congr (fun _ => rfl) rfl rfl
  obtain ⟨r, recovered⟩ := recoveryStart_total (s := x) cwd fun j unwritten =>
    (ok.cycle.inode j).owned (not_free_of_unwritten unwritten)
  obtain ⟨t, started, fresh⟩ := nvmSystemInit_spec recovered
  refine ⟨⟨t, t.files⟩, ?_, ?_⟩
  · rw [diskNext, List.foldlM_nil]
    simp only [Option.pure_def, Option.bind_eq_bind, Option.bind_some]
    rw [started]
    rfl
  · have none : replayed cwd x v (s.inodeTable i).lbn = none := by
      rw [replayed]
      split
      · rw [lastReplayed_eq_none]
        intro j
        rw [Bool.eq_false_iff]
        intro replay
        rw [replays_congr (s := s) rfl] at replay
        have bound := bound_of_replays ok low replay
        have here := ok.cycle.validInode_self used owner
        cases here.symm.trans bound
        have unwritten := (replays_iff.mp replay).1
        rw [clean] at unwritten
        cases unwritten
      · rfl
    rw [fresh.storedBlock]
    refine (recoveryStart_read volumes table recovered).trans ?_
    rw [none]

section Run

variable {memory : State C N} {k : Nat}

/-- A write of block `lbn` of volume `0` that the file does not have: zeros to the first
block, other bytes than those of the file to the others. -/
def newBlock (file : File UInt8) (lbn : Nat) : BlockWrite (Nat × Nat) UInt8 where
  key := (0, lbn)
  bytes := if lbn = 0 then fun _ => 0 else fun j => file (blockSize * lbn + j) + 1
  count := blockSize

theorem newBlock_differs {file : File UInt8} (other : readBlock blockSize file 0 ≠ fun _ => 0)
    (lbn : Nat) : ¬ (newBlock file lbn).Written (readBlock blockSize file lbn) := by
  intro written
  by_cases start : lbn = 0
  · subst lbn
    exact other (funext fun j => written j j.isLt)
  · have positive : 0 < blockSize := by decide
    have byte := written ⟨0, positive⟩ positive
    simp [newBlock, start, readBlock, readAt] at byte

/-- Blocks `0 .. k - 1` of volume `0` have been written since the start in `r`, in order, and
nothing else has happened. -/
structure FirstWrites (memory : State C N) (cwd : String) (limit k : Nat) (r s : State C N)
    (l : List (BlockWrite (Nat × Nat) UInt8)) : Prop where
  filled : Filled (nvmStructureBuild memory) limit k s
  drained : Drained s
  vid : (s.volumeTable zeroVolume).vid = 0
  reach : (system C N cwd limit).ReachableBy (InPlaceStep cwd) s
  shown : (diskSystem C N cwd limit false).ShowsBy (AwakeStep cwd limit) diskWrites
    ⟨r, r.files⟩ l ⟨s, r.files⟩
  last : ∀ lbn < k, lastWrite l (0, lbn) = some (newBlock (memory.files (getFilename 0)) lbn)

theorem FirstWrites.start (memory : State C N) (limit : Nat)
    (found : recoveryFilename cwd 0 = getFilename 0) :
    ∃ r s l, (system C N cwd limit).init r ∧ r.files = memory.files ∧
      FirstWrites memory cwd limit 0 r s l := by
  obtain ⟨r, initial, fresh⟩ := system_starts limit cwd memory
  obtain ⟨s, got, filled⟩ := Filled.start limit fresh rfl rfl (built_layout memory)
  have opens : next cwd limit r (.openVolume 0) = some s := by simp [next, got]
  have opening : InPlaceStep cwd r (.openVolume 0) := ⟨trivial, by rintro _ ⟨⟩; exact found⟩
  have files : r.files = memory.files := by
    rw [fresh.frame]
    rfl
  have vid : (s.volumeTable zeroVolume).vid = 0 := by
    rcases getVolumeEntryIdx_cases got with ⟨rfl, vid⟩ | opened
    · exact vid
    · rw [opened.table, Function.update_self]
  exact ⟨r, s, _, initial, files, filled, (Drained.fresh fresh).found got, vid,
    .step (.init initial) opening opens,
    shows_operation (e := .openVolume 0) ⟨trivial, fun _ _ => trivial⟩ opens rfl,
    fun _ low => absurd low (Nat.not_lt_zero _)⟩

theorem FirstWrites.write {r s : State C N} {l : List (BlockWrite (Nat × Nat) UInt8)}
    (writes : FirstWrites memory cwd limit k r s l) (narrow : k < 2 ^ 26) (room : k + 100 ≤ N)
    (inside : k < limit) : ∃ t m, FirstWrites memory cwd limit (k + 1) r t m := by
  set w := newBlock (memory.files (getFilename 0)) k with hw
  obtain ⟨t, step, allowed, filled⟩ := writes.filled.write narrow room inside cwd
    w.bytes (fun start => by rw [hw, newBlock, if_pos start])
  obtain ⟨_, effect⟩ := writes.filled.ok.written_of_next allowed step
  have identity := effect.identity zeroVolume
  simp only [volumeIdentity, Prod.mk.injEq] at identity
  have safe : AwakeStep cwd limit ⟨s, r.files⟩
      (.run (.operation (.writeBlock zeroVolume k 0 w.bytes blockSize))) :=
    ⟨allowed, fun _ _ => trivial⟩
  refine ⟨t, _, filled, writes.drained.written effect, identity.1.trans writes.vid,
    writes.reach.step ⟨allowed, by rintro _ ⟨⟩⟩ step,
    writes.shown.trans (shows_operation safe step rfl), fun lbn low => ?_⟩
  rw [blockWrites, lastWrite_concat, writes.vid]
  by_cases here : lbn = k
  · subst lbn
    exact if_pos rfl
  · rw [if_neg fun same => here (Prod.mk.inj same).2.symm]
    exact writes.last lbn (by omega)

theorem first_writes (cwd : String) (memory : State C N)
    (found : recoveryFilename cwd 0 = getFilename 0) (narrow : k ≤ 2 ^ 26)
    (room : k + 99 ≤ N) (inside : k ≤ limit) :
    ∃ r s l, (system C N cwd limit).init r ∧ r.files = memory.files ∧
      FirstWrites memory cwd limit k r s l := by
  induction k with
  | zero => exact FirstWrites.start memory limit found
  | succ k ih =>
    obtain ⟨r, s, l, initial, files, writes⟩ := ih (by omega) (by omega) (by omega)
    obtain ⟨t, m, writes'⟩ := writes.write (by omega) (by omega) (by omega)
    exact ⟨r, t, m, initial, files, writes'⟩

end Run

/-- With `SYNC_OPTION` off, on any memory where the file of volume `0` does not have zeros
already, some run loses one of its writes. With 110 inodes and as many block numbers as
kFlushLwm, the background threads take the steps of the run. -/
theorem blocks_lost_without_sync (memory : State C N) (limit : Nat) (large : 101 ≤ N)
    (small : N ≤ 2 ^ 26) (two : 2 ≤ limit) (low : limit ≤ 2 ^ 18)
    (other : readBlock blockSize (memory.files (getFilename 0)) 0 ≠ fun _ => 0) :
    ∃ (x y : DiskState C N) (l : List (BlockWrite (Nat × Nat) UInt8)),
      (diskSystem C N "/opt/nvm2/NVM" limit false).init x ∧ x.disk = memory.files ∧
      (diskSystem C N "/opt/nvm2/NVM" limit false).ShowsBy (AwakeStep "/opt/nvm2/NVM" limit)
        diskWrites x l y ∧
      ∃ vid lbn, ¬ AsWritten l (vid, lbn) (readBlock blockSize (x.disk (getFilename vid)) lbn)
        (storedBlock y.core (vid, lbn)) := by
  obtain ⟨k, several, room, inside, enough⟩ : ∃ k, 2 ≤ k ∧ k + 99 ≤ N ∧ k ≤ limit ∧
      (110 ≤ N → kFlushLwm N ≤ limit → kFlushLwm N ≤ k) := by
    by_cases many : 110 ≤ N ∧ kFlushLwm N ≤ limit
    · rw [kFlushLwm] at many
      exact ⟨kFlushLwm N, by rw [kFlushLwm]; omega, by rw [kFlushLwm]; omega, many.2,
        fun _ _ => Nat.le_refl _⟩
    · exact ⟨2, Nat.le_refl 2, by omega, two, fun large' below => absurd ⟨large', below⟩ many⟩
  obtain ⟨r, s, l, initial, files, writes⟩ :=
    first_writes "/opt/nvm2/NVM" memory rfl (by omega) room inside
  have filled := writes.filled
  obtain ⟨a, flushed, _, i, isSync⟩ := nvmFlush_returns filled.ok (by omega) (by omega)
    filled.table (filled.several writes.drained several (by omega))
  obtain ⟨cycle, flushes⟩ := filled.ok.cycle.nvmFlush flushed
  obtain ⟨index, b, found, synced, clean⟩ := writes.drained.synced_flush cycle flushed isSync
  obtain ⟨cycle', syncs⟩ := cycle.nvmSync synced
  have kept : Kept s b := flushes.kept.trans syncs.kept
  -- the state before the power failure
  have inPlace : InPlaceStep "/opt/nvm2/NVM" s (.flush zeroVolume) := ⟨trivial, by rintro _ ⟨⟩⟩
  have inPlace' : InPlaceStep "/opt/nvm2/NVM" a (.sync index) := ⟨trivial, by rintro _ ⟨⟩⟩
  obtain ⟨ok, placed⟩ :=
    filesInPlace_of_reachable ((writes.reach.step inPlace flushed).step inPlace' synced)
  have used : (b.inodeTable i).state ≠ .free := by
    rw [clean]
    decide
  obtain ⟨v, owner⟩ := Option.isSome_iff_exists.mp ((cycle'.inode i).owned used)
  obtain ⟨rfl, below, _⟩ := (filled.bound _ _ i).mp
    (flushes.bound _ _ _ (syncs.bound _ _ _ (cycle'.validInode_self used owner)))
  have vid : (b.volumeTable zeroVolume).vid = 0 := by
    have identity := kept.identity zeroVolume
    simp only [volumeIdentity, Prod.mk.injEq] at identity
    exact identity.1.trans writes.vid
  obtain ⟨y, failed, block⟩ := lost_of_clean "/opt/nvm2/NVM" ok low clean owner false r.files
  rw [vid] at block
  generalize (b.inodeTable i).lbn = lbn at below block
  -- the run
  have flush : AwakeStep "/opt/nvm2/NVM" limit ⟨s, r.files⟩
      (.run (.operation (.flush zeroVolume))) :=
    ⟨trivial, fun large' below' =>
      filled.works_flush writes.drained several (enough large' below')⟩
  have sync : AwakeStep "/opt/nvm2/NVM" limit ⟨a, r.files⟩ (.run (.operation (.sync index))) :=
    ⟨trivial, fun _ _ => found⟩
  have failure : AwakeStep "/opt/nvm2/NVM" limit ⟨b, r.files⟩ (.powerFailure []) :=
    ⟨placed, fun _ _ => trivial⟩
  have shown := (((writes.shown.trans (shows_operation flush flushed rfl)).trans
    (shows_operation sync synced rfl)).step failure failed)
  simp only [blockWrites, diskWrites, List.append_nil] at shown
  refine ⟨⟨r, r.files⟩, y, l, ⟨initial, rfl⟩, files, shown, 0, lbn, fun written => ?_⟩
  rw [AsWritten, writes.last lbn below, block, files] at written
  exact newBlock_differs other lbn written

/-- A table of 110 inodes, on files of bytes `2`: kFlushLwm is 11. -/
theorem blocks_lost_without_sync_small : ∃ (x y : DiskState functionMap 110)
    (l : List (BlockWrite (Nat × Nat) UInt8)),
    (diskSystem functionMap 110 "/opt/nvm2/NVM" 11 false).init x ∧
      x.disk = (blankMemory 110).files ∧
      (diskSystem functionMap 110 "/opt/nvm2/NVM" 11 false).ShowsBy
        (fun x e => SafeDiskStep "/opt/nvm2/NVM" x e ∧ Taken x e) diskWrites x l y ∧
      ∃ vid lbn, ¬ AsWritten l (vid, lbn) (readBlock blockSize (x.disk (getFilename vid)) lbn)
        (storedBlock y.core (vid, lbn)) := by
  obtain ⟨x, y, l, initial, files, shown, lost⟩ := blocks_lost_without_sync (blankMemory 110) 11
    (by decide) (by decide) (by decide) (by decide) fun same => by
      have byte : (2 : UInt8) = 0 := congrFun same ⟨0, by decide⟩
      exact absurd byte (by decide)
  exact ⟨x, y, l, initial, files,
    shown.mono fun _ _ awake => ⟨awake.1, awake.2 (by decide) (by decide)⟩, lost⟩

end BurstBuffer.Guarantees
