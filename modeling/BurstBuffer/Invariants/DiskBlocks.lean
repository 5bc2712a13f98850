import BurstBuffer.Source.PowerFailures
import BurstBuffer.Invariants.RecoveryReplay
import BurstBuffer.Invariants.StoredBlocks

/-!
# What the disk may lack

The disk holds what reads of the files return, but for the blocks of DIRTY and SYNC inodes.
No operation makes it lack anything else, and recovery writes these blocks again.
-/
namespace BurstBuffer.Source

open Library

variable {C : CuckoohashMap} {N : Nat}

/-- The inode is DIRTY or SYNC, and its block is block `lbn` of the file. -/
def UnsyncedAt (s : State C N) (i : InodeIdx N) (name : String) (lbn : Nat) : Prop :=
  isUnwritten (s.inodeTable i).state = true ∧ (s.inodeTable i).lbn = lbn ∧
    ∃ v, (s.inodeTable i).volume = some v ∧ getFilename (s.volumeTable v).vid = name

/-- What a step leaves for recovery stays so, and the files change there only. -/
structure KeepsUnsynced (s t : State C N) : Prop where
  unsynced : ∀ i name lbn, UnsyncedAt s i name lbn → UnsyncedAt t i name lbn
  files : ∀ name lbn, (∀ i, ¬ UnsyncedAt t i name lbn) →
    readBlock blockSize (t.files name) lbn = readBlock blockSize (s.files name) lbn

namespace KeepsUnsynced

variable {s t u : State C N}

theorem refl (s : State C N) : KeepsUnsynced s s := ⟨fun _ _ _ same => same, fun _ _ _ => rfl⟩

theorem trans (first : KeepsUnsynced s t) (second : KeepsUnsynced t u) : KeepsUnsynced s u where
  unsynced i name lbn before := second.unsynced i name lbn (first.unsynced i name lbn before)
  files name lbn none := by
    rw [second.files name lbn none]
    exact first.files name lbn fun i middle => none i (second.unsynced i name lbn middle)

theorem of_files (unsynced : ∀ i name lbn, UnsyncedAt s i name lbn → UnsyncedAt t i name lbn)
    (files : t.files = s.files) : KeepsUnsynced s t :=
  ⟨unsynced, fun name lbn _ => by rw [files]⟩

end KeepsUnsynced

section Steps

variable {s t u : State C N}

theorem UnsyncedAt.of_kept {i : InodeIdx N} {name : String} {lbn : Nat}
    (before : UnsyncedAt s i name lbn) (kept : Kept s t)
    (unwritten : isUnwritten (t.inodeTable i).state = true) : UnsyncedAt t i name lbn := by
  obtain ⟨_, key, v, owner, named⟩ := before
  have same := kept.identity v
  simp only [volumeIdentity, Prod.mk.injEq] at same
  exact ⟨unwritten, (kept.lbn i).trans key, v, (kept.volume i).trans owner, same.1.symm ▸ named⟩

theorem VolumesOk.file_eq (volumes : VolumesOk s) {v : VolumeIdx} {file : String}
    (opened : (s.volumeTable v).fd = some file) : file = getFilename (s.volumeTable v).vid := by
  cases table : (s.volumeTable v).hashTable.isSome with
  | false =>
    rw [(volumes.unused v table).2] at opened
    cases opened
  | true =>
    rw [volumes.opened v table] at opened
    exact (Option.some.inj opened).symm

/-- One batch writes blocks of inodes that it makes SYNC. -/
theorem LifeCycle.batch_unsynced {start : InodeIdx N} {batch rest : List (InodeIdx N)}
    {v : VolumeIdx} (cycle : LifeCycle s (batch ++ rest)) (volumes : VolumesOk s)
    (first : start ∈ batch) (owner : ∀ i ∈ batch, (s.inodeTable i).volume = some v)
    (run : ∀ (k : Nat) i, batch[k]? = some i →
      (s.inodeTable i).lbn = (s.inodeTable start).lbn + k)
    (written : pwritevBatch start batch s = some u)
    (handed : batch.foldlM (fun s idx => Source.handOff idx s) u = some t) :
    KeepsUnsynced s t := by
  obtain ⟨w, file, startOwner, opened, target⟩ := pwritevBatch_eq_some written
  cases startOwner.symm.trans (owner start first)
  have middle : LifeCycle u (batch ++ rest) := target ▸ cycle.setFile _ _
  obtain ⟨_, quiet, states⟩ := middle.handOffs handed
  have kept : Kept s u := by
    rw [target]
    exact ⟨rfl, fun _ => rfl, fun _ => rfl, fun _ => rfl, fun _ => rfl, fun _ => rfl, rfl, rfl⟩
  have sameStates : ∀ i, (u.inodeTable i).state = (s.inodeTable i).state :=
    fun i => by rw [target]; rfl
  have after := kept.trans quiet.kept
  constructor
  · intro i name lbn before
    refine before.of_kept after ?_
    rw [states, sameStates]
    split
    · rfl
    · exact before.1
  · intro name lbn none
    rw [quiet.files, target, State.setFile_files]
    by_cases named : name = file
    · subst name
      rw [Function.update_self]
      apply readBlock_writeRun_other _ run
      intro i member key
      have same := after.identity v
      simp only [volumeIdentity, Prod.mk.injEq] at same
      refine none i ⟨?_, (after.lbn i).trans key, v, (after.volume i).trans (owner i member), ?_⟩
      · rw [states, if_pos member]
        rfl
      · rw [same.1]
        exact (volumes.file_eq opened).symm
    · rw [Function.update_of_ne named]

theorem LifeCycle.batches_unsynced {fuel : Nat} {iIdxs : List (InodeIdx N)} {v : VolumeIdx}
    (cycle : LifeCycle s iIdxs) (volumes : VolumesOk s) (low : LowKeys s)
    (owner : ∀ i ∈ iIdxs, (s.inodeTable i).volume = some v)
    (written : Source.writeBatches fuel iIdxs s = some t) : KeepsUnsynced s t := by
  induction fuel generalizing s iIdxs with
  | zero =>
    cases iIdxs with
    | nil =>
      cases written
      exact .refl t
    | cons start rest => cases written
  | succ fuel ih =>
    cases iIdxs with
    | nil =>
      cases written
      exact .refl t
    | cons start rest =>
      obtain ⟨u, write, afterWrite⟩ := Option.bind_eq_some_iff.mp written
      obtain ⟨x, hand, looped⟩ := Option.bind_eq_some_iff.mp afterWrite
      have pieces := List.take_append_drop
        (lookAhead (fun i => (s.inodeTable i).lbn) (s.inodeTable start).lbn rest + 1)
        (start :: rest)
      have lows : ∀ i ∈ start :: rest, (s.inodeTable i).lbn < 2 ^ 32 - 1 := by
        intro i member
        have used : (s.inodeTable i).state ≠ .free := by
          rw [(cycle.inode i).heldDirty member]
          decide
        exact low v _ i (cycle.validInode_self used (owner i member))
      rw [← pieces] at cycle
      have starts : start ∈ (start :: rest).take
          (lookAhead (fun i => (s.inodeTable i).lbn) (s.inodeTable start).lbn rest + 1) := by simp
      have owned : ∀ i ∈ (start :: rest).take
          (lookAhead (fun i => (s.inodeTable i).lbn) (s.inodeTable start).lbn rest + 1),
          (s.inodeTable i).volume = some v := fun i member => owner i (List.mem_of_mem_take member)
      have batch := cycle.batch_unsynced volumes starts owned (fun k i here => batch_lbn lows here)
        write hand
      obtain ⟨last, step⟩ := cycle.writeBatch starts owned (fun _ k i here => batch_lbn lows here)
        write hand
      refine batch.trans (ih last (step.kept.volumesOk volumes) (step.lowKeys low) ?_ looped)
      intro i member
      rw [step.kept.volume]
      exact owner i (List.mem_of_mem_drop member)

variable {limit : Nat}

theorem nvmFlush_unsynced (ok : SystemOk limit s) (low : limit ≤ 2 ^ 32 - 1) {v : VolumeIdx}
    (flushed : nvmFlush v s = some t) : KeepsUnsynced s t := by
  obtain ⟨_, _, iIdxs, writeSize, u, collected, written⟩ := nvmFlush_eq_some flushed
  obtain ⟨holding, owner, short, quiet, states⟩ :=
    ok.cycle.collectDirty (by simp) (Nat.zero_le _) collected
  rw [List.take_of_length_le short] at written
  have lows : LowKeys u := fun w lbn i bound => by
    rw [quiet.bound] at bound
    exact ok.lowKeys low w lbn i bound
  refine KeepsUnsynced.trans (.of_files (fun i name lbn before => ?_) quiet.files)
    (holding.batches_unsynced (quiet.kept.volumesOk ok.volumes) lows owner written)
  refine before.of_kept quiet.kept ?_
  rw [states]
  exact before.1

theorem fillFreeInodesPass_unsynced (ok : SystemOk limit s) {index : Fin defaultNumBalloon}
    (passed : fillFreeInodesPass index s = some t) : KeepsUnsynced s t := by
  have kept := (ok.cycle.fillFreeInodesPass passed).2.kept
  obtain ⟨i, q, _, _, ⟨_, frame⟩ | ⟨clean, v, freed⟩⟩ := ok.cycle.pass_cases passed
  · refine .of_files (fun j name lbn before => before.of_kept kept ?_) (by rw [frame])
    rw [frame]
    exact before.1
  · refine .of_files (fun j name lbn before => before.of_kept kept ?_) (by rw [freed.frame])
    have other : j ≠ i := by
      rintro rfl
      have unwritten := before.1
      rw [clean] at unwritten
      cases unwritten
    rw [freed.entries, Function.update_of_ne other]
    exact before.1

theorem BlockWritten.unsynced {v : VolumeIdx} {lbn count : Nat} {buf : Nat → UInt8}
    {i : InodeIdx N} (step : BlockWritten s t v lbn buf count i) (ok : SystemOk limit s) :
    KeepsUnsynced s t := by
  have files : t.files = s.files := by rw [step.frame]
  refine .of_files ?_ files
  rintro j name l ⟨unwritten, key, w, owner, named⟩
  have same := step.identity w
  simp only [volumeIdentity, Prod.mk.injEq] at same
  by_cases here : j = i
  · subst j
    have bound : validInode s v lbn = some i := by
      cases step.source with
      | bound valid => exact valid
      | taken _ _ rest head =>
        have free := ok.cycle.free_of_queued (k := roundRobin defaultNumFree s.freeDequeueIdx)
          (by rw [LfQueue.dequeue_eq_some.mp head]; exact List.mem_cons_self)
        exact absurd free (not_free_of_unwritten unwritten)
    obtain ⟨_, owner', key'⟩ := ((ok.cycle.inode i).bound v lbn).mp bound
    cases owner.symm.trans owner'
    refine ⟨?_, ?_, v, ?_, same.1.symm ▸ named⟩
    · rw [step.entries, Function.update_self]
      rfl
    · rw [step.entries, Function.update_self, ← key, key']
    · rw [step.entries, Function.update_self]
  · rw [UnsyncedAt, step.entries, Function.update_of_ne here]
    exact ⟨unwritten, key, w, owner, same.1.symm ▸ named⟩

theorem Opened.unsynced {vid : Nat} {v : VolumeIdx} (step : Opened s t vid v)
    (ok : SystemOk limit s) : KeepsUnsynced s t := by
  have files : t.files = s.files := by rw [step.frame]
  have entries : t.inodeTable = s.inodeTable := by rw [step.frame]
  refine .of_files ?_ files
  rintro j name l ⟨unwritten, key, w, owner, named⟩
  have other : w ≠ v := by
    rintro rfl
    have table := ok.cycle.owner_open (not_free_of_unwritten unwritten) owner
    rw [step.wasClosed ok.volumes] at table
    cases table
  rw [UnsyncedAt, entries]
  refine ⟨unwritten, key, w, owner, ?_⟩
  rw [step.table, Function.update_of_ne other]
  exact named

end Steps

end BurstBuffer.Source
