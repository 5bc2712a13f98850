import BurstBuffer.Source.CrashingSystem
import BurstBuffer.Invariants.BackgroundFrames
import BurstBuffer.Invariants.BlockOwners
import BurstBuffer.Invariants.Recovery

/-!
# The blocks of all volumes

The block that is stored under a vid and a block number: that of NVM while a volume is open
under the vid and the block is bound, else that of the file. Only a block step changes it.
-/
namespace BurstBuffer.Source

open Library

variable {C : CuckoohashMap} {N : Nat}

/-- The entry that is open under a vid. -/
def openEntry (s : State C N) (vid : Nat) : Option VolumeIdx :=
  (List.finRange maxVolumeEntry).find? fun v =>
    (s.volumeTable v).hashTable.isSome && (s.volumeTable v).vid == vid

/-- The block under `vid` and `lbn`. -/
def storedBlock (s : State C N) (key : Nat × Nat) : Block :=
  match (openEntry s key.1).bind fun v => validInode s v key.2 with
  | some i => s.blockOf i
  | none => readBlock blockSize (s.files (getFilename key.1)) key.2

/-- No volume is open under the vid. -/
def ClosedVid (s : State C N) (vid : Nat) : Prop :=
  ∀ v, (s.volumeTable v).hashTable.isSome → (s.volumeTable v).vid ≠ vid

section Stored

variable {s t : State C N} {v : VolumeIdx} {vid lbn : Nat}

theorem openEntry_eq_some (volumes : VolumesOk s) :
    openEntry s vid = some v ↔
      (s.volumeTable v).hashTable.isSome ∧ (s.volumeTable v).vid = vid := by
  constructor
  · intro found
    simpa using List.find?_some found
  · rintro ⟨table, rfl⟩
    cases found : openEntry s (s.volumeTable v).vid with
    | none =>
      have missed := List.find?_eq_none.mp found v (List.mem_finRange v)
      simp [table] at missed
    | some w =>
      have other := List.find?_some found
      simp only [Bool.and_eq_true, beq_iff_eq] at other
      rw [volumes.distinct v w table other.2]

theorem openEntry_eq_none : openEntry s vid = none ↔ ClosedVid s vid := by
  simp [openEntry, ClosedVid]

theorem storedBlock_closed (closed : ClosedVid s vid) :
    storedBlock s (vid, lbn) = readBlock blockSize (s.files (getFilename vid)) lbn := by
  simp [storedBlock, openEntry_eq_none.mpr closed]

/-- An open volume shows its stored blocks. -/
theorem visibleImage_eq_stored (volumes : VolumesOk s)
    (table : (s.volumeTable v).hashTable.isSome) :
    visibleImage s v lbn = some (storedBlock s ((s.volumeTable v).vid, lbn)) := by
  have entry : openEntry s (s.volumeTable v).vid = some v :=
    (openEntry_eq_some volumes).mpr ⟨table, rfl⟩
  simp only [storedBlock, entry, Option.bind_some, visibleImage, volumes.opened v table]
  cases validInode s v lbn with
  | some i => rfl
  | none => rfl

/-- A vid is the vid of an open volume, or of none. -/
theorem open_or_closed (s : State C N) (vid : Nat) :
    (∃ v, (s.volumeTable v).hashTable.isSome ∧ (s.volumeTable v).vid = vid) ∨ ClosedVid s vid := by
  by_cases isOpen : ∃ v, (s.volumeTable v).hashTable.isSome ∧ (s.volumeTable v).vid = vid
  · exact Or.inl isOpen
  · exact Or.inr fun v table same => isOpen ⟨v, table, same⟩

/-- Stored blocks are equal where the images of the open volumes are and the other files. -/
theorem storedBlock_congr (volumes : VolumesOk s) (volumes' : VolumesOk t)
    (identity : ∀ v, volumeIdentity t v = volumeIdentity s v)
    (image : ∀ v, (s.volumeTable v).hashTable.isSome → (s.volumeTable v).vid = vid →
      visibleImage t v lbn = visibleImage s v lbn)
    (file : ClosedVid s vid → t.files (getFilename vid) = s.files (getFilename vid)) :
    storedBlock t (vid, lbn) = storedBlock s (vid, lbn) := by
  have same : ∀ v, (t.volumeTable v).vid = (s.volumeTable v).vid ∧
      (t.volumeTable v).hashTable.isSome = (s.volumeTable v).hashTable.isSome := by
    intro v
    have parts := identity v
    simp only [volumeIdentity, Prod.mk.injEq] at parts
    exact ⟨parts.1, parts.2.2⟩
  rcases open_or_closed s vid with ⟨v, table, rfl⟩ | closed
  · have shown := image v table rfl
    have table' : (t.volumeTable v).hashTable.isSome := (same v).2.symm ▸ table
    rw [visibleImage_eq_stored volumes table, visibleImage_eq_stored volumes' table', (same v).1,
      Option.some.injEq] at shown
    exact shown
  · have closed' : ClosedVid t vid := by
      intro v table
      rw [(same v).2] at table
      rw [(same v).1]
      exact closed v table
    rw [storedBlock_closed closed, storedBlock_closed closed', file closed]

end Stored

/-- Only files that are open may have changed. -/
structure OpenFilesOnly (s t : State C N) : Prop where
  fd : ∀ v, (t.volumeTable v).fd = (s.volumeTable v).fd
  files : ∀ name, (∀ v, (s.volumeTable v).fd ≠ some name) → t.files name = s.files name

namespace OpenFilesOnly

variable {s t u : State C N}

theorem refl (s : State C N) : OpenFilesOnly s s := ⟨fun _ => rfl, fun _ _ => rfl⟩

theorem trans (first : OpenFilesOnly s t) (second : OpenFilesOnly t u) : OpenFilesOnly s u where
  fd v := (second.fd v).trans (first.fd v)
  files name apart := by
    rw [second.files name fun v => (first.fd v).symm ▸ apart v, first.files name apart]

theorem of_same (volumes : t.volumeTable = s.volumeTable) (files : t.files = s.files) :
    OpenFilesOnly s t :=
  ⟨fun v => by rw [volumes], fun name _ => by rw [files]⟩

/-- Writing the file of a volume. -/
theorem of_update {v : VolumeIdx} {name : String} {file : File UInt8}
    (opened : (s.volumeTable v).fd = some name) (volumes : t.volumeTable = s.volumeTable)
    (files : t.files = Function.update s.files name file) : OpenFilesOnly s t := by
  refine ⟨fun w => by rw [volumes], fun other apart => ?_⟩
  have different : other ≠ name := by
    rintro rfl
    exact apart v opened
  rw [files, Function.update_of_ne different]

/-- A closed volume's file is not among them. -/
theorem closedFile (step : OpenFilesOnly s t) (volumes : VolumesOk s) {vid : Nat}
    (closed : ClosedVid s vid) : t.files (getFilename vid) = s.files (getFilename vid) := by
  apply step.files
  intro v opened
  cases table : (s.volumeTable v).hashTable.isSome with
  | false =>
    rw [(volumes.unused v table).2] at opened
    cases opened
  | true =>
    rw [volumes.opened v table, Option.some.injEq] at opened
    exact closed v table (getFilename_injective opened)

end OpenFilesOnly

section Steps

variable {s t : State C N}

theorem pwritevBatch_openFiles {start : InodeIdx N} {batch : List (InodeIdx N)}
    (written : pwritevBatch start batch s = some t) : OpenFilesOnly s t := by
  obtain ⟨v, name, _, opened, rfl⟩ := pwritevBatch_eq_some written
  exact .of_update opened rfl rfl

theorem writeBatches_openFiles {fuel : Nat} {iIdxs : List (InodeIdx N)}
    (written : writeBatches fuel iIdxs s = some t) : OpenFilesOnly s t := by
  induction fuel generalizing s iIdxs with
  | zero =>
    cases iIdxs with
    | nil =>
      cases written
      exact .refl t
    | cons start rest => cases written
  | succ fuel ih =>
    cases iIdxs with
    | nil =>
      cases written
      exact .refl t
    | cons start rest =>
      obtain ⟨u, write, afterWrite⟩ := Option.bind_eq_some_iff.mp written
      obtain ⟨x, hand, looped⟩ := Option.bind_eq_some_iff.mp afterWrite
      have frame := handOffs_frame hand
      have handed : OpenFilesOnly u x := .of_same (by rw [frame]) (by rw [frame])
      exact (pwritevBatch_openFiles write).trans (handed.trans (ih looped))

theorem nvmFlush_openFiles {v : VolumeIdx} (flushed : nvmFlush v s = some t) :
    OpenFilesOnly s t := by
  obtain ⟨_, _, _, _, u, collected, written⟩ := nvmFlush_eq_some flushed
  have frame := collectDirty_frame collected
  have collecting : OpenFilesOnly s u := .of_same (by rw [frame]) (by rw [frame])
  exact collecting.trans (writeBatches_openFiles written)

/-- nvm_sync writes to no file and no volume entry. -/
theorem nvmSync_same {index : Fin defaultNumSyncer} (synced : nvmSync index s = some t) :
    t.volumeTable = s.volumeTable ∧ t.files = s.files := by
  have frame := syncLoop_frame synced
  exact ⟨by rw [frame], by rw [frame]⟩

theorem nvmSync_openFiles {index : Fin defaultNumSyncer} (synced : nvmSync index s = some t) :
    OpenFilesOnly s t :=
  .of_same (nvmSync_same synced).1 (nvmSync_same synced).2

theorem fillFreeInodesPass_openFiles {index : Fin defaultNumBalloon} (cycle : LifeCycle s [])
    (passed : fillFreeInodesPass index s = some t) : OpenFilesOnly s t := by
  obtain ⟨i, q, _, _, ⟨_, frame⟩ | ⟨_, v, freed⟩⟩ := cycle.pass_cases passed
  · exact .of_same (by rw [frame]) (by rw [frame])
  · refine ⟨fun w => ?_, fun name _ => by rw [freed.frame]⟩
    have same := freed.identity w
    simp only [volumeIdentity, Prod.mk.injEq] at same
    exact same.2.1

theorem closeFlush_openFiles
    (flushed : (List.finRange maxVolumeEntry).foldlM closeFlushVolume s = some t) :
    OpenFilesOnly s t := by
  have loop : ∀ v n (x y : State C N), closeFlushLoop v n x = some y → OpenFilesOnly x y := by
    intro v n
    induction n with
    | zero =>
      rintro x y done
      cases done
      exact .refl x
    | succ n ih =>
      rintro x y looped
      obtain ⟨z, first, rest⟩ := Option.bind_eq_some_iff.mp looped
      obtain ⟨i, q, w, file, _, _, opened, rfl⟩ := closeFlushOne_eq_some.mp first
      have one : OpenFilesOnly x _ := .of_update (t := { x with
        inodeDirtyLfqueue := Function.update x.inodeDirtyLfqueue v q
        files := Function.update x.files file
          (writeAt (x.files file) (blockSize * (x.inodeTable i).lbn) (x.blockOf i)) })
        opened rfl rfl
      exact one.trans (ih _ y rest)
  exact foldlM_invariant (I := fun _ x => OpenFilesOnly s x)
    (fun v _ x y before one => before.trans (loop v _ x y one)) (.refl s) flushed

/-- A close leaves the files of closed volumes alone. -/
theorem nvmSystemClose_closedFile (volumes : VolumesOk s) {vid : Nat} (closed : ClosedVid s vid)
    (ended : nvmSystemClose s = some t) :
    t.files (getFilename vid) = s.files (getFilename vid) := by
  obtain ⟨u, flushed, rest⟩ := Option.bind_eq_some_iff.mp ended
  have files : t.files = u.files := by
    rw [(closeVolumes_frame rest).2, (settleInodes_spec u).2]
  rw [files]
  exact (closeFlush_openFiles flushed).closedFile volumes closed

theorem LifeCycle.owner_open (cycle : LifeCycle s []) {i : InodeIdx N} {v : VolumeIdx}
    (used : (s.inodeTable i).state ≠ .free) (owner : (s.inodeTable i).volume = some v) :
    (s.volumeTable v).hashTable.isSome := by
  obtain ⟨p, found, _⟩ := nodeAt_of_validInode (cycle.validInode_self used owner)
  obtain ⟨table, present, _⟩ := Option.bind_eq_some_iff.mp found
  rw [present]
  rfl

/-- So does recovery, which only writes blocks of open volumes. -/
theorem recoveryStart_closedFile {cwd : String} (cycle : LifeCycle s []) {vid : Nat}
    (closed : ClosedVid s vid) (recovered : recoveryStart cwd s = some t) :
    t.files (getFilename vid) = s.files (getFilename vid) := by
  obtain ⟨q, looped, done⟩ := Option.bind_eq_some_iff.mp recovered
  have files : t.files = q.files := by
    cases done
    rw [(settleInodes_spec q).2]
  rw [files]
  have kept := foldlM_invariant (f := recoverBlock cwd)
    (I := fun _ u => u = { s with files := u.files } ∧
      u.files (getFilename vid) = s.files (getFilename vid)) ?_ ⟨rfl, rfl⟩ looped
  · exact kept.2
  · rintro i _ u x ⟨frame, same⟩ one
    have frame' : x = { u with files := x.files } :=
      recoverBlocks_frame cwd (l := [i]) (by simp [one])
    refine ⟨by rw [frame', frame], ?_⟩
    simp only [recoverBlock] at one
    split at one
    · rename_i unwritten
      obtain ⟨v, owner, wrote⟩ := Option.bind_eq_some_iff.mp one
      cases wrote
      have other : getFilename vid ≠ recoveryFilename cwd (u.volumeTable v).vid := by
        intro named
        have here := vid_eq_of_recoveryFilename named.symm
        rw [frame] at unwritten owner here
        exact closed v (cycle.owner_open (not_free_of_unwritten unwritten) owner) here
      rw [State.setFile_files, Function.update_of_ne other, same]
    · cases one
      exact same

end Steps

/-- The abstract store of a state changes by the writes of `l`. -/
abbrev StoresBy (s : State C N) (l : List (BlockWrite (Nat × Nat) UInt8)) (t : State C N) : Prop :=
  (blockStore (Nat × Nat) UInt8 blockSize).Shows storeLabel (storedBlock s) l (storedBlock t)

section Effects

variable {s t : State C N} {limit : Nat}

theorem StoresBy.of_same (same : ∀ vid lbn, storedBlock t (vid, lbn) = storedBlock s (vid, lbn)) :
    StoresBy s [] t := by
  have equal : storedBlock t = storedBlock s := funext fun key => same key.1 key.2
  rw [StoresBy, equal]
  exact .refl _

/-- The background operations write no block. -/
theorem Background.storesBy (step : Background s t) (ok : SystemOk limit s)
    (low : limit ≤ 2 ^ 32 - 1) (files : OpenFilesOnly s t) : StoresBy s [] t := by
  have images := (step.images (ok.lowKeys low) ok.volumes.filesOk (ok.settled low)).2
  exact .of_same fun vid lbn => storedBlock_congr ok.volumes (step.kept.volumesOk ok.volumes)
    step.kept.identity (fun v _ _ => images v lbn) (files.closedFile ok.volumes)

/-- A block step is one write. -/
theorem BlockWritten.storesBy {v : VolumeIdx} {lbn count : Nat} {buf : Nat → UInt8}
    {i : InodeIdx N} (step : BlockWritten s t v lbn buf count i) (ok : SystemOk limit s) :
    StoresBy s [⟨((s.volumeTable v).vid, lbn), buf, count⟩] t := by
  have volumes' : VolumesOk t := ok.volumes.congr step.identity (by rw [step.frame])
    (by rw [step.frame])
  have bound : validInode t v lbn = some i := by rw [step.bound, if_pos ⟨rfl, rfl⟩]
  obtain ⟨p, found, _⟩ := nodeAt_of_validInode bound
  obtain ⟨table, present, _⟩ := Option.bind_eq_some_iff.mp found
  have table' : (t.volumeTable v).hashTable.isSome := by rw [present]; rfl
  have same := step.identity v
  simp only [volumeIdentity, Prod.mk.injEq] at same
  have files : t.files = s.files := by rw [step.frame]
  apply shows_write
  · have image := step.image_written
    rw [visibleImage_eq_stored volumes' table', same.1, Option.some.injEq] at image
    intro k inside
    dsimp only at inside ⊢
    rw [image]
    simp [memcpy, inside]
  · rintro ⟨vid, l⟩ other
    refine storedBlock_congr ok.volumes volumes' step.identity (fun w _ named => ?_)
      (fun _ => by rw [files])
    refine step.image_other ok.cycle ok.owned ?_
    rintro ⟨rfl, rfl⟩
    exact other (by rw [named])

/-- Opening a volume shows the blocks of its file. -/
theorem Opened.storesBy {vid : Nat} {v : VolumeIdx} (step : Opened s t vid v)
    (ok : SystemOk limit s) : StoresBy s [] t := by
  have volumes' := step.volumesOk ok.volumes
  have bound := (step.nodes ok.volumes ok.cycle.nodes).2
  have files : t.files = s.files := by rw [step.frame]
  have here : t.volumeTable v = { s.volumeTable v with
      vid := vid, fd := some (getFilename vid), hashTable := some newHashTable } := by
    rw [step.table, Function.update_self]
  have there : ∀ w, w ≠ v → t.volumeTable w = s.volumeTable w := fun w other => by
    rw [step.table, Function.update_of_ne other]
  have wasClosed := step.wasClosed ok.volumes
  refine .of_same fun vid' lbn => ?_
  rcases open_or_closed s vid' with ⟨w, table, named⟩ | closed
  · have other : w ≠ v := by
      rintro rfl
      rw [wasClosed] at table
      cases table
    have table' : (t.volumeTable w).hashTable.isSome := by rw [there w other]; exact table
    have image : visibleImage t w lbn = visibleImage s w lbn := by
      have blocks : t.blockOf = s.blockOf := by
        rw [step.frame]
        rfl
      unfold visibleImage
      rw [bound, there w other, files, blocks]
    rw [visibleImage_eq_stored ok.volumes table, visibleImage_eq_stored volumes' table',
      there w other, named, Option.some.injEq] at image
    exact image
  · rw [storedBlock_closed closed]
    by_cases same : vid' = vid
    · subst vid'
      have table' : (t.volumeTable v).hashTable.isSome := by rw [here]; rfl
      have image : visibleImage t v lbn = some (storedBlock t ((t.volumeTable v).vid, lbn)) :=
        visibleImage_eq_stored volumes' table'
      have unbound : validInode s v lbn = none := by
        rw [Option.isSome_eq_false_iff, Option.isNone_iff_eq_none] at wasClosed
        rw [validInode, nodeAt, wasClosed]
        rfl
      rw [visibleImage, bound, unbound, here, files] at image
      exact (Option.some.inj image).symm
    · have closed' : ClosedVid t vid' := by
        intro w table
        by_cases other : w = v
        · subst w
          rw [here]
          exact Ne.symm same
        · rw [there w other] at table ⊢
          exact closed w table
      rw [storedBlock_closed closed', files]

/-- After a start, all blocks are those of the files. -/
theorem Fresh.storedBlock {r : State C N} (fresh : Fresh r t) (vid lbn : Nat) :
    storedBlock t (vid, lbn) = readBlock blockSize (r.files (getFilename vid)) lbn := by
  have closed : ClosedVid t vid := by
    intro v table
    rw [fresh.closed] at table
    cases table
  have files : t.files = r.files := by rw [fresh.frame]
  rw [storedBlock_closed closed, files]

/-- A close puts all blocks into the files. -/
theorem close_files (ok : SystemOk limit s) (low : limit ≤ 2 ^ 32 - 1) :
    ∃ u, nvmSystemClose s = some u ∧ ∀ vid lbn,
      readBlock blockSize (u.files (getFilename vid)) lbn = storedBlock s (vid, lbn) := by
  obtain ⟨u, closed, images⟩ := nvmSystemClose_images ok.cycle ok.volumes.filesOk (ok.settled low)
  refine ⟨u, closed, fun vid lbn => ?_⟩
  rcases open_or_closed s vid with ⟨v, table, rfl⟩ | unopened
  · have image := images v _ lbn (ok.volumes.opened v table)
    rw [visibleImage_eq_stored ok.volumes table, Option.some.injEq] at image
    exact image.symm
  · rw [storedBlock_closed unopened, nvmSystemClose_closedFile ok.volumes unopened closed]

/-- A block step that completes. -/
theorem SystemOk.written_of_next {cwd : String} (ok : SystemOk limit s) {v : VolumeIdx}
    {lbn localOffset count : Nat} {buf : Nat → UInt8}
    (narrow : NarrowStep s (.writeBlock v lbn localOffset buf count))
    (step : Source.next cwd limit s (.writeBlock v lbn localOffset buf count) = some t) :
    ∃ i, BlockWritten s t v lbn buf count i := by
  simp only [Source.next] at step
  split at step
  · obtain ⟨⟨n, u⟩, wrote, rfl⟩ := Option.map_eq_some_iff.mp step
    exact (writeBlock_spec ok.cycle.nodes (ok.cycle.keyOk v lbn) narrow wrote).2
  · cases step

theorem restart_storesBy {cwd : String} (ok : SystemOk limit s) (low : limit ≤ 2 ^ 32 - 1)
    (restarted : (nvmSystemClose s).bind (nvmSystemInit cwd) = some t) : StoresBy s [] t := by
  obtain ⟨u, closed, _, fresh⟩ := restart_spec restarted
  obtain ⟨u', closed', blocks⟩ := close_files ok low
  cases closed.symm.trans closed'
  refine .of_same fun vid lbn => ?_
  rw [fresh.storedBlock, blocks]

/-- Recovery puts every block of an open volume into its file. -/
def RecoversBlocks (cwd : String) (s : State C N) : Prop :=
  ∀ v, (s.volumeTable v).hashTable.isSome → ∀ lbn,
    storedBlock s ((s.volumeTable v).vid, lbn) =
      match replayed cwd s v lbn with
      | some i => s.blockOf i
      | none => readBlock blockSize (s.files (getFilename (s.volumeTable v).vid)) lbn

/-- A crash with a new start keeps all blocks where recovery does. -/
theorem crash_storesBy {cwd : String} (ok : SystemOk limit s) (recovers : RecoversBlocks cwd s)
    (started : nvmSystemInit cwd s = some t) : StoresBy s [] t ∧ SystemOk limit t := by
  obtain ⟨r, recovered⟩ := recoveryStart_returns cwd ok.cycle
  obtain ⟨t', started', fresh⟩ := nvmSystemInit_spec recovered
  cases started.symm.trans started'
  have owned : owners t = owners r := fresh.owners
  constructor
  · refine .of_same fun vid lbn => ?_
    rw [fresh.storedBlock]
    rcases open_or_closed s vid with ⟨v, table, rfl⟩ | closed
    · rw [recoveryStart_read ok.volumes table recovered]
      exact (recovers v table lbn).symm
    · rw [storedBlock_closed closed, recoveryStart_closedFile ok.cycle closed recovered]
  · exact .fresh fresh (owned ▸ nvmSystemInit_owners started ▸ ok.owned)

end Effects

end BurstBuffer.Source
