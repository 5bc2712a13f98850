import BurstBuffer.Invariants.LifeCycle

/-!
# Images and files

What the background work leaves as it is (`Kept`), when the file of a volume
holds the block of an inode (`OnFile`), and how a write to a file shows in the
visible images.
-/
namespace BurstBuffer.Source

open Library

variable {C : CuckoohashMap} {N : Nat}

/-- The same blocks, owned by the same entries under the same keys. -/
structure Kept (s t : State C N) : Prop where
  blocks : t.blockTable = s.blockTable
  lbn : ∀ i, (t.inodeTable i).lbn = (s.inodeTable i).lbn
  volume : ∀ i, (t.inodeTable i).volume = (s.inodeTable i).volume
  blockIndex : ∀ i, (t.inodeTable i).blockIndex = (s.inodeTable i).blockIndex
  identity : ∀ v, volumeIdentity t v = volumeIdentity s v
  volumeBlock : ∀ v, (t.volumeTable v).blockIndex = (s.volumeTable v).blockIndex
  volumeFree : t.volumeFreeLfqueue = s.volumeFreeLfqueue
  volumeInuse : t.volumeInuseLfqueue = s.volumeInuseLfqueue

namespace Kept

variable {s t u : State C N}

theorem refl (s : State C N) : Kept s s :=
  ⟨rfl, fun _ => rfl, fun _ => rfl, fun _ => rfl, fun _ => rfl, fun _ => rfl, rfl, rfl⟩

theorem trans (first : Kept s t) (second : Kept t u) : Kept s u where
  blocks := second.blocks.trans first.blocks
  lbn i := (second.lbn i).trans (first.lbn i)
  volume i := (second.volume i).trans (first.volume i)
  blockIndex i := (second.blockIndex i).trans (first.blockIndex i)
  identity v := (second.identity v).trans (first.identity v)
  volumeBlock v := (second.volumeBlock v).trans (first.volumeBlock v)
  volumeFree := second.volumeFree.trans first.volumeFree
  volumeInuse := second.volumeInuse.trans first.volumeInuse

theorem fd (kept : Kept s t) (v : VolumeIdx) : (t.volumeTable v).fd = (s.volumeTable v).fd := by
  have same := kept.identity v
  simp only [volumeIdentity, Prod.mk.injEq] at same
  exact same.2.1

theorem blockOf (kept : Kept s t) (i : InodeIdx N) : t.blockOf i = s.blockOf i := by
  rw [State.blockOf, State.blockOf, kept.blocks, kept.blockIndex]

/-- Overwriting the state and the lock of one inode. -/
theorem of_entry {i : InodeIdx N} {entry : InodeEntry N} (blocks : t.blockTable = s.blockTable)
    (volumes : t.volumeTable = s.volumeTable)
    (queues : t.volumeFreeLfqueue = s.volumeFreeLfqueue ∧
      t.volumeInuseLfqueue = s.volumeInuseLfqueue)
    (entries : t.inodeTable = Function.update s.inodeTable i entry)
    (lbn : entry.lbn = (s.inodeTable i).lbn) (volume : entry.volume = (s.inodeTable i).volume)
    (blockIndex : entry.blockIndex = (s.inodeTable i).blockIndex) : Kept s t := by
  refine ⟨blocks, fun j => ?_, fun j => ?_, fun j => ?_, fun v => ?_, fun v => ?_, queues.1,
    queues.2⟩
  · rw [entries]
    by_cases same : j = i
    · rw [same, Function.update_self, lbn]
    · rw [Function.update_of_ne same]
  · rw [entries]
    by_cases same : j = i
    · rw [same, Function.update_self, volume]
    · rw [Function.update_of_ne same]
  · rw [entries]
    by_cases same : j = i
    · rw [same, Function.update_self, blockIndex]
    · rw [Function.update_of_ne same]
  · rw [volumeIdentity, volumes]
    rfl
  · rw [volumes]

end Kept

/-- The file of its volume holds the block of inode `i`. -/
def OnFile (s : State C N) (i : InodeIdx N) : Prop :=
  ∀ v file, (s.inodeTable i).volume = some v → (s.volumeTable v).fd = some file →
    readBlock blockSize (s.files file) (s.inodeTable i).lbn = s.blockOf i

/-- SYNC and CLEAN inodes have been written to their file. -/
def Settled (s : State C N) : Prop :=
  ∀ i, (s.inodeTable i).state = .sync ∨ (s.inodeTable i).state = .clean → OnFile s i

/-- Volumes with a hash table have a file, each its own. -/
structure FilesOk (s : State C N) : Prop where
  opened : ∀ v, (s.volumeTable v).hashTable.isSome → ∃ file, (s.volumeTable v).fd = some file
  distinct : ∀ v w file, (s.volumeTable v).fd = some file → (s.volumeTable w).fd = some file → v = w

theorem Kept.onFile {s t : State C N} (kept : Kept s t) (files : t.files = s.files)
    {i : InodeIdx N} (written : OnFile s i) : OnFile t i := by
  intro v file owner opened
  rw [kept.volume] at owner
  rw [kept.fd] at opened
  rw [files, kept.lbn, kept.blockOf]
  exact written v file owner opened

theorem Kept.filesOk {s t : State C N} (kept : Kept s t) (files : FilesOk s) : FilesOk t := by
  constructor
  · intro v table
    have same := kept.identity v
    simp only [volumeIdentity, Prod.mk.injEq] at same
    rw [same.2.1]
    exact files.opened v (same.2.2 ▸ table)
  · intro v w file first second
    rw [kept.fd] at first second
    exact files.distinct v w file first second

theorem FilesOk.of_validInode {s : State C N} (files : FilesOk s) {v : VolumeIdx} {lbn : Nat}
    {i : InodeIdx N} (bound : validInode s v lbn = some i) :
    ∃ file, (s.volumeTable v).fd = some file := by
  obtain ⟨p, found, _⟩ := nodeAt_of_validInode bound
  obtain ⟨table, opened, _⟩ := Option.bind_eq_some_iff.mp found
  exact files.opened v (by rw [opened]; rfl)

theorem Kept.visibleImage {s t : State C N} (kept : Kept s t) (files : t.files = s.files)
    {v : VolumeIdx} {lbn : Nat} (bound : validInode t v lbn = validInode s v lbn) :
    visibleImage t v lbn = visibleImage s v lbn := by
  unfold Source.visibleImage
  rw [bound, kept.fd, files]
  cases validInode s v lbn with
  | none => rfl
  | some i => simp only [kept.blockOf]

/-- No block, file or key changes. -/
structure Quiet (s t : State C N) : Prop where
  kept : Kept s t
  files : t.files = s.files
  bound : ∀ v lbn, validInode t v lbn = validInode s v lbn

namespace Quiet

variable {s t u : State C N}

theorem refl (s : State C N) : Quiet s s := ⟨Kept.refl s, rfl, fun _ _ => rfl⟩

theorem trans (first : Quiet s t) (second : Quiet t u) : Quiet s u :=
  ⟨first.kept.trans second.kept, second.files.trans first.files,
    fun v lbn => (second.bound v lbn).trans (first.bound v lbn)⟩

theorem onFile (quiet : Quiet s t) {i : InodeIdx N} (written : OnFile s i) : OnFile t i :=
  quiet.kept.onFile quiet.files written

theorem visibleImage (quiet : Quiet s t) (v : VolumeIdx) (lbn : Nat) :
    visibleImage t v lbn = visibleImage s v lbn :=
  quiet.kept.visibleImage quiet.files (quiet.bound v lbn)

end Quiet

/-- The image of a bound block is on the file as soon as the inode is. -/
theorem visibleImage_of_onFile {s : State C N} {v : VolumeIdx} {lbn : Nat} {i : InodeIdx N}
    (bound : validInode s v lbn = some i) (owner : (s.inodeTable i).volume = some v)
    (key : (s.inodeTable i).lbn = lbn) (written : OnFile s i) {file : String}
    (opened : (s.volumeTable v).fd = some file) :
    visibleImage s v lbn = some (readBlock blockSize (s.files file) lbn) := by
  unfold visibleImage
  rw [bound]
  simp only [Option.some.injEq]
  rw [← written v file owner opened, key]

end BurstBuffer.Source
