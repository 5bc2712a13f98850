import BurstBuffer.Invariants.FlushBatches
import BurstBuffer.Invariants.ReplacedBlocks
import BurstBuffer.Invariants.WideIndex

/-!
# Flushing in batches

The gathered writes of nvm_flush leave in the file what writing every block on its
own would, unless the sequence goes on from block `2 ^ 32 - 1` to block `0`.
-/
namespace BurstBuffer.Guarantees

open Source Library

variable {C : CuckoohashMap} {N : Nat}

/-- The memory with other bytes in the blocks and in one file. -/
def withBytes (s : State C N) (blocks : BlockIdx N → Block) (file : String) (f : File UInt8) :
    State C N :=
  (s.withBlocks blocks).setFile file f

def blockNumber (s : State C N) (i : InodeIdx N) : Nat := (s.inodeTable i).lbn

/-- The loop of nvm_flush over `i_idxs` issues one gathered write for each batch. -/
def IssuesBatches (s : State C N) (iIdxs : List (InodeIdx N)) (file : String) : Prop :=
  ∀ blocks f, ∃ t, writeBatches iIdxs.length iIdxs (withBytes s blocks file f) = some t ∧
    t.files = Function.update s.files file
      ((flushBatches (blockNumber s) iIdxs.length iIdxs).foldl
        (writeBatch (blockNumber s) (s.withBlocks blocks).blockOf) f)

/-- The batches are the sequence, and whatever the blocks and the file hold, the loop
leaves what one write for each block would, in the order of the sequence. -/
structure BatchedAsSingles (s : State C N) (iIdxs : List (InodeIdx N)) (file : String) :
    Prop where
  cover : (flushBatches (blockNumber s) iIdxs.length iIdxs).flatten = iIdxs
  sizes : ∀ batch ∈ flushBatches (blockNumber s) iIdxs.length iIdxs,
    1 ≤ batch.length ∧ batch.length ≤ flushBatchSize
  singly : ∀ blocks f, ∃ t, writeBatches iIdxs.length iIdxs (withBytes s blocks file f) = some t ∧
    t.files = Function.update s.files file
      (iIdxs.foldl (writeSingle (blockNumber s) (s.withBlocks blocks).blockOf) f)

section Batched

variable {s : State C N} {v : VolumeIdx} {file : String} {iIdxs : List (InodeIdx N)}

theorem issuesBatches (owner : ∀ i ∈ iIdxs, (s.inodeTable i).volume = some v)
    (fd : (s.volumeTable v).fd = some file) (small : ∀ i ∈ iIdxs, blockNumber s i < 2 ^ 32)
    (room : SyncRoom s iIdxs.length) : IssuesBatches s iIdxs file := by
  intro blocks f
  obtain ⟨t, looped, files⟩ := writeBatches_returns (s := withBytes s blocks file f)
    (Nat.le_refl iIdxs.length) owner fd small room
  refine ⟨t, looped, files.trans ?_⟩
  have here : (withBytes s blocks file f).files file = f := by
    simp [withBytes]
  have others : (withBytes s blocks file f).files = Function.update s.files file f := rfl
  rw [here, others, Function.update_idem]
  rfl

/-- Blocks of ones over a file of zeros show the block written behind the end. -/
theorem not_singly_of_wraps (issues : IssuesBatches s iIdxs file)
    (small : ∀ i ∈ iIdxs, blockNumber s i < 2 ^ 32) (short : iIdxs.length ≤ flushBatchSize)
    (wraps : Wraps (blockNumber s) iIdxs) : ¬ BatchedAsSingles s iIdxs file := by
  intro batched
  obtain ⟨t, looped, files⟩ := issues (fun _ _ => 1) fun _ => 0
  obtain ⟨t', looped', files'⟩ := batched.singly (fun _ _ => 1) fun _ => 0
  cases looped.symm.trans looped'
  have same := congrFun (files.symm.trans files') file
  rw [Function.update_self, Function.update_self] at same
  have low : iIdxs.length ≤ 2 ^ 32 := Nat.le_trans short (by decide)
  have beyond : readBlock blockSize ((flushBatches (blockNumber s) iIdxs.length iIdxs).foldl
      (writeBatch (blockNumber s) (s.withBlocks fun _ _ => 1).blockOf) fun _ => 0) (2 ^ 32) =
        fun _ => 1 :=
    flushBatches_beyond (fun _ => 0) small wraps low (Nat.le_refl iIdxs.length)
  rw [same, writeSingle_beyond _ small] at beyond
  have byte := congrFun beyond ⟨0, by decide⟩
  cases byte

/-- Batched and single writes agree exactly when no two neighbours of the sequence are
the last and the first 32-bit block number. -/
theorem flush_batches (C : CuckoohashMap) (N : Nat) (s : State C N) (v : VolumeIdx)
    (file : String) (iIdxs : List (InodeIdx N))
    (owner : ∀ i ∈ iIdxs, (s.inodeTable i).volume = some v)
    (fd : (s.volumeTable v).fd = some file) (small : ∀ i ∈ iIdxs, (s.inodeTable i).lbn < 2 ^ 32)
    (short : iIdxs.length ≤ flushBatchSize) (room : SyncRoom s iIdxs.length) :
    IssuesBatches s iIdxs file ∧
      (BatchedAsSingles s iIdxs file ↔ ¬ Wraps (blockNumber s) iIdxs) := by
  have issues := issuesBatches owner fd small room
  refine ⟨issues, fun batched wraps => not_singly_of_wraps issues small short wraps batched, ?_⟩
  intro apart
  have small' : ∀ i ∈ iIdxs, blockNumber s i < 2 ^ 32 := small
  constructor
  · exact flatten_flushBatches (Nat.le_refl _)
  · intro batch member
    obtain ⟨filled, bounded⟩ := flushBatches_length member
    exact ⟨filled, Nat.le_trans bounded short⟩
  · intro blocks f
    obtain ⟨t, looped, files⟩ := issues blocks f
    refine ⟨t, looped, files.trans ?_⟩
    rw [writeBatch_foldl f small' apart (Nat.le_refl _)]

end Batched

/-- Three locked dirty inodes of the first volume with these block numbers. -/
def numbered (lbns : Fin 3 → Nat) : State functionMap 3 :=
  { blankMemory 3 with
    inodeTable := fun i => ⟨lbns i, .dirty, some zeroVolume, Fin.castAdd maxVolumeEntry i, true⟩
    volumeTable := fun v => ⟨0, some (getFilename 0), Fin.natAdd 3 v, none⟩ }

theorem numbered_room (lbns : Fin 3 → Nat) : SyncRoom (numbered lbns) 3 :=
  fun _ => Nat.le_refl 3

/-- A run of two blocks, and a block before them. -/
theorem flush_batches_run :
    flushBatches (blockNumber (numbered ![7, 8, 3])) 3 [0, 1, 2] = [[0, 1], [2]] ∧
      BatchedAsSingles (numbered ![7, 8, 3]) [0, 1, 2] (getFilename 0) := by
  refine ⟨by decide, (flush_batches functionMap 3 (numbered ![7, 8, 3]) zeroVolume (getFilename 0)
    [0, 1, 2] (fun _ _ => rfl) rfl (by decide) (by decide) (numbered_room _)).2.mpr ?_⟩
  rintro ⟨k, i, j, _, _, last, _⟩
  have other : ∀ i, blockNumber (numbered ![7, 8, 3]) i ≠ 2 ^ 32 - 1 := by decide
  exact other i last

/-- Block `0` behind block `2 ^ 32 - 1` is written behind that one. -/
theorem flush_batches_wrapped :
    ¬ BatchedAsSingles (numbered ![2 ^ 32 - 1, 0, 3]) [0, 1, 2] (getFilename 0) := by
  have small : ∀ i ∈ [0, 1, 2], blockNumber (numbered ![2 ^ 32 - 1, 0, 3]) i < 2 ^ 32 := by decide
  have issues : IssuesBatches (numbered ![2 ^ 32 - 1, 0, 3]) [0, 1, 2] (getFilename 0) :=
    issuesBatches (v := zeroVolume) (fun _ _ => rfl) rfl small (numbered_room _)
  exact not_singly_of_wraps issues small (by decide) ⟨0, 0, 1, rfl, rfl, rfl, rfl⟩

end BurstBuffer.Guarantees
