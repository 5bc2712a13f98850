import BurstBuffer.Invariants.Layout
import BurstBuffer.Invariants.Options

/-!
# The layout counts

Nothing keeps the nvm-size option from setting a size with fewer blocks than the volumes
need. `max_inode_entry` wraps around for 1 MiB and 2 MiB, and from 3 MiB on no
subtraction does.
-/
namespace BurstBuffer.Guarantees

open Source

/-- No subtraction wraps around, and `max_inode_entry` and the ownerless blocks are together
as many as there is room for. -/
structure CountsExact (r : Region) : Prop where
  metadata : sizeofNvmMetadata ≤ r.nvmSize
  volumes : sizeofVolumeEntry * maxVolumeEntry ≤ r.nvmSize - sizeofNvmMetadata
  unusedEnd : unusedEndSpace r ≤
    r.nvmSize - sizeofNvmMetadata - sizeofVolumeEntry * maxVolumeEntry
  ownerless : maxOwnerlessBlock ≤ maxBlock r
  /-- So many pairs of an inode entry and a block fit, and no more. -/
  pairs : ∀ n, sizeofNvmMetadata + sizeofVolumeEntry * maxVolumeEntry +
    (sizeofInodeEntry + blockSize) * n + unusedEndSpace r ≤ r.nvmSize ↔
      n ≤ (nvmLayout r).maxInodeEntry + maxOwnerlessBlock
  bound : (nvmLayout r).maxInodeEntry + maxOwnerlessBlock ≤ r.nvmSize / blockSize

section Derive

variable {r : Region}

theorem maxBlock_le (small : r.nvmSize < 2 ^ 46) (exact : NoWrap r) :
    maxBlock r ≤ r.nvmSize / blockSize := by
  have pairs := pairs_fit small exact
  rw [Nat.add_mul, Nat.mul_comm blockSize] at pairs
  rw [Nat.le_div_iff_mul_le (by decide)]
  omega

/-- From 3 MiB on there is room for the fixed tables and the blocks of the volumes. -/
theorem noWrap_of_large (large : 3 * 2 ^ 20 ≤ r.nvmSize) : NoWrap r := by
  have tail := unusedEndSpace_lt r
  rw [blockSize_eq] at tail
  unfold NoWrap
  rw [tablesOffset_eq]
  omega

theorem ownerless_of_large (small : r.nvmSize < 2 ^ 46) (large : 3 * 2 ^ 20 ≤ r.nvmSize) :
    maxOwnerlessBlock ≤ maxBlock r := by
  have tail := unusedEndSpace_lt r
  have ownerless : maxOwnerlessBlock = 128 := rfl
  rw [blockSize_eq] at tail
  rw [← pairs_fit_iff small (noWrap_of_large large), ownerless, tablesOffset_eq, blockSize_eq]
  unfold sizeofInodeEntry
  omega

/-- Two MiB have no room for them. -/
theorem few_of_small (exact : NoWrap r) (few : r.nvmSize ≤ 2 * 2 ^ 20) :
    maxBlock r < maxOwnerlessBlock := by
  have ownerless : maxOwnerlessBlock = 128 := rfl
  apply Nat.lt_of_not_le
  rw [← pairs_fit_iff (by omega) exact, ownerless, tablesOffset_eq, blockSize_eq]
  unfold sizeofInodeEntry
  omega

end Derive

/-- The counts are exact for a size of the option if it is at least 3 MiB, and for no other. -/
theorem layout_counts (r : Region) (optionBuf : List Char)
    (option : handleUserInput optionBuf = some r.nvmSize) (positive : 0 < r.nvmSize)
    (small : r.nvmSize < 2 ^ 46) : CountsExact r ↔ 3 * 2 ^ 20 ≤ r.nvmSize := by
  constructor
  · intro counts
    have mebibyte : 2 ^ 20 ∣ r.nvmSize := (option_sizes positive small).mp ⟨optionBuf, option⟩
    have exact : NoWrap r := by
      have fixed := counts.metadata
      have volumes := counts.volumes
      have tail := counts.unusedEnd
      unfold NoWrap tablesOffset
      omega
    by_contra less
    have few := few_of_small exact (by omega)
    exact absurd counts.ownerless (Nat.not_le_of_lt few)
  · intro large
    have exact := noWrap_of_large large
    have many := ownerless_of_large small large
    have total := maxInodeEntry_add many
    have room : sizeofNvmMetadata + sizeofVolumeEntry * maxVolumeEntry + unusedEndSpace r ≤
      r.nvmSize := exact
    refine ⟨by omega, by omega, by omega, many, fun n => ?_, ?_⟩
    · rw [total]
      exact pairs_fit_iff small exact n
    · rw [total]
      exact maxBlock_le small exact

/-- A region of 512 MiB, as in the help text. -/
def helpRegion : Region where
  base := 2 ^ 12
  nvmSize := 512 * 2 ^ 20
  aligned := firstPage_aligned
  inSpace := by decide

theorem layout_counts_help : CountsExact helpRegion :=
  (layout_counts helpRegion ['n', 's', ' ', '5', '1', '2', 'M'] (by decide) (by decide)
    (by decide)).mpr (by decide)

/-- A region of 1 MiB. -/
def smallRegion : Region where
  base := 2 ^ 12
  nvmSize := 2 ^ 20
  aligned := firstPage_aligned
  inSpace := by decide

/-- 63 blocks fit 1 MiB, and `max_inode_entry` becomes `63 - 128` modulo `2 ^ 32`. -/
theorem layout_counts_small : handleUserInput ['n', 's', ' ', '1', 'M'] = some smallRegion.nvmSize ∧
    maxBlock smallRegion = 63 ∧ (nvmLayout smallRegion).maxInodeEntry = 2 ^ 32 - 65 ∧
      ¬ CountsExact smallRegion := by
  have blocks : maxBlock smallRegion = 63 := by decide
  refine ⟨by decide, blocks, by decide, fun counts => ?_⟩
  have ownerless := counts.ownerless
  rw [blocks] at ownerless
  exact absurd ownerless (by decide)

end BurstBuffer.Guarantees
