import BurstBuffer.Library.Boundary
import BurstBuffer.Source.Layout

/-!
# The exact layout

Where the subtractions do not wrap, the tables lie behind each other, and the blocks end
before the unused tail of the region.
-/
namespace BurstBuffer.Source

open Library

variable {r : Region}

/-- The space in front of the inode table. -/
def tablesOffset : Nat := sizeofNvmMetadata + sizeofVolumeEntry * maxVolumeEntry

theorem tablesOffset_eq : tablesOffset = 3120 := rfl

theorem volumeTableSize_eq : sizeofVolumeEntry * maxVolumeEntry = 3072 := rfl

/-- The subtractions of `max_block` do not wrap. -/
def NoWrap (r : Region) : Prop := tablesOffset + unusedEndSpace r ≤ r.nvmSize

theorem sub64_eq {a b : Nat} (small : a < 2 ^ 64) (le : b ≤ a) : sub64 a b = a - b := by
  unfold sub64
  omega

theorem unusedEndSpace_lt (r : Region) : unusedEndSpace r < blockSize := by
  unfold unusedEndSpace
  exact Nat.mod_lt _ (by decide)

/-- The usable part of the region ends at a multiple of the block size. -/
theorem unusedEndSpace_dvd (r : Region) :
    blockSize ∣ r.base + r.nvmSize - unusedEndSpace r := by
  have whole : blockSize ∣ 2 ^ 64 := by decide
  rw [unusedEndSpace, Nat.mod_mod_of_dvd _ whole]
  exact Nat.dvd_sub_mod _

theorem maxBlock_eq (small : r.nvmSize < 2 ^ 46) (exact : NoWrap r) :
    maxBlock r = (r.nvmSize - tablesOffset - unusedEndSpace r) /
      (sizeofInodeEntry + blockSize) := by
  unfold NoWrap at exact
  rw [tablesOffset_eq] at exact ⊢
  have metadata : sub64 r.nvmSize sizeofNvmMetadata = r.nvmSize - 48 :=
    sub64_eq (by omega) (by unfold sizeofNvmMetadata; omega)
  have volumes : sub64 (r.nvmSize - 48) (sizeofVolumeEntry * maxVolumeEntry) =
      r.nvmSize - 3120 := by
    rw [volumeTableSize_eq, sub64_eq (by omega) (by omega)]
    omega
  rw [maxBlock, metadata, volumes, sub64_eq (by omega) (by omega)]
  apply Nat.mod_eq_of_lt
  unfold sizeofInodeEntry
  rw [blockSize_eq]
  omega

theorem maxInodeEntry_add (many : maxOwnerlessBlock ≤ maxBlock r) :
    (nvmLayout r).maxInodeEntry + maxOwnerlessBlock = maxBlock r := by
  have bound : maxBlock r < 2 ^ 32 := Nat.mod_lt _ (by decide)
  simp only [nvmLayout]
  omega

/-- The quotient in `max_block` is the number of pairs that fit. -/
theorem pairs_fit_iff (small : r.nvmSize < 2 ^ 46) (exact : NoWrap r) (n : Nat) :
    tablesOffset + (sizeofInodeEntry + blockSize) * n + unusedEndSpace r ≤ r.nvmSize ↔
      n ≤ maxBlock r := by
  have positive : 0 < sizeofInodeEntry + blockSize := by decide
  unfold NoWrap at exact
  rw [maxBlock_eq small exact, Nat.le_div_iff_mul_le positive, Nat.mul_comm n]
  omega

/-- The pairs of an inode entry and a block fit between the fixed tables and the tail. -/
theorem pairs_fit (small : r.nvmSize < 2 ^ 46) (exact : NoWrap r) :
    tablesOffset + (sizeofInodeEntry + blockSize) * maxBlock r + unusedEndSpace r ≤ r.nvmSize :=
  (pairs_fit_iff small exact _).mpr (Nat.le_refl _)

/-- The end of the inode table. -/
def inodeTableEnd (r : Region) : Nat := r.base + tablesOffset + sizeofInodeEntry * maxBlock r

/-- The end of the inode table is never on a boundary: the fixed tables end `48` bytes
behind a multiple of the entry size. -/
theorem inodeTableEnd_off (r : Region) : 0 < inodeTableEnd r % blockSize := by
  obtain ⟨page, base⟩ := r.aligned
  unfold inodeTableEnd sizeofInodeEntry
  rw [base, tablesOffset_eq, blockSize_eq]
  omega

theorem blocks_fit (small : r.nvmSize < 2 ^ 46) (exact : NoWrap r) :
    nextBoundary blockSize (inodeTableEnd r) + blockSize * maxBlock r ≤
      r.base + r.nvmSize - unusedEndSpace r := by
  have pairs := pairs_fit small exact
  rw [Nat.add_mul] at pairs
  apply nextBoundary_add_le (inodeTableEnd_off r) (unusedEndSpace_dvd r)
  unfold inodeTableEnd
  omega

/-- The addresses, without their wrap-around. -/
structure LaidOut (r : Region) (nvm : NvmMetadata) : Prop where
  volumeTable : nvm.volumeTable = r.base + sizeofNvmMetadata
  inodeTable : nvm.inodeTable = r.base + tablesOffset
  blockTable : nvm.blockTable = nextBoundary blockSize (inodeTableEnd r)

theorem nvmLayout_laidOut (small : r.nvmSize < 2 ^ 46) (exact : NoWrap r)
    (many : 0 < maxBlock r) : LaidOut r (nvmLayout r) := by
  have inSpace := r.inSpace
  have fits := blocks_fit small exact
  have above : inodeTableEnd r < nextBoundary blockSize (inodeTableEnd r) :=
    lt_nextBoundary (by decide)
  rw [blockSize_eq] at fits above
  have stop : inodeTableEnd r = r.base + 3120 + 64 * maxBlock r := rfl
  have volumeTable : (r.base + sizeofNvmMetadata) % 2 ^ 64 = r.base + sizeofNvmMetadata := by
    apply Nat.mod_eq_of_lt
    unfold sizeofNvmMetadata
    omega
  have inodeTable : (r.base + sizeofNvmMetadata + sizeofVolumeEntry * maxVolumeEntry) % 2 ^ 64 =
      r.base + tablesOffset := by
    rw [volumeTableSize_eq, tablesOffset_eq]
    unfold sizeofNvmMetadata
    omega
  have tableEnd : (r.base + tablesOffset + sizeofInodeEntry * maxBlock r) % 2 ^ 64 =
      inodeTableEnd r := by
    apply Nat.mod_eq_of_lt
    rw [tablesOffset_eq]
    unfold sizeofInodeEntry
    omega
  constructor
  · exact volumeTable
  · simp only [nvmLayout]
    rw [volumeTable, inodeTable]
  · simp only [nvmLayout]
    rw [volumeTable, inodeTable, tableEnd, sub64_eq (by omega) (Nat.mod_le _ _)]
    apply Nat.mod_eq_of_lt
    rw [nextBoundary] at fits
    rw [blockSize_eq]
    omega

section Addresses

variable {nvm : NvmMetadata}

theorem LaidOut.blockAddress (laid : LaidOut r nvm) (small : r.nvmSize < 2 ^ 46)
    (exact : NoWrap r) {idx : Nat} (inside : idx < maxBlock r) :
    nvm.blockAddress idx = nvm.blockTable + blockSize * idx ∧
      nvm.blockAddress idx + blockSize ≤ r.base + r.nvmSize := by
  have inSpace := r.inSpace
  have fits := blocks_fit small exact
  rw [← laid.blockTable] at fits
  have within := Nat.mul_le_mul_left blockSize (Nat.succ_le_of_lt inside)
  rw [Nat.mul_succ] at within
  have positive : 0 < blockSize := by decide
  have address : nvm.blockAddress idx = nvm.blockTable + blockSize * idx := by
    apply Nat.mod_eq_of_lt
    omega
  rw [address]
  exact ⟨rfl, by omega⟩

theorem LaidOut.inodeAddress (laid : LaidOut r nvm) (small : r.nvmSize < 2 ^ 46)
    (exact : NoWrap r) {idx : Nat} (inside : idx < maxBlock r) :
    nvm.inodeAddress idx = nvm.inodeTable + sizeofInodeEntry * idx := by
  have inSpace := r.inSpace
  have pairs := pairs_fit small exact
  rw [Nat.add_mul] at pairs
  have within := Nat.mul_le_mul_left sizeofInodeEntry (Nat.le_of_lt inside)
  have positive : 0 < blockSize * maxBlock r := Nat.mul_pos (by decide) (Nat.zero_lt_of_lt inside)
  apply Nat.mod_eq_of_lt
  rw [laid.inodeTable]
  omega

/-- The index computed from a pointer depends on the byte distance modulo `2 ^ 32`. -/
theorem LaidOut.inodeIdxOfAddress (laid : LaidOut r nvm) (small : r.nvmSize < 2 ^ 46)
    (exact : NoWrap r) {idx : Nat} (inside : idx < maxBlock r) :
    nvm.inodeIdxOfAddress (nvm.inodeAddress idx) = idx % 2 ^ 26 := by
  have inSpace := r.inSpace
  have pairs := pairs_fit small exact
  rw [Nat.add_mul] at pairs
  have within := Nat.mul_le_mul_left sizeofInodeEntry (Nat.le_of_lt inside)
  have low : nvm.inodeTable + sizeofInodeEntry * idx < 2 ^ 64 := by
    have positive : 0 < blockSize * maxBlock r := Nat.mul_pos (by decide) (Nat.zero_lt_of_lt inside)
    rw [laid.inodeTable]
    omega
  rw [laid.inodeAddress small exact inside, NvmMetadata.inodeIdxOfAddress,
    sub64_eq low (Nat.le_add_right _ _)]
  unfold sizeofInodeEntry
  omega

end Addresses

/-- A region may begin behind the first page. -/
theorem firstPage_aligned : 4096 ∣ 2 ^ 12 := by decide

end BurstBuffer.Source
