import BurstBuffer.Invariants.Layout

/-!
# The layout fits its region

`max_block` is computed from the space without the padding in front of the block
table. The padding always comes out of the rest of that division.
-/
namespace BurstBuffer.Guarantees

open Source Library

/-- The tables lie behind each other, and every block that an inode or a volume can have
lies in the region. -/
structure LayoutFits (r : Region) (nvm : NvmMetadata) : Prop where
  metadata : r.base + sizeofNvmMetadata ≤ nvm.volumeTable
  volumes : nvm.volumeTable + sizeofVolumeEntry * maxVolumeEntry ≤ nvm.inodeTable
  inodes : nvm.inodeTable + sizeofInodeEntry * maxBlock r ≤ nvm.blockTable
  aligned : blockSize ∣ nvm.blockTable
  count : nvm.maxInodeEntry + maxOwnerlessBlock = maxBlock r
  inode : ∀ i : InodeIdx nvm.maxInodeEntry,
    nvm.inodeAddress i = nvm.inodeTable + sizeofInodeEntry * i
  block : ∀ b : BlockIdx nvm.maxInodeEntry, nvm.blockAddress b = nvm.blockTable + blockSize * b
  inside : ∀ b : BlockIdx nvm.maxInodeEntry,
    nvm.blockAddress b + blockSize ≤ r.base + r.nvmSize

/-- The layout fits every region that has room for more blocks than the volumes need. -/
theorem layout_fits (r : Region) (small : r.nvmSize < 2 ^ 46) (exact : NoWrap r)
    (many : maxOwnerlessBlock < maxBlock r) : LayoutFits r (nvmLayout r) := by
  have laid := nvmLayout_laidOut small exact (Nat.zero_lt_of_lt many)
  have count := maxInodeEntry_add (Nat.le_of_lt many)
  have below : ∀ b : BlockIdx (nvmLayout r).maxInodeEntry, b.val < maxBlock r := fun b =>
    count ▸ b.isLt
  constructor
  · exact Nat.le_of_eq laid.volumeTable.symm
  · rw [laid.volumeTable, laid.inodeTable, tablesOffset, Nat.add_assoc]
  · have stop : (nvmLayout r).inodeTable + sizeofInodeEntry * maxBlock r = inodeTableEnd r := by
      rw [laid.inodeTable, inodeTableEnd]
    rw [stop, laid.blockTable]
    exact Nat.le_of_lt (lt_nextBoundary (by decide))
  · rw [laid.blockTable]
    exact dvd_nextBoundary
  · exact count
  · intro i
    exact laid.inodeAddress small exact (Nat.lt_of_lt_of_le i.isLt (count ▸ Nat.le_add_right _ _))
  · intro b
    exact (laid.blockAddress small exact (below b)).1
  · intro b
    exact (laid.blockAddress small exact (below b)).2

/-- The region of the default size, behind the first page. -/
def defaultRegion : Region where
  base := 2 ^ 12
  nvmSize := 2 ^ 32
  aligned := firstPage_aligned
  inSpace := by decide

theorem layout_fits_default : LayoutFits defaultRegion (nvmLayout defaultRegion) := by
  have exact : tablesOffset + unusedEndSpace defaultRegion ≤ defaultRegion.nvmSize := by decide
  exact layout_fits defaultRegion (by decide) exact (by decide)

end BurstBuffer.Guarantees
