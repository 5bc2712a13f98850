import BurstBuffer.Source.Write

/-!
# The layout of the NVM

The counts and addresses that nvm_structure_build computes, in the code's widths:
64 bits for sizes and addresses, 32 bits for `max_block` and `max_inode_entry`. The
sizes of the entries are those of x86-64 Linux.
-/
namespace BurstBuffer.Source

/-- MAX_OWNERLESS_BLOCK. -/
abbrev maxOwnerlessBlock : Nat := maxVolumeEntry

def sizeofNvmMetadata : Nat := 48
def sizeofVolumeEntry : Nat := 24
def sizeofInodeEntry : Nat := 64

/-- The region that create_nvm_in_shm attaches: page-aligned, inside the address space. -/
structure Region where
  base : Nat
  nvmSize : Nat
  aligned : 4096 ∣ base
  inSpace : base + nvmSize ≤ 2 ^ 64

/-- The part of `struct nvm_metadata` that does not just repeat a constant. -/
structure NvmMetadata where
  maxInodeEntry : Nat
  volumeTable : Nat
  inodeTable : Nat
  blockTable : Nat

/-- `a - b` of two `uint64_t`. -/
def sub64 (a b : Nat) : Nat := (a + 2 ^ 64 - b) % 2 ^ 64

def unusedEndSpace (r : Region) : Nat := (r.base + r.nvmSize) % 2 ^ 64 % blockSize

def maxBlock (r : Region) : Nat :=
  sub64 (sub64 (sub64 r.nvmSize sizeofNvmMetadata) (sizeofVolumeEntry * maxVolumeEntry))
    (unusedEndSpace r) / (sizeofInodeEntry + blockSize) % 2 ^ 32

/-- The metadata part of nvm_structure_build. -/
def nvmLayout (r : Region) : NvmMetadata :=
  let maxInodeEntry := (maxBlock r + 2 ^ 32 - maxOwnerlessBlock) % 2 ^ 32
  let volumeTable := (r.base + sizeofNvmMetadata) % 2 ^ 64
  let inodeTable := (volumeTable + sizeofVolumeEntry * maxVolumeEntry) % 2 ^ 64
  let inodeTableEnd := (inodeTable + sizeofInodeEntry * maxBlock r) % 2 ^ 64
  { maxInodeEntry, volumeTable, inodeTable
    blockTable := (sub64 inodeTableEnd (inodeTableEnd % blockSize) + blockSize) % 2 ^ 64 }

/-- `&nvm->inode_table[idx]` -/
def NvmMetadata.inodeAddress (nvm : NvmMetadata) (idx : Nat) : Nat :=
  (nvm.inodeTable + sizeofInodeEntry * idx) % 2 ^ 64

/-- `&nvm->block_table[idx]` -/
def NvmMetadata.blockAddress (nvm : NvmMetadata) (idx : Nat) : Nat :=
  (nvm.blockTable + blockSize * idx) % 2 ^ 64

/-- get_inode_entry_idx_from_hash on an inode pointer: the cast to `inode_idx_t` comes
before the division. -/
def NvmMetadata.inodeIdxOfAddress (nvm : NvmMetadata) (inode : Nat) : Nat :=
  sub64 inode nvm.inodeTable % 2 ^ 32 / sizeofInodeEntry

end BurstBuffer.Source
