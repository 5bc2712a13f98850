import BurstBuffer.Source.System

/-!
# The file positions of the three flush loops

recovery_start, nvm_system_close and nvm_flush each compute the file position of
a block from the 32-bit `nvm->block_size` and the 32-bit `lbn`.
-/
namespace BurstBuffer.Source

open Library

variable {C : CuckoohashMap} {N : Nat}

/-- `lseek(fd, nvm->block_size * inode->lbn, SEEK_SET)`: both factors have 32 bits,
and so has the product. -/
def recoverySeek (lbn : Nat) : Nat := blockSize * lbn % 2 ^ 32

/-- `lseek(fd, (off_t) nvm->block_size * inode->lbn, SEEK_SET)` -/
def closeSeek (lbn : Nat) : Nat := blockSize * lbn % 2 ^ 64

/-- The offset of `pwritev(fd, iov, batch_count, (off_t) nvm->block_size * start_inode->lbn)` -/
def flushSeek (lbn : Nat) : Nat := blockSize * lbn % 2 ^ 64

theorem flushSeek_eq {lbn : Nat} (small : lbn < 2 ^ 32) : flushSeek lbn = blockSize * lbn := by
  apply Nat.mod_eq_of_lt
  change 2 ^ 14 * lbn < 2 ^ 64
  omega

theorem closeSeek_eq {lbn : Nat} (small : lbn < 2 ^ 32) : closeSeek lbn = blockSize * lbn :=
  flushSeek_eq small

variable {s : State C N} {i : InodeIdx N} {v : VolumeIdx}

/-- A round of the first loop of recovery_start writes there. -/
theorem recoverBlock_seeks (cwd : String) (unwritten : isUnwritten (s.inodeTable i).state = true)
    (owner : (s.inodeTable i).volume = some v) :
    recoverBlock cwd s i = some (s.setFile (recoveryFilename cwd (s.volumeTable v).vid)
      (writeAt (s.files (recoveryFilename cwd (s.volumeTable v).vid))
        (recoverySeek (s.inodeTable i).lbn) (s.blockOf i))) := by
  rw [recoverBlock]
  simp only [unwritten, if_true, owner]
  rfl

/-- So does a round of the flush loop of nvm_system_close. -/
theorem closeFlushOne_seeks {w : VolumeIdx} {queue : LfQueue (InodeIdx N) N} {file : String}
    (small : (s.inodeTable i).lbn < 2 ^ 32)
    (head : (s.inodeDirtyLfqueue v).dequeue = some (i, queue))
    (owner : (s.inodeTable i).volume = some w) (fd : (s.volumeTable w).fd = some file) :
    closeFlushOne v s = some (State.setFile
      { s with inodeDirtyLfqueue := Function.update s.inodeDirtyLfqueue v queue } file
      (writeAt (s.files file) (closeSeek (s.inodeTable i).lbn) (s.blockOf i))) := by
  rw [closeFlushOne, closeSeek_eq small, head]
  simp only [Option.bind_eq_bind, Option.bind_some, owner, fd]
  rfl

/-- And the `pwritev` of a batch. -/
theorem pwritevBatch_seeks {file : String} (batch : List (InodeIdx N))
    (small : (s.inodeTable i).lbn < 2 ^ 32) (owner : (s.inodeTable i).volume = some v)
    (fd : (s.volumeTable v).fd = some file) :
    pwritevBatch i batch s = some (s.setFile file
      (writeRun (s.files file) (flushSeek (s.inodeTable i).lbn) (batch.map s.blockOf))) := by
  rw [pwritevBatch, flushSeek_eq small, owner]
  simp only [Option.bind_eq_bind, Option.bind_some, fd]

end BurstBuffer.Source
