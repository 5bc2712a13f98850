import Mathlib.Data.Nat.ModEq
import BurstBuffer.Invariants.Recovery
import BurstBuffer.Source.FilePositions

/-!
# File positions

The loops of nvm_system_close and nvm_flush put every block at its own place of
the file. The first loop of recovery_start does so for the first `2 ^ 18` blocks
and starts again at the front of the file behind them.
-/
namespace BurstBuffer.Guarantees

open Source Library

/-- Blocks written to the two positions do not overlap. -/
def BlocksApart (p q : Nat) : Prop := p + blockSize ≤ q ∨ q + blockSize ≤ p

/-- The three loops write a block to the same position, that of its number. -/
structure SeeksAgree (lbn : Nat) : Prop where
  flush : flushSeek lbn = blockSize * lbn
  close : closeSeek lbn = flushSeek lbn
  recovery : recoverySeek lbn = flushSeek lbn

/-- They do for both blocks, and none of them writes the one over the other. -/
structure PositionsAgree (lbn lbn' : Nat) : Prop where
  here : SeeksAgree lbn
  there : SeeksAgree lbn'
  flush : lbn ≠ lbn' → BlocksApart (flushSeek lbn) (flushSeek lbn')
  close : lbn ≠ lbn' → BlocksApart (closeSeek lbn) (closeSeek lbn')
  recovery : lbn ≠ lbn' → BlocksApart (recoverySeek lbn) (recoverySeek lbn')

section Positions

variable {lbn lbn' : Nat}

theorem apart_of_ne {p q : Nat} (different : p ≠ q) : BlocksApart (blockSize * p) (blockSize * q) :=
  blocks_apart blockSize different

theorem recoverySeek_eq (lbn : Nat) : recoverySeek lbn = blockSize * (lbn % 2 ^ 18) :=
  position_eq lbn

theorem seeksAgree_iff (small : lbn < 2 ^ 32) : SeeksAgree lbn ↔ lbn < 2 ^ 18 := by
  constructor
  · intro agree
    have same := agree.recovery
    rw [agree.flush, recoverySeek_eq] at same
    have low : lbn % 2 ^ 18 = lbn := Nat.eq_of_mul_eq_mul_left (by decide) same
    omega
  · intro low
    have product := flushSeek_eq small
    refine ⟨product, rfl, ?_⟩
    rw [product, recoverySeek_eq, Nat.mod_eq_of_lt low]

theorem positionsAgree_iff (small : lbn < 2 ^ 32) (small' : lbn' < 2 ^ 32) :
    PositionsAgree lbn lbn' ↔ lbn < 2 ^ 18 ∧ lbn' < 2 ^ 18 := by
  rw [← seeksAgree_iff small, ← seeksAgree_iff small']
  constructor
  · intro agree
    exact ⟨agree.here, agree.there⟩
  · rintro ⟨here, there⟩
    have apart : lbn ≠ lbn' → BlocksApart (flushSeek lbn) (flushSeek lbn') := by
      intro different
      rw [here.flush, there.flush]
      exact apart_of_ne different
    refine ⟨here, there, apart, ?_, ?_⟩
    · rw [here.close, there.close]
      exact apart
    · rw [here.recovery, there.recovery]
      exact apart

/-- In recovery two blocks overlap when their numbers agree in the low 18 bits. -/
theorem recovery_apart_iff :
    BlocksApart (recoverySeek lbn) (recoverySeek lbn') ↔ lbn % 2 ^ 18 ≠ lbn' % 2 ^ 18 := by
  rw [recoverySeek_eq, recoverySeek_eq]
  constructor
  · intro apart same
    rw [same, BlocksApart, blockSize_eq] at apart
    omega
  · exact apart_of_ne

/-- A batch of nvm_flush goes on behind block `2 ^ 32 - 1` with block `0`, beyond
the positions of all blocks. -/
theorem batch_apart {start start' k k' : Nat} (small : start < 2 ^ 32) (small' : start' < 2 ^ 32)
    (different : (start + k) % 2 ^ 32 ≠ (start' + k') % 2 ^ 32) :
    BlocksApart (flushSeek start + blockSize * k) (flushSeek start' + blockSize * k') := by
  rw [flushSeek_eq small, flushSeek_eq small', ← Nat.mul_add, ← Nat.mul_add]
  apply apart_of_ne
  intro same
  rw [same] at different
  exact different rfl

end Positions

/-- Where the three loops write the block of an inode. -/
structure LoopsSeek : Prop where
  recovery : ∀ (C : CuckoohashMap) (N : Nat) (cwd : String) (s : State C N) i v,
    isUnwritten (s.inodeTable i).state = true → (s.inodeTable i).volume = some v →
    recoverBlock cwd s i = some (s.setFile (recoveryFilename cwd (s.volumeTable v).vid)
      (writeAt (s.files (recoveryFilename cwd (s.volumeTable v).vid))
        (recoverySeek (s.inodeTable i).lbn) (s.blockOf i)))
  close : ∀ (C : CuckoohashMap) (N : Nat) (s : State C N) i v w queue file,
    (s.inodeTable i).lbn < 2 ^ 32 → (s.inodeDirtyLfqueue v).dequeue = some (i, queue) →
    (s.inodeTable i).volume = some w → (s.volumeTable w).fd = some file →
    closeFlushOne v s = some (State.setFile
      { s with inodeDirtyLfqueue := Function.update s.inodeDirtyLfqueue v queue } file
      (writeAt (s.files file) (closeSeek (s.inodeTable i).lbn) (s.blockOf i)))
  flush : ∀ (C : CuckoohashMap) (N : Nat) (s : State C N) i v file batch,
    (s.inodeTable i).lbn < 2 ^ 32 → (s.inodeTable i).volume = some v →
    (s.volumeTable v).fd = some file →
    pwritevBatch i batch s = some (s.setFile file
      (writeRun (s.files file) (flushSeek (s.inodeTable i).lbn) (batch.map s.blockOf)))
  members : ∀ start start' k k', start < 2 ^ 32 → start' < 2 ^ 32 →
    (start + k) % 2 ^ 32 ≠ (start' + k') % 2 ^ 32 →
    BlocksApart (flushSeek start + blockSize * k) (flushSeek start' + blockSize * k')

/-- The three loops agree exactly on the blocks below `2 ^ 18`. -/
theorem file_positions_agree (lbn lbn' : Nat) (small : lbn < 2 ^ 32) (small' : lbn' < 2 ^ 32) :
    LoopsSeek ∧ (PositionsAgree lbn lbn' ↔ lbn < 2 ^ 18 ∧ lbn' < 2 ^ 18) := by
  refine ⟨⟨?_, ?_, ?_, ?_⟩, positionsAgree_iff small small'⟩
  · intro C N cwd s i v unwritten owner
    exact recoverBlock_seeks cwd unwritten owner
  · intro C N s i v w queue file low head owner fd
    exact closeFlushOne_seeks low head owner fd
  · intro C N s i v file batch low owner fd
    exact pwritevBatch_seeks batch low owner fd
  · intro start start' k k' low low' different
    exact batch_apart low low' different

theorem file_positions_agree_low : PositionsAgree 7 8 :=
  (file_positions_agree 7 8 (by decide) (by decide)).2.mpr ⟨by decide, by decide⟩

/-- Block `2 ^ 18`, at position 4 GiB, is recovered to the front of the file, over block `0`. -/
theorem file_positions_agree_wrapped : recoverySeek (2 ^ 18) = 0 ∧ recoverySeek 0 = 0 ∧
    flushSeek (2 ^ 18) = 2 ^ 32 ∧ ¬ PositionsAgree 0 (2 ^ 18) := by
  refine ⟨by decide, by decide, by decide, fun agree => ?_⟩
  have low := (seeksAgree_iff (by decide)).mp agree.there
  exact absurd low (by decide)

end BurstBuffer.Guarantees
