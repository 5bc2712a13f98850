import BurstBuffer.Invariants.BlockOwners
import BurstBuffer.Invariants.Layout

/-!
# Inode pointers and indices

The distance of an inode pointer from the table is cast to 32 bits: an index comes back
from its pointer in the first 4 GiB of the inode table only.
-/
namespace BurstBuffer.Guarantees

open Source Library

/-- A block step on a node of this inode stores into its block and queues it, and does
neither with another one. -/
structure WritesHeld {N : Nat} (C : CuckoohashMap) (idx : InodeIdx N) : Prop where
  index : ∀ (s : State C N) p, (s.hashNodes p).inode = some idx →
    getInodeEntryIdxFromHash p s = some idx
  stored : ∀ (s u t : State C N) v lbn offset buf count n p,
    getHashNodeWithLock v lbn s = some (p, u) → (u.hashNodes p).inode = some idx →
    writeBlock v lbn offset buf count s = some (n, t) →
    (∃ w, (u.inodeTable idx).volume = some w ∧
      t.blockOf idx = memcpy (u.blockTable (u.volumeTable w).blockIndex) buf count) ∧
    (t.inodeTable idx).state = .dirty ∧
    (∀ j, j ≠ idx → t.inodeTable j = u.inodeTable j) ∧
    ∀ k, (t.inodeDirtyLfqueue k).values = (u.inodeDirtyLfqueue k).values ++
      if k = v ∧ (u.inodeTable idx).state ≠ .dirty then [idx] else []

/-- The pointer to an inode gives its index, and a block step acts on the inode it holds. -/
structure PointerCorresponds (C : CuckoohashMap) (nvm : NvmMetadata)
    (idx : InodeIdx nvm.maxInodeEntry) : Prop where
  roundTrip : nvm.inodeIdxOfAddress (nvm.inodeAddress idx) = idx
  held : WritesHeld C idx

section Pointers

variable {C : CuckoohashMap} {N : Nat}

theorem writesHeld_of_lt {idx : InodeIdx N} (low : idx.val < 2 ^ 26) : WritesHeld C idx := by
  have same := inodeIdxOfPointer_of_lt low
  constructor
  · intro s p points
    rw [getInodeEntryIdxFromHash, points, Option.map_some, same]
  · intro s u t v lbn offset buf count n p located points written
    rw [writeBlock_eq located points, same] at written
    obtain ⟨w, owner⟩ := storeInBlock_owner written
    obtain ⟨_, stored⟩ := storeInBlock_spec owner written
    have entries := stored.entries_self
    refine ⟨⟨w, owner, ?_⟩, ?_, ?_, ?_⟩
    · rw [State.blockOf, entries, stored.blocks, Function.update_self, Function.update_self]
    · rw [entries, Function.update_self]
    · intro j other
      rw [entries, Function.update_of_ne other]
    · intro k
      have dirty := stored.dirty
      by_cases before : (u.inodeTable idx).state = .dirty
      · rw [if_pos before] at dirty
        rw [if_neg fun both => both.2 before, List.append_nil, dirty.1]
      · rw [if_neg before] at dirty
        obtain ⟨q, queued, queues, _⟩ := dirty
        rw [queues]
        by_cases here : k = v
        · subst k
          rw [Function.update_self, if_pos ⟨rfl, before⟩, LfQueue.enqueue_eq_some.mp queued]
        · rw [Function.update_of_ne here, if_neg fun both => here both.1, List.append_nil]

/-- The two ways to compute an index agree: from the address and from the entry. -/
theorem inodeIdxOfPointer_eq {r : Region} (small : r.nvmSize < 2 ^ 46) (exact : NoWrap r)
    (many : maxOwnerlessBlock ≤ maxBlock r) (idx : InodeIdx (nvmLayout r).maxInodeEntry) :
    (nvmLayout r).inodeIdxOfAddress ((nvmLayout r).inodeAddress idx) = idx.val % 2 ^ 26 ∧
      (inodeIdxOfPointer idx).val = idx.val % 2 ^ 26 := by
  have count := maxInodeEntry_add many
  have inside : idx.val < maxBlock r :=
    Nat.lt_of_lt_of_le idx.isLt (count ▸ Nat.le_add_right _ _)
  have laid := nvmLayout_laidOut small exact (Nat.zero_lt_of_lt inside)
  constructor
  · exact laid.inodeIdxOfAddress small exact inside
  · unfold inodeIdxOfPointer
    show idx.val * 64 % 2 ^ 32 / 64 = idx.val % 2 ^ 26
    omega

end Pointers

/-- Pointer and index correspond exactly for the first `2 ^ 26` inodes. -/
theorem pointer_corresponds (C : CuckoohashMap) (r : Region) (small : r.nvmSize < 2 ^ 46)
    (exact : NoWrap r) (many : maxOwnerlessBlock ≤ maxBlock r)
    (idx : InodeIdx (nvmLayout r).maxInodeEntry) :
    PointerCorresponds C (nvmLayout r) idx ↔ idx.val < 2 ^ 26 := by
  have computed := (inodeIdxOfPointer_eq small exact many idx).1
  constructor
  · intro corresponds
    have back := corresponds.roundTrip
    rw [computed] at back
    omega
  · intro low
    constructor
    · rw [computed, Nat.mod_eq_of_lt low]
    · exact writesHeld_of_lt low

/-- A region of 2 TiB. -/
def wideRegion : Region where
  base := 2 ^ 12
  nvmSize := 2 ^ 41
  aligned := firstPage_aligned
  inSpace := by decide

theorem wideRegion_noWrap : NoWrap wideRegion := by
  have exact : tablesOffset + unusedEndSpace wideRegion ≤ wideRegion.nvmSize := by decide
  exact exact

theorem wideRegion_inodes : 2 ^ 26 < (nvmLayout wideRegion).maxInodeEntry := by decide

/-- The last inode whose pointer gives its index. -/
theorem pointer_corresponds_last : PointerCorresponds functionMap (nvmLayout wideRegion)
    ⟨2 ^ 26 - 1, Nat.lt_trans (by decide) wideRegion_inodes⟩ :=
  (pointer_corresponds functionMap wideRegion (by decide) wideRegion_noWrap (by decide)
    ⟨2 ^ 26 - 1, Nat.lt_trans (by decide) wideRegion_inodes⟩).mpr (by decide)

/-- The pointer to the inode behind it gives index `0`. -/
theorem pointer_corresponds_behind :
    (nvmLayout wideRegion).inodeIdxOfAddress ((nvmLayout wideRegion).inodeAddress (2 ^ 26)) = 0 ∧
      ¬ PointerCorresponds functionMap (nvmLayout wideRegion) ⟨2 ^ 26, wideRegion_inodes⟩ := by
  have wrapped : (nvmLayout wideRegion).inodeIdxOfAddress
      ((nvmLayout wideRegion).inodeAddress (2 ^ 26)) = 0 := by decide
  refine ⟨wrapped, fun corresponds => ?_⟩
  have back := corresponds.roundTrip
  rw [wrapped] at back
  cases back

end BurstBuffer.Guarantees
