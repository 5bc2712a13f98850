import BurstBuffer.Invariants.BlockOwners
import BurstBuffer.Invariants.WideIndex

/-!
# Crashes inside a block step

A block step copies into the ownerless block and swaps it in, so a crash between
its stores leaves the old block or the new one, as long as the inode had the
block before. An inode that the step takes from a free queue is marked DIRTY
while it still owns a block of earlier days.
-/
namespace BurstBuffer.Guarantees

open Library Source

variable {C : CuckoohashMap} {N : Nat}

/-- At every crash point between two stores of the block step from `s` to `t` on
inode `i`, recovery gives the image before or the image after. -/
def CrashAtomic (s t : State C N) (v : VolumeIdx) (lbn : Nat) (buf : Nat → UInt8) (count : Nat)
    (i : InodeIdx N) : Prop :=
  let stores := blockStores (validInode s v lbn).isNone i v lbn buf count s
  ∀ k, 0 < k → k < stores.length →
    recoveredImage (persisted stores k s) v lbn = visibleImage s v lbn ∨
    recoveredImage (persisted stores k s) v lbn = visibleImage t v lbn

/-- The image of the block before the step, or the new block. -/
def OldOrNew (s : State C N) (v : VolumeIdx) (lbn : Nat) (buf : Nat → UInt8) (count : Nat)
    (image : Option Block) : Prop :=
  image = visibleImage s v lbn ∨
    image = some (memcpy (s.blockTable (s.volumeTable v).blockIndex) buf count)

/-- For an inode that had the block already, nothing is asked, unless recovery
writes another inode there later or cannot reach the position. Otherwise what
recovery finds before the step must do, and so must the block that a newly taken
inode comes with. -/
structure CrashSafe (s : State C N) (v : VolumeIdx) (lbn : Nat) (buf : Nat → UInt8) (count : Nat)
    (i : InodeIdx N) : Prop where
  before : validInode s v lbn = none ∨ ¬ Front s v lbn i →
    OldOrNew s v lbn buf count (recoveredImage s v lbn)
  stale : validInode s v lbn = none → Front s v lbn i →
    OldOrNew s v lbn buf count (some (s.blockOf i))

/-- What the crash points are those of: `blockStores` are the stores of the step, all of them
make the step, and behind any of them a recovery that finds the file of the volume puts
`recoveredImage` into it. -/
structure StoresOfStep (cwd : String) (s t : State C N) (v : VolumeIdx) (lbn : Nat)
    (buf : Nat → UInt8) (count : Nat) (i : InodeIdx N) (stores : List (Store N)) : Prop where
  made : stepStores (validInode s v lbn).isNone i v lbn buf count s = some stores
  complete : SameNvm (persisted stores stores.length s) t
  recovered : recoveryFilename cwd (s.volumeTable v).vid = getFilename (s.volumeTable v).vid →
    ∀ k r, recoveryStart cwd (persisted stores k s) = some r →
      recoveredImage (persisted stores k s) v lbn =
        some (readBlock blockSize (r.files (getFilename (s.volumeTable v).vid)) lbn)

section Step

variable {s t : State C N} {v : VolumeIdx} {lbn count limit : Nat} {buf : Nat → UInt8}
  {i : InodeIdx N}

theorem crashAtomic_iff (ok : SystemOk limit s) (step : BlockWritten s t v lbn buf count i) :
    CrashAtomic s t v lbn buf count i ↔ CrashSafe s v lbn buf count i := by
  have image := crash_image ok.cycle ok.owned step
  rw [CrashAtomic]
  simp only [step.image_written]
  constructor
  · intro atomic
    refine ⟨fun early => ?_, fun unbound front => ?_⟩
    · have inside : 1 < (blockStores (validInode s v lbn).isNone i v lbn buf count s).length := by
        unfold blockStores
        split <;> simp
      have point := atomic 1 (by decide) inside
      rw [image 1 (by decide) inside] at point
      rwa [if_pos (early.imp_left fun unbound => ⟨unbound, by decide⟩)] at point
    · have inside : 3 < (blockStores (validInode s v lbn).isNone i v lbn buf count s).length := by
        simp [unbound, blockStores]
      have point := atomic 3 (by decide) inside
      rw [image 3 (by decide) inside] at point
      rwa [if_neg (by simp [front])] at point
  · intro safe k first last
    rw [image k first last]
    split
    · rename_i early
      exact safe.before (early.imp_left And.left)
    · rename_i late
      have front : Front s v lbn i := by
        by_contra hidden
        exact late (Or.inr hidden)
      cases bound : validInode s v lbn with
      | none => exact safe.stale bound front
      | some j =>
        have same : j = i := (ok.cycle.source_bound (w := v) (l := lbn) step.source).2 j bound
        left
        rw [visibleImage, bound, same]

/-- Where all block numbers are below `2^18`, only the block that a newly taken
inode comes with can be wrong. -/
theorem crashSafe_iff_of_low (ok : SystemOk limit s) (low : limit ≤ 2 ^ 18) (inside : lbn < limit)
    (table : (s.volumeTable v).hashTable.isSome) (step : BlockWritten s t v lbn buf count i) :
    CrashSafe s v lbn buf count i ↔
      (validInode s v lbn = none → OldOrNew s v lbn buf count (some (s.blockOf i))) := by
  have front : Front s v lbn i := by
    refine ⟨by omega, fun j replay => ?_⟩
    have bound := bound_of_replays ok low replay
    exact le_of_eq ((ok.cycle.source_bound (w := v) (l := lbn) step.source).2 j bound)
  have before : recoveredImage s v lbn = visibleImage s v lbn := by
    rw [recoveredImage]
    cases last : lastReplayed s v lbn with
    | some j => rw [visibleImage, bound_of_replays ok low (lastReplayed_eq_some.mp last).1]
    | none =>
      have opened := ok.volumes.opened v table
      cases bound : validInode s v lbn with
      | none => rw [visibleImage, bound]
      | some j =>
        obtain ⟨_, owner, key⟩ := ((ok.cycle.inode j).bound v lbn).mp bound
        have written := onFile_of_skipped ok low bound (lastReplayed_eq_none.mp last j)
        rw [visibleImage_of_onFile bound owner key written opened, opened]
        rfl
  constructor
  · exact fun safe unbound => safe.stale unbound front
  · exact fun stale => ⟨fun _ => Or.inl before, fun unbound _ => stale unbound⟩

theorem storesOfStep (cwd : String) (ok : SystemOk limit s) (narrow : i.val < 2 ^ 26)
    (table : (s.volumeTable v).hashTable.isSome) (step : BlockWritten s t v lbn buf count i) :
    StoresOfStep cwd s t v lbn buf count i
      (blockStores (validInode s v lbn).isNone i v lbn buf count s) where
  made := stepStores_narrow ok.cycle step narrow
  complete := stores_complete ok.cycle step
  recovered found k r recovered := by
    obtain ⟨volumes, identity⟩ := persisted_volumes ok.volumes
      (blockStores (validInode s v lbn).isNone i v lbn buf count s) k
    have same := identity v
    simp only [volumeIdentity, Prod.mk.injEq] at same
    have read := recoveredImage_eq_read volumes (same.2.2 ▸ table)
      (by rw [same.1]; exact found) recovered lbn
    rwa [same.1] at read

end Step

/-- Exactly which block steps are crash atomic, in every state of every run of
narrow steps; and which are on block numbers below `2^18`. The crash points are those
of the step. -/
theorem block_step_crash_atomic (C : CuckoohashMap) (N limit : Nat) (cwd : String)
    (s t : State C N) (v : VolumeIdx) (lbn localOffset count n : Nat) (buf : Nat → UInt8)
    (i : InodeIdx N) (reach : (system C N cwd limit).ReachableBy NarrowStep s)
    (inside : lbn < limit) (chosen : blockInode s v lbn = some i) (narrow : i.val < 2 ^ 26)
    (written : writeBlock v lbn localOffset buf count s = some (n, t)) :
    (CrashAtomic s t v lbn buf count i ↔ CrashSafe s v lbn buf count i) ∧
    (limit ≤ 2 ^ 18 → (CrashAtomic s t v lbn buf count i ↔
      (validInode s v lbn = none → OldOrNew s v lbn buf count (some (s.blockOf i))))) ∧
    StoresOfStep cwd s t v lbn buf count i
      (blockStores (validInode s v lbn).isNone i v lbn buf count s) := by
  have ok := SystemOk.of_reachable reach
  obtain ⟨_, j, step⟩ := writeBlock_spec ok.cycle.nodes (ok.cycle.keyOk v lbn)
    (fun j same => Option.some.inj (chosen.symm.trans same) ▸ narrow) written
  cases chosen.symm.trans step.source.blockInode
  have exactly := crashAtomic_iff ok step
  have table := writeBlock_open written
  exact ⟨exactly, fun low => exactly.trans (crashSafe_iff_of_low ok low inside table step),
    storesOfStep cwd ok narrow table step⟩

/-- The first block step of a new system. -/
theorem first_step (limit : Nat) (buf : Nat → UInt8) : ∃ s t : State functionMap 128,
    (system functionMap 128 "/" limit).ReachableBy NarrowStep s ∧
      Filled (nvmStructureBuild (blankMemory 128)) limit 0 s ∧
      blockInode s zeroVolume 0 = some 0 ∧
      writeBlock zeroVolume 0 0 buf blockSize s = some (blockSize, t) ∧
      BlockWritten s t zeroVolume 0 buf blockSize 0 := by
  obtain ⟨s, reach, filled⟩ :=
    filled_reachable (blankMemory 128) "/" limit (k := 0) (by decide) (by decide) (Nat.zero_le _)
  have chosen := filled.blockInode (by decide)
  have count := filled.count
  have isFree := filled.isFree (by decide)
  obtain ⟨t, written, step⟩ := writeBlock_returns filled.ok.cycle 0
    blockSize buf filled.table chosen (by decide)
    (by rw [isFree]; decide) (fun _ => by simp [defaultFreeMinCount]; omega)
  exact ⟨s, t, reach, filled, chosen, written, step⟩

/-- Written with the bytes the block of the new inode has already. -/
theorem block_step_crash_atomic_same : ∃ s t : State functionMap 128,
    validInode s zeroVolume 0 = none ∧
      CrashAtomic s t zeroVolume 0 (fun _ => 1) blockSize 0 := by
  obtain ⟨s, t, reach, filled, chosen, written, _⟩ := first_step (2 ^ 18) fun _ => 1
  have decided := block_step_crash_atomic functionMap 128 (2 ^ 18) "/" s t zeroVolume 0 0 blockSize
    blockSize (fun _ => 1) 0 reach (by decide) chosen (by decide) written
  refine ⟨s, t, filled.unbound, (decided.2.1 (Nat.le_refl _)).mpr fun _ => Or.inr ?_⟩
  rw [filled.later 0 (Nat.zero_le _), memcpy_block]
  rfl

/-- Written with `0`: a crash leaves the stale bytes `1` of the new inode's block,
neither the `2` of the file nor the `0`. -/
theorem block_step_crash_atomic_stale : ¬ ∀ (s t : State functionMap 128) (v : VolumeIdx)
    (lbn localOffset count n : Nat) (buf : Nat → UInt8) (i : InodeIdx 128),
    (system functionMap 128 "/" (2 ^ 32)).Reachable s → lbn < 2 ^ 32 → count ≤ blockSize →
    blockInode s v lbn = some i → writeBlock v lbn localOffset buf count s = some (n, t) →
    CrashAtomic s t v lbn buf count i := by
  intro atomic
  obtain ⟨s, t, reach, filled, chosen, written, step⟩ := first_step (2 ^ 32) fun _ => 0
  have safe := (crashAtomic_iff filled.ok step).mp (atomic s t zeroVolume 0 0 blockSize _ _ _
    reach.reachable (by decide) (Nat.le_refl _) chosen written)
  have front : Front s zeroVolume 0 0 := by
    refine ⟨by decide, fun j replay => ?_⟩
    obtain ⟨unwritten, owner, _⟩ := replays_iff.mp replay
    have bound := filled.ok.cycle.validInode_self (not_free_of_unwritten unwritten) owner
    exact absurd ((filled.bound _ _ _).mp bound).2.1 (Nat.not_lt_zero _)
  have stale := safe.stale filled.unbound front
  rw [OldOrNew, filled.later _ (Nat.zero_le _), visibleImage, filled.unbound, memcpy_block] at stale
  rcases stale with old | new
  · obtain ⟨file, _, same⟩ := Option.map_eq_some_iff.mp old.symm
    rw [filled.files] at same
    have byte : (2 : UInt8) = 1 := congrFun same ⟨0, by decide⟩
    exact absurd byte (by decide)
  · have byte : (1 : UInt8) = 0 := congrFun (Option.some.inj new) ⟨0, by decide⟩
    exact absurd byte (by decide)

end BurstBuffer.Guarantees
