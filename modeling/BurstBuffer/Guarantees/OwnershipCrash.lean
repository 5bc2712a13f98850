import BurstBuffer.Guarantees.CrashAtomicity
import BurstBuffer.Invariants.BlockOwners

/-!
# Block ownership after a crash

A block step exchanges the blocks of an inode and its volume by two stores, and
recovery does not rebuild the block indices. A crash between the two leaves a
block with two owners for good; at every other point of a block step all blocks
keep one owner, and no later block step copies into a block of an inode.
-/
namespace BurstBuffer.Guarantees

open Library Source

variable {C : CuckoohashMap} {N : Nat}

/-- Each block has one owner, and whatever runs from here on, a block step copies
into a block that no inode owns. -/
structure OwnershipSurvives (cwd : String) (limit : Nat) (u : State C N) : Prop where
  permutation : Function.Bijective (owners u)
  later : ∀ es x, (system C N cwd limit).run u es = some x →
    ∀ v lbn buf count i stores, blockInode x v lbn = some i →
      stepStores (validInode x v lbn).isNone i v lbn buf count x = some stores →
      ∀ index ptr n, .block index ptr n ∈ stores → ∀ j, (x.inodeTable j).blockIndex ≠ index

theorem ownershipSurvives_iff {cwd : String} {limit : Nat} {u : State C N} :
    OwnershipSurvives cwd limit u ↔ Function.Bijective (owners u) := by
  refine ⟨OwnershipSurvives.permutation, fun owned => ⟨owned, ?_⟩⟩
  intro es x steps v lbn buf count i stores _ made index ptr n copied j
  have keep : ∀ s e t, Function.Bijective (owners s) → (system C N cwd limit).next s e = some t →
      Function.Bijective (owners t) := fun s e t before step => next_bijective before step
  have still : Function.Bijective (owners x) := Machine.run_invariant keep owned steps
  obtain ⟨w, _, _, _, target⟩ := stepStores_eq made
  rw [target index ptr n copied]
  exact blockIndex_ne still.injective j w

/-- In every run, at every crash point between two stores of a block step, and
after a new start on what is left: ownership survives unless the crash comes
between the last two stores, those of the two block indices. -/
theorem ownership_survives_crash (C : CuckoohashMap) (N limit : Nat) (cwd : String)
    (s t : State C N) (v : VolumeIdx) (lbn localOffset count n : Nat) (buf : Nat → UInt8)
    (reach : (system C N cwd limit).Reachable s)
    (written : writeBlock v lbn localOffset buf count s = some (n, t)) :
    ∃ i stores, blockInode s v lbn = some i ∧
      stepStores (validInode s v lbn).isNone i v lbn buf count s = some stores ∧
      SameNvm (persisted stores stores.length s) t ∧
      ∀ k u, k < stores.length → nvmSystemInit cwd (persisted stores k s) = some u →
        (OwnershipSurvives cwd limit u ↔ k + 1 ≠ stores.length) := by
  obtain ⟨i, stores, chosen, made, complete⟩ := stepStores_complete written
  refine ⟨i, stores, chosen, made, complete, fun k u inside started => ?_⟩
  rw [ownershipSurvives_iff, nvmSystemInit_owners started]
  exact owners_persisted (owners_of_reachable reach) made inside

/-- The first block step of a new system, stopped after `k` stores and recovered. -/
theorem crashed_first_step (limit k : Nat) :
    ∃ (s t u : State functionMap 128) (stores : List (Store 128)),
    (system functionMap 128 "/" limit).Reachable s ∧
      writeBlock zeroVolume 0 0 (fun _ => 1) blockSize s = some (blockSize, t) ∧
      blockInode s zeroVolume 0 = some 0 ∧ validInode s zeroVolume 0 = none ∧
      stepStores true 0 zeroVolume 0 (fun _ => 1) blockSize s = some stores ∧
      stores.length = 6 ∧ nvmSystemInit "/" (persisted stores k s) = some u := by
  obtain ⟨s, t, reach, filled, chosen, written, _⟩ := first_step limit fun _ => 1
  obtain ⟨i, stores, chosen', made, _⟩ := stepStores_complete written
  cases chosen.symm.trans chosen'
  rw [filled.unbound, Option.isNone_none] at made
  have owned : UnwrittenOwned s := fun j unwritten =>
    (filled.ok.cycle.inode j).owned (not_free_of_unwritten unwritten)
  obtain ⟨r, recovered⟩ := recoveryStart_total "/" (unwrittenOwned_persisted owned made k)
  obtain ⟨u, started, _⟩ := nvmSystemInit_spec recovered
  exact ⟨s, t, u, stores, reach.reachable, written, chosen, filled.unbound, made,
    stepStores_length made, started⟩

/-- A crash right after the first store. -/
theorem ownership_survives_crash_early : ∃ u : State functionMap 128,
    OwnershipSurvives "/" (2 ^ 32) u := by
  obtain ⟨s, t, u, stores, reach, written, chosen, unbound, made, length, started⟩ :=
    crashed_first_step (2 ^ 32) 1
  obtain ⟨i, stores', chosen', made', _, decided⟩ :=
    ownership_survives_crash functionMap 128 (2 ^ 32)
    "/" s t zeroVolume 0 0 blockSize blockSize (fun _ => 1) reach written
  cases chosen.symm.trans chosen'
  rw [unbound, Option.isNone_none] at made'
  cases made.symm.trans made'
  exact ⟨u, (decided 1 u (by omega) started).mpr (by omega)⟩

/-- A crash between the two stores of block indices. -/
theorem ownership_survives_crash_inside : ¬ ∀ (s t u : State functionMap 128) (v : VolumeIdx)
    (lbn localOffset count n : Nat) (buf : Nat → UInt8)
    (i : InodeIdx 128) (stores : List (Store 128))
    (k : Nat), (system functionMap 128 "/" (2 ^ 32)).Reachable s →
    lbn < 2 ^ 32 → count ≤ blockSize →
    writeBlock v lbn localOffset buf count s = some (n, t) → blockInode s v lbn = some i →
    stepStores (validInode s v lbn).isNone i v lbn buf count s = some stores →
    0 < k → k < stores.length → nvmSystemInit "/" (persisted stores k s) = some u →
    OwnershipSurvives "/" (2 ^ 32) u := by
  intro survives
  obtain ⟨s, t, u, stores, reach, written, chosen, unbound, made, length, started⟩ :=
    crashed_first_step (2 ^ 32) 5
  have owned := (survives s t u zeroVolume 0 0 blockSize blockSize (fun _ => 1) 0 stores 5 reach
    (by decide) (Nat.le_refl _) written chosen (by rw [unbound]; exact made) (by decide) (by omega)
    started).permutation
  rw [nvmSystemInit_owners started,
    owners_persisted (owners_of_reachable reach) made (by omega)] at owned
  exact owned (by omega)

end BurstBuffer.Guarantees
