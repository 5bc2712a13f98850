import BurstBuffer.Invariants.WideIndex

/-!
# Block ownership in reachable states

The block indices of the inodes and the volumes are a permutation of the block
numbers, so a block step cannot reach a block of anyone else.
-/
namespace BurstBuffer.Guarantees

open Library Source

variable {C : CuckoohashMap} {N : Nat}

/-- A block step on `(v, lbn)` changes no block of another owner and no other image. -/
structure OnlyOwnBlock (s t : State C N) (v : VolumeIdx) (lbn : Nat) : Prop where
  blocks : ∃ i, blockInode s v lbn = some i ∧ ∀ o, o ≠ Sum.inl i → o ≠ Sum.inr v →
    owners t o = owners s o ∧ t.blockTable (owners s o) = s.blockTable (owners s o)
  images : ∀ w l, ¬ (w = v ∧ l = lbn) → visibleImage t w l = visibleImage s w l

/-- Every block has one owner, and a block step stays with its own. The guard is
that of the step under consideration. -/
structure OwnershipHolds (guard : State C N → Event → Prop) (limit : Nat) (s : State C N) :
    Prop where
  permutation : Function.Bijective (owners s)
  steps : ∀ v lbn localOffset buf localCount n t, lbn < limit → localCount ≤ blockSize →
    guard s (.writeBlock v lbn localOffset buf localCount) →
    writeBlock v lbn localOffset buf localCount s = some (n, t) → OnlyOwnBlock s t v lbn

theorem onlyOwnBlock_of_written {s t : State C N} {v : VolumeIdx} {lbn count : Nat}
    {buf : Nat → UInt8} {i : InodeIdx N} (cycle : LifeCycle s [])
    (owned : Function.Bijective (owners s)) (step : BlockWritten s t v lbn buf count i) :
    OnlyOwnBlock s t v lbn where
  blocks := ⟨i, step.source.blockInode, fun _ notInode notVolume =>
    step.untouched owned notInode notVolume⟩
  images _ _ other := step.image_other cycle owned other

/-- In every run of narrow steps, restarts included, ownership holds. -/
theorem block_ownership (C : CuckoohashMap) (N limit : Nat) (cwd : String) (s : State C N)
    (reach : (system C N cwd limit).ReachableBy NarrowStep s) :
    OwnershipHolds NarrowStep limit s := by
  have ok := SystemOk.of_reachable reach
  refine ⟨ok.owned, fun v lbn _ _ _ _ _ _ _ narrow written => ?_⟩
  obtain ⟨_, _, step⟩ := writeBlock_spec ok.cycle.nodes (ok.cycle.keyOk v lbn) narrow written
  exact onlyOwnBlock_of_written ok.cycle ok.owned step

theorem block_ownership_one_block : ∃ s : State functionMap 128,
    validInode s zeroVolume 0 = some 0 ∧ OwnershipHolds NarrowStep (2 ^ 32) s := by
  obtain ⟨s, reach, filled⟩ := one_block_run "/" (2 ^ 32) (by decide)
  exact ⟨s, (filled.bound zeroVolume 0 0).mpr ⟨rfl, by decide, rfl⟩,
    block_ownership functionMap 128 (2 ^ 32) "/" s reach⟩

/-- With `2^27` inodes, writing block `2^26` changes the image of block `0`. -/
theorem block_ownership_wide : ¬ ∀ s : State functionMap wideN,
    (system functionMap wideN "/" (2 ^ 32)).Reachable s →
      OwnershipHolds (fun _ _ => True) (2 ^ 32) s := by
  intro holds
  obtain ⟨s, t, i, reach, filled, _, written, misplaced⟩ := wide_run (2 ^ 32) (by decide)
  have own := (holds s reach.reachable).steps zeroVolume (2 ^ 26) 0 _ blockSize _ t (by decide)
    (Nat.le_refl _) trivial written
  have image := own.images zeroVolume 0 (by decide)
  rw [misplaced.first, filled.first (by decide), Option.some.injEq] at image
  have byte := congrFun image ⟨0, by decide⟩
  exact absurd byte (by decide)

end BurstBuffer.Guarantees
