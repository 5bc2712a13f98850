import BurstBuffer.Invariants.WideIndex

/-!
# Background work and the images of the volumes

Flush, sync and balloon change no image, and a close puts every image into the
file of its volume.
-/
namespace BurstBuffer.Guarantees

open Library Source

variable {C : CuckoohashMap} {N : Nat}

/-- The operations of the background threads. -/
inductive IsBackground : Event → Prop where
  | flush (v : VolumeIdx) : IsBackground (.flush v)
  | sync (index : Fin defaultNumSyncer) : IsBackground (.sync index)
  | balloon (index : Fin defaultNumBalloon) : IsBackground (.balloon index)

/-- One more background operation leaves the images as they are, and a close
returns with all of them on file. -/
structure ImagesKept (cwd : String) (s : State C N) : Prop where
  background : ∀ e t, IsBackground e → next cwd (2 ^ 32 - 1) s e = some t →
    ∀ v lbn, lbn < 2 ^ 32 - 1 → visibleImage t v lbn = visibleImage s v lbn
  close : ∃ t, nvmSystemClose s = some t ∧ ∀ v file lbn, lbn < 2 ^ 32 - 1 →
    (s.volumeTable v).fd = some file →
    visibleImage s v lbn = some (readBlock blockSize (t.files file) lbn)

theorem background_of_next {cwd : String} {limit : Nat} {s t : State C N} {e : Event}
    (cycle : LifeCycle s []) (isBackground : IsBackground e) (step : next cwd limit s e = some t) :
    Background s t := by
  cases isBackground with
  | flush v => exact (cycle.nvmFlush step).2
  | sync index => exact (cycle.nvmSync step).2
  | balloon index => exact (cycle.fillFreeInodesPass step).2

/-- In every run of narrow steps on block numbers below `2^32 - 1`, no block is lost. -/
theorem background_keeps_images (C : CuckoohashMap) (N : Nat) (cwd : String) (s : State C N)
    (reach : (system C N cwd (2 ^ 32 - 1)).ReachableBy NarrowStep s) : ImagesKept cwd s := by
  have ok := SystemOk.of_reachable reach
  have settled := ok.settled (Nat.le_refl _)
  constructor
  · intro e t isBackground step v lbn _
    have effect := background_of_next ok.cycle isBackground step
    exact (effect.images (ok.lowKeys (Nat.le_refl _)) ok.volumes.filesOk settled).2 v lbn
  · obtain ⟨t, closed, images⟩ := nvmSystemClose_images ok.cycle ok.volumes.filesOk settled
    exact ⟨t, closed, fun v file lbn _ opened => images v file lbn opened⟩

theorem background_keeps_images_one_block : ∃ s : State functionMap 128,
    visibleImage s zeroVolume 0 = some (fun _ => 0) ∧ ImagesKept "/" s := by
  obtain ⟨s, reach, filled⟩ := one_block_run "/" (2 ^ 32 - 1) (by decide)
  exact ⟨s, filled.first (by decide), background_keeps_images functionMap 128 "/" s reach⟩

/-- With `2^27` inodes, the close forgets block `2^26`: its inode is DIRTY but
not queued, so the file keeps its old bytes. -/
theorem background_keeps_images_wide : ¬ ∀ s : State functionMap wideN,
    (system functionMap wideN "/" (2 ^ 32 - 1)).Reachable s → ImagesKept "/" s := by
  intro kept
  obtain ⟨_, t, i, _, _, reach, _, misplaced⟩ := wide_run (2 ^ 32 - 1) (by decide)
  obtain ⟨u, closed, images⟩ := (kept t reach).close
  obtain ⟨file, opened⟩ := misplaced.opened
  have image := images zeroVolume file (2 ^ 26) (by decide) opened
  have queued : NotQueued t (2 ^ 26) := misplaced.queued
  rw [misplaced.image, nvmSystemClose_untouched closed queued, misplaced.files,
    Option.some.injEq] at image
  have byte : (1 : UInt8) = 2 := congrFun image ⟨0, by decide⟩
  exact absurd byte (by decide)

end BurstBuffer.Guarantees
