import BurstBuffer.Invariants.Enabled
import BurstBuffer.Invariants.WideRuns

/-!
# Some background thread is always enabled

While inodes are found under the index computed for them, a writer that waits for free inodes
has a flush, a sync or a balloon pass to wait for. In a wide table it may have none.
-/
namespace BurstBuffer.Guarantees

open Library Source

/-- With 228 inodes, in every run of narrow steps, also one that restarts or whose background
steps pay no regard to their guards. With at most `2^31` of them that operation completes. -/
theorem waiting_writers_enabled (C : CuckoohashMap) (N : Nat) (cwd : String) (limit : Nat)
    (large : 228 ≤ N) (s : State C N) (reach : (system C N cwd limit).ReachableBy NarrowStep s)
    (short : s.inodeFreeCount < defaultFreeMinCount) :
    ∃ e, works s e = true ∧
      (limit ≤ 2 ^ 32 → N ≤ 2 ^ 31 → ∃ t, next cwd limit s e = some t) :=
  (SystemOk.of_reachable reach).enabled large short cwd

/-- In a table of 228 inodes, 129 blocks are written before any flush. -/
theorem waiting_writers_enabled_first : ∃ (s : State functionMap 228) (e : Event)
    (t : State functionMap 228),
    (system functionMap 228 "/" 130).ReachableBy NarrowStep s ∧
      s.inodeFreeCount < defaultFreeMinCount ∧ works s e = true ∧ next "/" 130 s e = some t := by
  obtain ⟨s, reach, filled⟩ :=
    filled_reachable (blankMemory 228) "/" 130 (k := 129) (by decide) (by decide) (by decide)
  have count := filled.count
  have short : s.inodeFreeCount < defaultFreeMinCount := by
    simp only [defaultFreeMinCount]
    omega
  obtain ⟨e, taken, returns⟩ :=
    waiting_writers_enabled functionMap 228 "/" 130 (by decide) s reach short
  obtain ⟨t, step⟩ := returns (by decide) (by decide)
  exact ⟨s, e, t, reach, short, taken, step⟩

/-- A table of 15.6 TiB of blocks. -/
abbrev stoppedN : Nat := 1043916908

/-- There the run on one volume stops with 99 free inodes. -/
theorem waiting_writers_stuck : ¬ ∀ (N : Nat) (cwd : String) (limit : Nat)
    (s : State functionMap N), 228 ≤ N →
    (system functionMap N cwd limit).ReachableBy GuardedStep s →
    s.inodeFreeCount < defaultFreeMinCount → ∃ e, works s e = true := by
  intro enabled
  obtain ⟨last, index⟩ : ∃ last : InodeIdx stoppedN, last.val = 1043916809 :=
    ⟨⟨1043916809, by decide⟩, rfl⟩
  have fits : Fits stoppedN 917505 last := by
    refine ⟨?_, by decide, ?_, by decide, ?_, by decide⟩ <;> rw [index] <;> decide
  obtain ⟨s, reach, free, dirty, drained⟩ := fits.stops (blankMemory stoppedN) "/"
  obtain ⟨e, taken⟩ := enabled stoppedN "/" stoppedN s (by decide) reach (by rw [free]; decide)
  cases e with
  | openVolume | writeBlock | restart => cases taken
  | flush v => exact absurd (works_flush.mp taken).1 (Nat.not_le_of_lt dirty)
  | sync index => exact works_sync.mp taken (drained.sync index)
  | balloon index => exact works_balloon.mp taken (drained.clean index)

end BurstBuffer.Guarantees
