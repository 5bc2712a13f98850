import Mathlib.Algebra.Order.BigOperators.Group.Finset
import BurstBuffer.Invariants.FirstFlush

/-!
# What background threads find to do

Every inode that is not free is DIRTY, or queued for sync or for a balloon thread. With 228
inodes, fewer than 100 of them free and nothing queued behind the flushers, more inodes are
DIRTY than there are volumes, so that some volume has several.
-/
namespace BurstBuffer.Source

open Library

variable {C : CuckoohashMap} {N : Nat} {limit : Nat} {cwd : String} {s : State C N}

/-- What is queued for sync or for the balloon threads, one of these threads can take. -/
theorem drained_or_enabled (cycle : LifeCycle s []) (cwd : String) (limit : Nat) :
    Drained s ∨ ∃ e t, works s e = true ∧ next cwd limit s e = some t := by
  by_cases clean : ∀ k, (s.inodeCleanLfqueue k).values = []
  · by_cases sync : ∀ k, (s.inodeSyncLfqueue k).values = []
    · exact Or.inl ⟨sync, clean⟩
    · push Not at sync
      obtain ⟨k, more⟩ := sync
      have fits := (s.inodeSyncLfqueue k).fits
      have room : ∀ j, (s.inodeCleanLfqueue j).getSize + (s.inodeSyncLfqueue k).getSize ≤ N := by
        intro j
        simp only [LfQueue.getSize, clean, List.length_nil]
        omega
      obtain ⟨t, synced⟩ := syncLoop_returns (Nat.le_refl _) room
      exact Or.inr ⟨.sync k, t, works_sync.mpr more, synced⟩
  · push Not at clean
    obtain ⟨k, more⟩ := clean
    obtain ⟨t, passed⟩ := pass_returns cycle more
    exact Or.inr ⟨.balloon k, t, works_balloon.mpr more, passed⟩

/-- Every DIRTY inode is in a dirty queue. -/
theorem dirtyCount_le (cycle : LifeCycle s []) :
    s.inodeDirtyCount ≤ poolSize (contents s.inodeDirtyLfqueue) := by
  rw [cycle.dirtyCount, ← sum_copies, tally, Finset.card_filter]
  refine Finset.sum_le_sum fun i _ => ?_
  split
  · rename_i state
    have isDirty : (s.inodeTable i).state = .dirty := state
    obtain ⟨v, owner⟩ := Option.isSome_iff_exists.mp
      ((cycle.inode i).owned (by rw [isDirty]; decide))
    have once := (cycle.inode i).dirty v
    rw [if_pos ⟨isDirty, owner, by simp⟩] at once
    exact once ▸ count_le_copies (contents s.inodeDirtyLfqueue) v i
  · exact Nat.zero_le _

namespace SystemOk

/-- A volume whose dirty queue is not empty is open and listed. -/
theorem open_of_dirty (ok : SystemOk limit s) {v : VolumeIdx}
    (more : 0 < (s.inodeDirtyLfqueue v).getSize) :
    (s.volumeTable v).hashTable.isSome ∧ v ∈ s.volumeInuseLfqueue.values := by
  obtain ⟨i, _, values⟩ := List.exists_cons_of_length_pos more
  obtain ⟨isDirty, owner, _⟩ := ok.cycle.dirty_of_queued (v := v) (i := i)
    (by rw [values]; exact List.mem_cons_self)
  have table := ok.cycle.owner_open (by rw [isDirty]; decide) owner
  have once := ok.volumes.inuse v
  rw [if_pos table] at once
  exact ⟨table, List.count_pos_iff.mp (by omega)⟩

/-- Of more DIRTY inodes than volumes, two belong to one volume. -/
theorem several_dirty (ok : SystemOk limit s) (many : maxVolumeEntry < s.inodeDirtyCount) :
    ∃ v, 1 < (s.inodeDirtyLfqueue v).getSize := by
  by_contra! single
  have bound : poolSize (contents s.inodeDirtyLfqueue) ≤ Fintype.card VolumeIdx :=
    poolSize_le_card single
  rw [Fintype.card_fin] at bound
  exact absurd many (Nat.not_lt_of_le (Nat.le_trans (dirtyCount_le ok.cycle) bound))

/-- With 228 inodes and few free ones some background thread has something to do, and can do
it. -/
theorem enabled (ok : SystemOk limit s) (large : 228 ≤ N)
    (short : s.inodeFreeCount < defaultFreeMinCount) (cwd : String) :
    ∃ e, works s e = true ∧
      (limit ≤ 2 ^ 32 → N ≤ 2 ^ 31 → ∃ t, Source.next cwd limit s e = some t) := by
  rcases drained_or_enabled ok.cycle cwd limit with drained | ⟨e, t, taken, step⟩
  · have counts := drained.counts ok.cycle
    simp only [defaultFreeMinCount] at short
    obtain ⟨v, several⟩ := ok.several_dirty (by simp only [maxVolumeEntry]; omega)
    obtain ⟨table, listed⟩ := ok.open_of_dirty (Nat.lt_of_succ_lt several)
    have enough : kFlushLwm N ≤ s.inodeDirtyCount := by
      simp only [kFlushLwm]
      omega
    refine ⟨.flush v, works_flush.mpr ⟨enough, listed, several⟩, fun low small => ?_⟩
    obtain ⟨t, flushed, _⟩ := nvmFlush_returns ok low small table several
    exact ⟨t, flushed⟩
  · exact ⟨e, taken, fun _ _ => ⟨t, step⟩⟩

end SystemOk

end BurstBuffer.Source
