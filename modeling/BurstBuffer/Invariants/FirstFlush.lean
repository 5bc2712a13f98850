import BurstBuffer.Invariants.BackgroundWork
import BurstBuffer.Invariants.WideIndex

/-!
# Before the first flush

Until a volume is flushed nothing is queued for sync or for the balloon threads, and every
inode is free or DIRTY. The first flush that flush_thread_func takes and one sync behind it
make an inode CLEAN.
-/
namespace BurstBuffer.Source

open Library

variable {C : CuckoohashMap} {N : Nat}

/-- Nothing is queued for sync or for the balloon threads. -/
structure Drained (s : State C N) : Prop where
  sync : ∀ k, (s.inodeSyncLfqueue k).values = []
  clean : ∀ k, (s.inodeCleanLfqueue k).values = []

namespace Drained

variable {s t : State C N} {limit : Nat}

theorem congr (drained : Drained s) (sync : t.inodeSyncLfqueue = s.inodeSyncLfqueue)
    (clean : t.inodeCleanLfqueue = s.inodeCleanLfqueue) : Drained t :=
  ⟨fun k => sync ▸ drained.sync k, fun k => clean ▸ drained.clean k⟩

theorem fresh {r : State C N} (fresh : Fresh r s) : Drained s := by
  have queues : s.inodeSyncLfqueue = (fun _ => .new) ∧ s.inodeCleanLfqueue = fun _ => .new := by
    rw [fresh.frame]
    exact ⟨rfl, rfl⟩
  exact ⟨fun k => by rw [queues.1]; rfl, fun k => by rw [queues.2]; rfl⟩

theorem found (drained : Drained s) {vid : Nat} {v : VolumeIdx}
    (got : getVolumeEntryIdx vid s = some (v, t)) : Drained t := by
  rcases getVolumeEntryIdx_cases got with ⟨rfl, _⟩ | opened
  · exact drained
  · exact drained.congr (by rw [opened.frame]) (by rw [opened.frame])

theorem written (drained : Drained s) {v : VolumeIdx} {lbn count : Nat} {buf : Nat → UInt8}
    {i : InodeIdx N} (step : BlockWritten s t v lbn buf count i) : Drained t :=
  drained.congr (by rw [step.frame]) (by rw [step.frame])

theorem states (drained : Drained s) (cycle : LifeCycle s []) (i : InodeIdx N) :
    (s.inodeTable i).state = .free ∨ (s.inodeTable i).state = .dirty := by
  have noSync : copies (contents s.inodeSyncLfqueue) i = 0 :=
    copies_eq_zero.mpr fun k => by simp [contents, drained.sync]
  have noClean : copies (contents s.inodeCleanLfqueue) i = 0 :=
    copies_eq_zero.mpr fun k => by simp [contents, drained.clean]
  have inode := cycle.inode i
  cases state : (s.inodeTable i).state with
  | free => exact Or.inl rfl
  | dirty => exact Or.inr rfl
  | sync =>
    have once := inode.sync
    rw [noSync, if_pos state] at once
    cases once
  | clean =>
    have some := inode.clean state
    omega

/-- All inodes are counted. -/
theorem counts (drained : Drained s) (cycle : LifeCycle s []) :
    s.inodeFreeCount + s.inodeDirtyCount = N := by
  have split := Finset.card_filter_add_card_filter_not (s := (Finset.univ : Finset (InodeIdx N)))
    fun i => Source.states s i = .free
  have others : (Finset.univ.filter fun i => ¬ Source.states s i = .free) =
      Finset.univ.filter fun i => Source.states s i = .dirty := by
    apply Finset.filter_congr
    intro i _
    rcases drained.states cycle i with state | state <;> simp [Source.states, state]
  rw [others, Finset.card_univ, Fintype.card_fin] at split
  rw [cycle.freeCount, cycle.dirtyCount]
  exact split

/-- After a flush some sync finds each of the inodes it made SYNC. -/
theorem synced_flush (drained : Drained s) {v : VolumeIdx} (cycle : LifeCycle t [])
    (flushed : nvmFlush v s = some t) {i : InodeIdx N} (isSync : (t.inodeTable i).state = .sync) :
    ∃ index u, works t (.sync index) = true ∧ nvmSync index t = some u ∧
      (u.inodeTable i).state = .clean := by
  have once := (cycle.inode i).sync
  rw [if_pos isSync] at once
  obtain ⟨index, queued⟩ := copies_pos.mp (by omega : 0 < copies (contents t.inodeSyncLfqueue) i)
  have room : ∀ k, (t.inodeCleanLfqueue k).getSize + (t.inodeSyncLfqueue index).getSize ≤ N := by
    intro k
    have same : t.inodeCleanLfqueue = s.inodeCleanLfqueue := by rw [nvmFlush_frame flushed]
    have fits := (t.inodeSyncLfqueue index).fits
    simp only [same, LfQueue.getSize, drained.clean, List.length_nil]
    omega
  obtain ⟨u, synced⟩ := syncLoop_returns (Nat.le_refl _) room
  refine ⟨index, u, works_sync.mpr (List.ne_nil_of_mem queued), synced, ?_⟩
  obtain ⟨_, _, states, _⟩ := nvmSync_moved synced
  have member : i ∈ (t.inodeSyncLfqueue index).values := queued
  rw [states, if_pos member]

end Drained

section Filled

variable {memory s : State C N} {limit k : Nat}

/-- Several written blocks are several entries of the dirty queue. -/
theorem Filled.several (filled : Filled memory limit k s) (drained : Drained s) (two : 2 ≤ k)
    (inside : k ≤ N) : 1 < (s.inodeDirtyLfqueue zeroVolume).getSize := by
  have queued : ∀ j (low : j < 2),
      (⟨j, by omega⟩ : InodeIdx N) ∈ (s.inodeDirtyLfqueue zeroVolume).values := by
    intro j low
    have bound := (filled.bound zeroVolume j ⟨j, by omega⟩).mpr ⟨rfl, by omega, rfl⟩
    have here := filled.ok.cycle.inode ⟨j, by omega⟩
    obtain ⟨used, owner, _⟩ := (here.bound zeroVolume j).mp bound
    have isDirty := (drained.states filled.ok.cycle ⟨j, by omega⟩).resolve_left used
    have once := here.dirty zeroVolume
    rw [if_pos ⟨isDirty, owner, List.not_mem_nil⟩] at once
    exact List.count_pos_iff.mp (by omega)
  have first := queued 0 (by decide)
  have second := queued 1 (by decide)
  rw [LfQueue.getSize]
  by_contra few
  obtain ⟨a, single⟩ : ∃ a, (s.inodeDirtyLfqueue zeroVolume).values = [a] :=
    List.length_eq_one_iff.mp
      (Nat.le_antisymm (Nat.le_of_not_lt few) (List.length_pos_of_mem first))
  rw [single, List.mem_singleton] at first second
  cases Fin.mk.inj (first.trans second.symm)

/-- flush_thread_func flushes them once they are kFlushLwm. -/
theorem Filled.works_flush (filled : Filled memory limit k s) (drained : Drained s) (two : 2 ≤ k)
    (enough : kFlushLwm N ≤ k) : works s (.flush zeroVolume) = true := by
  have count := filled.count
  have dirty := drained.counts filled.ok.cycle
  have several := filled.several drained two (by omega)
  have once := filled.ok.volumes.inuse zeroVolume
  rw [if_pos filled.table] at once
  have listed : zeroVolume ∈ s.volumeInuseLfqueue.values := List.count_pos_iff.mp (by omega)
  have many : kFlushLwm N ≤ s.inodeDirtyCount := by omega
  exact Source.works_flush.mpr ⟨many, listed, several⟩

end Filled

end BurstBuffer.Source
