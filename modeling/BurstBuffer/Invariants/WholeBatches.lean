import BurstBuffer.Invariants.FirstFlush

/-!
# Whole batches

A flush of a volume with more dirty inodes than one batch hands the first of its queue to the
sync threads, and these hand on all that they find.
-/
namespace BurstBuffer.Source

open Library

variable {C : CuckoohashMap} {N : Nat} {s : State C N} {cwd : String} {limit : Nat}

/-- A flush of a volume with more than a full batch takes the first entries of its queue. -/
theorem nvmFlush_front {v : VolumeIdx} {batch rest : List (InodeIdx N)} {file : String}
    (small : N ≤ 2 ^ 31) (queue : (s.inodeDirtyLfqueue v).values = batch ++ rest)
    (full : batch.length = flushBatchSize) (more : rest ≠ []) (distinct : batch.Nodup)
    (unlocked : ∀ i ∈ batch, (s.inodeTable i).lock = false)
    (owner : ∀ i ∈ batch, (s.inodeTable i).volume = some v)
    (fd : (s.volumeTable v).fd = some file) (lows : ∀ i ∈ batch, (s.inodeTable i).lbn < 2 ^ 32)
    (room : SyncRoom s flushBatchSize) :
    ∃ t, nvmFlush v s = some t ∧ (t.inodeDirtyLfqueue v).values = rest ∧
      (∀ j, t.inodeTable j = if j ∈ batch then
        { s.inodeTable j with lock := true, state := .sync } else s.inodeTable j) ∧
      (∀ j, copies (contents t.inodeSyncLfqueue) j =
        copies (contents s.inodeSyncLfqueue) j + batch.count j) ∧
      t.inodeDirtyCount = s.inodeDirtyCount - flushBatchSize := by
  have positive := List.length_pos_iff.mpr more
  have size : (s.inodeDirtyLfqueue v).getSize = flushBatchSize + rest.length := by
    rw [LfQueue.getSize, queue, List.length_append, full]
  have fits : (s.inodeDirtyLfqueue v).getSize ≤ N := (s.inodeDirtyLfqueue v).fits
  have several : 1 < (s.inodeDirtyLfqueue v).getSize := by
    simp only [flushBatchSize] at size
    omega
  have dirty := Collecting.numDirtyInodesOf_small several (by omega)
  have writeSize : writeSizeOf (numDirtyInodesOf (s.inodeDirtyLfqueue v).getSize) =
      ((([] : List (InodeIdx N)).length + batch.length : Nat) : Int) := by
    rw [dirty, writeSizeOf, if_pos (by omega), full]
    rfl
  have last : batch.length < (s.inodeDirtyLfqueue v).getSize + 1 := by omega
  obtain ⟨u, collected, left, locked, frame⟩ := collectDirty_front []
    (numDirtyInodesOf (s.inodeDirtyLfqueue v).getSize) last queue distinct unlocked
  have entry : ∀ i ∈ batch, (u.inodeTable i).volume = some v ∧ (u.inodeTable i).lbn < 2 ^ 32 := by
    intro i member
    rw [locked, if_pos member]
    exact ⟨owner i member, lows i member⟩
  have same : u.volumeTable = s.volumeTable ∧ u.inodeSyncLfqueue = s.inodeSyncLfqueue ∧
      u.inodeDirtyCount = s.inodeDirtyCount := by
    rw [frame]
    exact ⟨rfl, rfl, rfl⟩
  obtain ⟨t, written, _⟩ := writeBatches_returns (s := u) (v := v) (Nat.le_refl batch.length)
    (fun i member => (entry i member).1) (by rw [same.1]; exact fd)
    (fun i member => (entry i member).2) (by rw [full]; intro k; rw [same.2.1]; exact room k)
  obtain ⟨states, entered, counted⟩ := writeBatches_moved written
  have kept : t.inodeDirtyLfqueue = u.inodeDirtyLfqueue := by rw [writeBatches_frame written]
  refine ⟨t, ?_, by rw [kept, left], fun j => ?_, fun j => by rw [entered, same.2.1],
    by rw [counted, same.2.2, full]⟩
  · rw [nvmFlush_eq, writeSize, collected, Option.bind_some]
    have whole : (([] : List (InodeIdx N)) ++ batch).take
        (((([] : List (InodeIdx N)).length + batch.length : Nat) : Int)).toNat = batch := by
      rw [Int.toNat_natCast, List.length_nil, Nat.zero_add, List.nil_append, List.take_length]
    rw [whole]
    exact written
  · rw [states, locked]
    split <;> rfl

/-- A sync thread empties its queue. -/
theorem sync_empties (reach : (system C N cwd limit).ReachableBy GuardedStep s)
    (index : Fin defaultNumSyncer)
    (room : ∀ k, (s.inodeCleanLfqueue k).getSize + (s.inodeSyncLfqueue index).getSize ≤ N) :
    ∃ t, (system C N cwd limit).ReachableBy GuardedStep t ∧
      (t.inodeSyncLfqueue index).values = [] ∧
      (∀ k, k ≠ index → t.inodeSyncLfqueue k = s.inodeSyncLfqueue k) ∧
      (∀ j, t.inodeTable j = if j ∈ (s.inodeSyncLfqueue index).values then
        { s.inodeTable j with state := .clean, lock := false } else s.inodeTable j) ∧
      (∀ j, copies (contents t.inodeCleanLfqueue) j = copies (contents s.inodeCleanLfqueue) j +
        (s.inodeSyncLfqueue index).values.count j) ∧
      t = { s with
        inodeTable := t.inodeTable, inodeSyncLfqueue := t.inodeSyncLfqueue
        inodeCleanLfqueue := t.inodeCleanLfqueue, cleanQueueIdx := t.cleanQueueIdx } := by
  by_cases empty : (s.inodeSyncLfqueue index).values = []
  · exact ⟨s, reach, empty, fun _ _ => rfl, fun j => by simp [empty], fun j => by simp [empty], rfl⟩
  · obtain ⟨t, synced⟩ := syncLoop_returns (Nat.le_refl _) room
    obtain ⟨none, others, states, entered⟩ := nvmSync_moved synced
    exact ⟨t, reach.step (e := .sync index) (works_sync.mpr empty) synced, none, others, states,
      entered, syncLoop_frame synced⟩

/-- Both sync threads empty their queues. -/
theorem syncs_empty (reach : (system C N cwd limit).ReachableBy GuardedStep s)
    (room : poolSize (contents s.inodeCleanLfqueue) + poolSize (contents s.inodeSyncLfqueue) ≤ N) :
    ∃ t, (system C N cwd limit).ReachableBy GuardedStep t ∧
      (∀ j, copies (contents t.inodeSyncLfqueue) j = 0) ∧
      (∀ j, t.inodeTable j = if 0 < copies (contents s.inodeSyncLfqueue) j then
        { s.inodeTable j with state := .clean, lock := false } else s.inodeTable j) ∧
      (∀ j, copies (contents t.inodeCleanLfqueue) j = copies (contents s.inodeCleanLfqueue) j +
        copies (contents s.inodeSyncLfqueue) j) ∧
      t = { s with
        inodeTable := t.inodeTable, inodeSyncLfqueue := t.inodeSyncLfqueue
        inodeCleanLfqueue := t.inodeCleanLfqueue, cleanQueueIdx := t.cleanQueueIdx } := by
  have both : ∀ {x : State C N} j, copies (contents x.inodeSyncLfqueue) j =
      (x.inodeSyncLfqueue 0).values.count j + (x.inodeSyncLfqueue 1).values.count j := by
    intro x j
    rw [copies, Fin.sum_univ_two]
    rfl
  have sizes : poolSize (contents s.inodeSyncLfqueue) =
      (s.inodeSyncLfqueue 0).getSize + (s.inodeSyncLfqueue 1).getSize := by
    rw [poolSize, Fin.sum_univ_two]
    rfl
  obtain ⟨u, reachU, none, others, states, entered, frame⟩ := sync_empties reach 0 fun k => by
    have part : (s.inodeCleanLfqueue k).getSize ≤ _ :=
      length_le_poolSize (contents s.inodeCleanLfqueue) k
    omega
  have second := others 1 (by decide)
  have grown : poolSize (contents u.inodeCleanLfqueue) =
      poolSize (contents s.inodeCleanLfqueue) + (s.inodeSyncLfqueue 0).getSize := by
    rw [← sum_copies, ← sum_copies, Finset.sum_congr rfl fun j _ => entered j,
      Finset.sum_add_distrib, sum_count, LfQueue.getSize]
  obtain ⟨t, reachT, none', others', states', entered', frame'⟩ := sync_empties reachU 1 fun k => by
    have part : (u.inodeCleanLfqueue k).getSize ≤ _ :=
      length_le_poolSize (contents u.inodeCleanLfqueue) k
    rw [second]
    omega
  refine ⟨t, reachT, fun j => ?_, fun j => ?_, fun j => ?_, by rw [frame', frame]⟩
  · rw [both, none', others' 0 (by decide), none]
    rfl
  · rw [states', states, both, second]
    have member : 0 < (s.inodeSyncLfqueue 0).values.count j +
        (s.inodeSyncLfqueue 1).values.count j ↔
        j ∈ (s.inodeSyncLfqueue 0).values ∨ j ∈ (s.inodeSyncLfqueue 1).values := by
      rw [← List.count_pos_iff, ← List.count_pos_iff]
      omega
    by_cases early : j ∈ (s.inodeSyncLfqueue 0).values <;>
      by_cases late : j ∈ (s.inodeSyncLfqueue 1).values
    all_goals simp only [member, early, late, or_true, or_false, if_true, if_false]
  · rw [entered', entered, both, second]
    omega

end BurstBuffer.Source
