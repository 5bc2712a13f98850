import BurstBuffer.Invariants.FlushCollection

/-!
# What a flush collects

The loop of nvm_flush that dequeues and locks, on a dirty queue that nothing else
touches, for every outcome of its trylocks.
-/
namespace BurstBuffer.Guarantees

open Source

variable {α : Type} {capacity : Nat}

/-- The variables `t` behind the loop: it made at most one dequeue less than the
queue held values, `i_idxs[0 .. write_size)` are the dequeued values it could lock
in their order, and the others are back at the end of the queue. -/
structure Collected (queue : LfQueue α capacity) (results : List Bool)
    (t : CollectVars α capacity) : Prop where
  dequeues : t.dequeued.length ≤ queue.getSize - 1
  inOrder : t.dequeued = queue.values.take t.dequeued.length
  writeSize : t.writeSize = min (flushBatchSize : Int)
    ((queue.getSize : Int) - 1 - (results.take t.dequeued.length).count false)
  iIdxs : (List.ofFn t.iIdxs).take t.writeSize.toNat = (lockedOnes results t.dequeued).map some
  filled : (lockedOnes results t.dequeued).length = t.writeSize
  putBack : t.queue.values =
    queue.values.drop t.dequeued.length ++ refusedOnes results t.dequeued
  kept : (t.queue.values ++ lockedOnes results t.dequeued).Perm queue.values

section Collection

variable {queue : LfQueue α capacity} {results : List Bool}

theorem collected_of_ended {done rest : List Bool} {t : CollectVars α capacity}
    (several : 1 < queue.getSize) (collecting : Collecting queue done t)
    (ended : ¬ t.i < t.writeSize) (same : results = done ++ rest) :
    Collected queue results t := by
  have length := collecting.length
  have balance := collecting.balance
  have bound := collecting.bound
  have size := collecting.size
  have dirty := collecting.dirty
  have locks : lockedOnes results t.dequeued = lockedOnes done t.dequeued := by
    rw [same, lockedOnes_append length]
  have refusals : refusedOnes results t.dequeued = refusedOnes done t.dequeued := by
    rw [same, refusedOnes_append length]
  have full : t.writeSize = (lockedOnes done t.dequeued).length := by
    rw [collecting.locked]
    omega
  constructor
  · omega
  · rw [length]
    exact collecting.front
  · rw [same, length, List.take_left, size, dirty]
  · rw [locks, full, Int.toNat_natCast, collecting.locked]
    apply List.ext_getElem?
    intro k
    by_cases below : k < t.i
    · have inside : k < flushBatchSize := by omega
      rw [List.getElem?_take_of_lt below, List.getElem?_ofFn, dif_pos inside, List.getElem?_map,
        collecting.array k inside below,
        List.getElem?_eq_getElem (by rw [collecting.locked]; exact below)]
      rfl
    · rw [List.getElem?_eq_none, List.getElem?_eq_none]
      · rw [List.length_map, collecting.locked]
        omega
      · rw [List.length_take]
        omega
  · rw [locks, full]
  · rw [refusals, length]
    exact collecting.behind
  · rw [locks]
    exact collecting.kept

/-- A queue of more than `2 ^ 31` values makes `num_dirty_inodes` negative. -/
theorem numDirtyInodesOf_neg {size : Nat} (big : 2 ^ 31 < size) (bounded : size < 2 ^ 32) :
    numDirtyInodesOf size < 0 := by
  have wrapped : (size + (2 ^ 32 - 1)) % 2 ^ 32 = size - 1 := by omega
  rw [numDirtyInodesOf, wrapped, if_neg (by omega)]
  omega

theorem not_collected_of_big {t : CollectVars α capacity} (big : 2 ^ 31 < queue.getSize)
    (bounded : queue.getSize < 2 ^ 32)
    (looped : collectLoop results (collectStart queue) = some t) :
    ¬ Collected queue results t := by
  have negative := numDirtyInodesOf_neg big bounded
  have size : (collectStart queue).writeSize < 0 := by
    simp only [collectStart]
    rw [writeSizeOf]
    split <;> omega
  have ended : ¬ ((collectStart queue).i : Int) < (collectStart queue).writeSize := by
    have zero : (collectStart queue).i = 0 := by simp only [collectStart]
    omega
  unfold collectLoop at looped
  rw [if_neg ended] at looped
  cases looped
  intro collected
  have filled := collected.filled
  omega

end Collection

/-- With capacities of 32 bits, the loop collects as it should exactly when the size
of the queue, less one, fits in an `int`. -/
theorem flush_collects (α : Type) (capacity : Nat) (queue : LfQueue α capacity)
    (results : List Bool) (bounded : capacity < 2 ^ 32) (several : 1 < queue.getSize)
    (enough : queue.getSize ≤ results.length + 1) :
    (∃ t, collectLoop results (collectStart queue) = some t ∧ Collected queue results t) ↔
      queue.getSize ≤ 2 ^ 31 := by
  constructor
  · rintro ⟨t, looped, collected⟩
    by_contra big
    have fits : queue.getSize ≤ capacity := queue.fits
    exact not_collected_of_big (by omega) (by omega) looped collected
  · intro small
    have room : queue.getSize ≤ ([] : List Bool).length + results.length + 1 := by
      rw [List.length_nil]
      omega
    obtain ⟨t, done, rest, looped, collecting, ended, same⟩ :=
      (Collecting.start several small).loop room
    exact ⟨t, looped, collected_of_ended several collecting ended same⟩

/-- Of three dirty inodes one is left in the queue, and one is locked already. -/
theorem flush_collects_three : ∃ t : CollectVars (InodeIdx 3) 3,
    collectLoop [false, true] (collectStart ⟨[0, 1, 2], by decide⟩) = some t ∧
      Collected ⟨[0, 1, 2], by decide⟩ [false, true] t :=
  (flush_collects (InodeIdx 3) 3 ⟨[0, 1, 2], by decide⟩ [false, true] (by decide) (by decide)
    (by decide)).mpr (by decide)

/-- A dirty queue with all inodes. -/
def allDirty (N : Nat) : LfQueue (InodeIdx N) N :=
  ⟨List.finRange N, Nat.le_of_eq List.length_finRange⟩

theorem getSize_allDirty (N : Nat) : (allDirty N).getSize = N := List.length_finRange

/-- One inode more than an `int` counts. -/
theorem flush_collects_many : ¬ ∃ t : CollectVars (InodeIdx (2 ^ 31 + 1)) (2 ^ 31 + 1),
    collectLoop (List.replicate (2 ^ 31) true) (collectStart (allDirty (2 ^ 31 + 1))) = some t ∧
      Collected (allDirty (2 ^ 31 + 1)) (List.replicate (2 ^ 31) true) t := by
  rintro ⟨t, looped, collected⟩
  have size := getSize_allDirty (2 ^ 31 + 1)
  refine not_collected_of_big ?_ ?_ looped collected
  · rw [size]
    decide
  · rw [size]
    decide

end BurstBuffer.Guarantees
