import Mathlib.Data.List.OfFn
import BurstBuffer.Invariants.FlushStep

/-!
# The first loop of nvm_flush

While the loop has not filled `i_idxs[0 .. write_size)` there is a value left in
front of the queue that has not been dequeued yet: every failed trylock lowers
`write_size` together with the number of values left, or leaves it at the size of
the array while more values than that are left.
-/
namespace BurstBuffer.Source

variable {α : Type} {capacity : Nat}

/-- The values whose trylock succeeded. -/
def lockedOnes (results : List Bool) (dequeued : List α) : List α :=
  ((dequeued.zip results).filter fun p => p.2).map Prod.fst

/-- The values whose trylock failed. -/
def refusedOnes (results : List Bool) (dequeued : List α) : List α :=
  ((dequeued.zip results).filter fun p => !p.2).map Prod.fst

section Choice

variable {results : List Bool} {dequeued : List α}

theorem lockedOnes_concat (same : dequeued.length = results.length) (locked : Bool) (value : α) :
    lockedOnes (results ++ [locked]) (dequeued ++ [value]) =
      lockedOnes results dequeued ++ if locked then [value] else [] := by
  rw [lockedOnes, List.zip_append same, List.filter_append, List.map_append, ← lockedOnes]
  cases locked <;> rfl

theorem refusedOnes_concat (same : dequeued.length = results.length) (locked : Bool) (value : α) :
    refusedOnes (results ++ [locked]) (dequeued ++ [value]) =
      refusedOnes results dequeued ++ if locked then [] else [value] := by
  rw [refusedOnes, List.zip_append same, List.filter_append, List.map_append, ← refusedOnes]
  cases locked <;> rfl

/-- Only the results of the dequeues that were made matter. -/
theorem zip_results (same : dequeued.length = results.length) (more : List Bool) :
    dequeued.zip (results ++ more) = dequeued.zip results := by
  have joined : (dequeued ++ []).zip (results ++ more) =
      dequeued.zip results ++ ([] : List α).zip more := List.zip_append same
  rw [List.append_nil, List.zip_nil_left, List.append_nil] at joined
  exact joined

theorem lockedOnes_append (same : dequeued.length = results.length) (more : List Bool) :
    lockedOnes (results ++ more) dequeued = lockedOnes results dequeued := by
  rw [lockedOnes, zip_results same, ← lockedOnes]

theorem refusedOnes_append (same : dequeued.length = results.length) (more : List Bool) :
    refusedOnes (results ++ more) dequeued = refusedOnes results dequeued := by
  rw [refusedOnes, zip_results same, ← refusedOnes]

theorem lockedOnes_perm (same : dequeued.length = results.length) :
    (lockedOnes results dequeued ++ refusedOnes results dequeued).Perm dequeued := by
  have split :=
    (List.filter_append_perm (fun p : α × Bool => p.2) (dequeued.zip results)).map Prod.fst
  rw [List.map_append, List.map_fst_zip (Nat.le_of_eq same)] at split
  exact split

end Choice

/-- The loop after the trylocks `done`. -/
structure Collecting (queue : LfQueue α capacity) (done : List Bool)
    (s : CollectVars α capacity) : Prop where
  length : s.dequeued.length = done.length
  front : s.dequeued = queue.values.take done.length
  behind : s.queue.values = queue.values.drop done.length ++ refusedOnes done s.dequeued
  locked : (lockedOnes done s.dequeued).length = s.i
  balance : s.i + done.count false = done.length
  array : ∀ k (inside : k < flushBatchSize), k < s.i →
    s.iIdxs ⟨k, inside⟩ = (lockedOnes done s.dequeued)[k]?
  dirty : s.numDirtyInodes = (queue.getSize : Int) - 1 - done.count false
  size : s.writeSize = min (flushBatchSize : Int) s.numDirtyInodes
  bound : (s.i : Int) ≤ s.writeSize

namespace Collecting

variable {queue : LfQueue α capacity} {done results : List Bool} {s : CollectVars α capacity}

theorem numDirtyInodesOf_small {size : Nat} (several : 1 < size) (small : size ≤ 2 ^ 31) :
    numDirtyInodesOf size = (size : Int) - 1 := by
  have wrapped : (size + (2 ^ 32 - 1)) % 2 ^ 32 = size - 1 := by omega
  rw [numDirtyInodesOf, wrapped, if_pos (by omega)]
  omega

theorem start (several : 1 < queue.getSize) (small : queue.getSize ≤ 2 ^ 31) :
    Collecting queue [] (collectStart queue) := by
  have dirty := numDirtyInodesOf_small several small
  have size : writeSizeOf (numDirtyInodesOf queue.getSize) =
      min (flushBatchSize : Int) (numDirtyInodesOf queue.getSize) := by
    rw [writeSizeOf]
    split <;> omega
  constructor
  · rfl
  · rfl
  · simp [collectStart, refusedOnes]
  · rfl
  · rfl
  · intro k _ below
    exact absurd below (Nat.not_lt_zero k)
  · simpa [collectStart] using dirty
  · simpa only [collectStart] using size
  · simp only [collectStart]
    rw [size, dirty]
    omega

/-- While the loop runs, the queue still starts with a value it had before. -/
theorem not_exhausted (collecting : Collecting queue done s) (more : s.i < s.writeSize) :
    done.length + 1 < queue.getSize ∧ s.i < flushBatchSize := by
  have balance := collecting.balance
  have dirty := collecting.dirty
  have size := collecting.size
  omega

/-- One round. -/
theorem round (collecting : Collecting queue done s) (more : s.i < s.writeSize) (locked : Bool) :
    ∃ t, collectRound locked s = some t ∧ Collecting queue (done ++ [locked]) t := by
  obtain ⟨left, inside⟩ := collecting.not_exhausted more
  have here : done.length < queue.values.length := Nat.lt_of_succ_lt left
  have values := collecting.behind
  rw [List.drop_eq_getElem_cons here, List.cons_append] at values
  obtain ⟨rest, popped⟩ : ∃ rest, s.queue.dequeue = some (queue.values[done.length], rest) := by
    have fits := s.queue.fits
    rw [values, List.length_cons] at fits
    exact ⟨⟨_, Nat.le_of_succ_le fits⟩, LfQueue.dequeue_eq_some.mpr values⟩
  have tail : rest.values = queue.values.drop (done.length + 1) ++ refusedOnes done s.dequeued := by
    have both := LfQueue.dequeue_eq_some.mp popped
    rw [values] at both
    exact (List.cons.inj both).2.symm
  have front : s.dequeued ++ [queue.values[done.length]] =
      queue.values.take (done.length + 1) := by
    rw [collecting.front, List.take_append_getElem here]
  have balance := collecting.balance
  have dirty := collecting.dirty
  have size := collecting.size
  have bound := collecting.bound
  have locks := lockedOnes_concat collecting.length locked queue.values[done.length]
  have refusals := refusedOnes_concat collecting.length locked queue.values[done.length]
  rw [collectRound, popped]
  simp only [Option.bind_eq_bind, Option.bind_some, inside, dif_pos]
  cases locked with
  | true =>
    simp only [if_true] at locks refusals ⊢
    refine ⟨_, rfl, ?_⟩
    constructor
    · simp [collecting.length]
    · simpa using front
    · simpa [refusals] using tail
    · simp [locks, collecting.locked]
    · simp
      omega
    · intro k room below
      rw [locks]
      dsimp only at below ⊢
      by_cases last : k = s.i
      · subst last
        rw [Function.update_self, List.getElem?_append_right (by rw [collecting.locked]),
          collecting.locked]
        simp
      · have before : k < s.i := by omega
        have other : (⟨k, room⟩ : Fin flushBatchSize) ≠ ⟨s.i, inside⟩ := by
          simpa using last
        rw [Function.update_of_ne other, collecting.array k room before,
          List.getElem?_append_left (by rw [collecting.locked]; exact before)]
    · simpa using dirty
    · exact size
    · dsimp only
      omega
  | false =>
    have room : rest.values.length < capacity := by
      have fits := s.queue.fits
      rw [LfQueue.dequeue_eq_some.mp popped, List.length_cons] at fits
      exact fits
    obtain ⟨back, pushed, appended⟩ := LfQueue.enqueue_isSome queue.values[done.length] room
    rw [if_neg Bool.false_ne_true] at locks refusals
    simp only [Bool.false_eq_true, if_false, pushed, Option.bind_some]
    refine ⟨_, rfl, ?_⟩
    constructor
    · simp [collecting.length]
    · simpa using front
    · simp [refusals, appended, tail]
    · simp [locks, collecting.locked]
    · simp
      omega
    · intro k inside' below
      rw [locks, List.append_nil]
      dsimp only at below ⊢
      have other : (⟨k, inside'⟩ : Fin flushBatchSize) ≠ ⟨s.i, inside⟩ := by
        intro same
        have equal := congrArg Fin.val same
        dsimp only at equal
        omega
      rw [Function.update_of_ne other, collecting.array k inside' below]
    · simp
      omega
    · dsimp only
      split <;> omega
    · dsimp only
      split <;> omega

/-- The whole loop. -/
theorem loop (collecting : Collecting queue done s)
    (enough : queue.getSize ≤ done.length + results.length + 1) :
    ∃ t done' rest, collectLoop results s = some t ∧ Collecting queue done' t ∧
      ¬ t.i < t.writeSize ∧ done ++ results = done' ++ rest := by
  induction results generalizing done s with
  | nil =>
    have ended : ¬ s.i < s.writeSize := by
      intro more
      have left := (collecting.not_exhausted more).1
      rw [List.length_nil] at enough
      omega
    refine ⟨s, done, [], ?_, collecting, ended, rfl⟩
    rw [collectLoop, if_neg ended]
  | cons locked results ih =>
    by_cases more : s.i < s.writeSize
    · obtain ⟨t, first, next⟩ := collecting.round more locked
      rw [List.length_cons] at enough
      obtain ⟨u, done', rest, others, last, ended, same⟩ := ih next (by
        rw [List.length_append, List.length_singleton]
        omega)
      refine ⟨u, done', rest, ?_, last, ended, ?_⟩
      · rw [collectLoop, if_pos more]
        simp only [first, Option.bind_eq_bind, Option.bind_some]
        exact others
      · rw [← same, List.append_assoc]
        rfl
    · refine ⟨s, done, locked :: results, ?_, collecting, more, rfl⟩
      rw [collectLoop, if_neg more]

/-- A loop that ends ends as it should. -/
theorem of_ended {t : CollectVars α capacity} (collecting : Collecting queue done s)
    (looped : collectLoop results s = some t) :
    ∃ done', Collecting queue done' t ∧ ¬ t.i < t.writeSize := by
  induction results generalizing done s with
  | nil =>
    unfold collectLoop at looped
    split at looped
    · cases looped
    · rename_i ended
      cases looped
      exact ⟨done, collecting, ended⟩
  | cons locked results ih =>
    unfold collectLoop at looped
    split at looped
    · rename_i more
      obtain ⟨u, first, next⟩ := collecting.round more locked
      simp only [first, Option.bind_eq_bind, Option.bind_some] at looped
      exact ih next looped
    · rename_i ended
      cases looped
      exact ⟨done, collecting, ended⟩

/-- Nothing is lost or doubled. -/
theorem kept (collecting : Collecting queue done s) :
    (s.queue.values ++ lockedOnes done s.dequeued).Perm queue.values := by
  have both : (refusedOnes done s.dequeued ++ lockedOnes done s.dequeued).Perm
      (queue.values.take done.length) := by
    rw [← collecting.front]
    exact List.perm_append_comm.trans (lockedOnes_perm collecting.length)
  have whole := both.append_left (queue.values.drop done.length)
  rw [collecting.behind, List.append_assoc]
  apply whole.trans
  apply List.perm_append_comm.trans
  rw [List.take_append_drop]

end Collecting

section Locks

variable {C : CuckoohashMap} {N : Nat} {v : VolumeIdx} {iIdxs : List (InodeIdx N)}
  {numDirtyInodes writeSize : Int} {s : State C N}

/-- The loop in a state of the system, whose locks decide the trylocks. -/
structure SameLoop (v : VolumeIdx) (s : State C N) (iIdxs : List (InodeIdx N))
    (numDirtyInodes writeSize : Int) (u : CollectVars (InodeIdx N) N) : Prop where
  queue : u.queue = s.inodeDirtyLfqueue v
  i : u.i = iIdxs.length
  array : ∀ k (inside : k < flushBatchSize), k < iIdxs.length → u.iIdxs ⟨k, inside⟩ = iIdxs[k]?
  dirty : u.numDirtyInodes = numDirtyInodes
  size : u.writeSize = writeSize
  room : writeSize ≤ flushBatchSize

theorem SameLoop.start (v : VolumeIdx) (s : State C N) :
    SameLoop v s [] (numDirtyInodesOf (s.inodeDirtyLfqueue v).getSize)
      (writeSizeOf (numDirtyInodesOf (s.inodeDirtyLfqueue v).getSize))
      (collectStart (s.inodeDirtyLfqueue v)) := by
  constructor
  · rfl
  · rfl
  · intro k _ below
    exact absurd below (Nat.not_lt_zero k)
  · simp only [collectStart]
  · simp only [collectStart]
  · rw [writeSizeOf]
    split <;> omega

section Round

variable {u : CollectVars (InodeIdx N) N} {idx : InodeIdx N} {queue : LfQueue (InodeIdx N) N}

theorem SameLoop.again (same : SameLoop v s iIdxs numDirtyInodes writeSize u)
    (more : (iIdxs.length : Int) < writeSize) : u.i < u.writeSize ∧ u.i < flushBatchSize := by
  have i := same.i
  have size := same.size
  have room := same.room
  omega

/-- A round that locks. -/
theorem SameLoop.locked (same : SameLoop v s iIdxs numDirtyInodes writeSize u)
    (more : (iIdxs.length : Int) < writeSize)
    (popped : (s.inodeDirtyLfqueue v).dequeue = some (idx, queue)) {t : State C N}
    (queues : t.inodeDirtyLfqueue v = queue) :
    ∃ u', collectRound true u = some u' ∧
      SameLoop v t (iIdxs ++ [idx]) numDirtyInodes writeSize u' := by
  obtain ⟨_, inside⟩ := same.again more
  rw [← same.queue] at popped
  rw [collectRound, popped]
  simp only [Option.bind_eq_bind, Option.bind_some, inside, dif_pos, if_true]
  refine ⟨_, rfl, ?_⟩
  constructor
  · exact queues.symm
  · simp [same.i]
  · intro k room below
    dsimp only
    by_cases last : k = u.i
    · subst last
      rw [Function.update_self, same.i, List.getElem?_concat_length]
    · have before : k < iIdxs.length := by
        rw [List.length_append, List.length_singleton] at below
        have i := same.i
        omega
      have other : (⟨k, room⟩ : Fin flushBatchSize) ≠ ⟨u.i, inside⟩ := by
        simpa using last
      rw [Function.update_of_ne other, same.array k room before,
        List.getElem?_append_left before]
  · exact same.dirty
  · exact same.size
  · exact same.room

/-- A round that does not. -/
theorem SameLoop.refused (same : SameLoop v s iIdxs numDirtyInodes writeSize u)
    (more : (iIdxs.length : Int) < writeSize)
    (popped : (s.inodeDirtyLfqueue v).dequeue = some (idx, queue))
    {back : LfQueue (InodeIdx N) N} (pushed : queue.enqueue idx = some back) {t : State C N}
    (queues : t.inodeDirtyLfqueue v = back) :
    ∃ u', collectRound false u = some u' ∧
      SameLoop v t iIdxs (numDirtyInodes - 1)
        (if numDirtyInodes - 1 < flushBatchSize then writeSize - 1 else writeSize) u' := by
  obtain ⟨_, inside⟩ := same.again more
  rw [← same.queue] at popped
  rw [collectRound, popped]
  simp only [Option.bind_eq_bind, Option.bind_some, inside, dif_pos, Bool.false_eq_true, if_false,
    pushed]
  refine ⟨_, rfl, ?_⟩
  constructor
  · exact queues.symm
  · exact same.i
  · intro k room below
    have other : (⟨k, room⟩ : Fin flushBatchSize) ≠ ⟨u.i, inside⟩ := by
      intro equal
      have index := congrArg Fin.val equal
      dsimp only at index
      have i := same.i
      omega
    dsimp only
    rw [Function.update_of_ne other, same.array k room below]
  · dsimp only
    rw [same.dirty]
  · dsimp only
    rw [same.dirty, same.size]
  · have room := same.room
    split <;> omega

end Round

/-- The flush of the whole system takes this loop, for some trylock results. -/
theorem SameLoop.collectDirty {fuel : Nat} {r : List (InodeIdx N)} {w : Int} {t : State C N}
    {u : CollectVars (InodeIdx N) N} (same : SameLoop v s iIdxs numDirtyInodes writeSize u)
    (collected : collectDirty v fuel iIdxs numDirtyInodes writeSize s = some (r, w, t)) :
    ∃ results n u', collectLoop results u = some u' ∧ SameLoop v t r n w u' := by
  induction fuel generalizing iIdxs numDirtyInodes writeSize s u with
  | zero => cases collected
  | succ fuel ih =>
    rw [Source.collectDirty] at collected
    by_cases more : (iIdxs.length : Int) < writeSize
    · rw [if_pos more] at collected
      obtain ⟨⟨idx, queue⟩, popped, rest⟩ := Option.bind_eq_some_iff.mp collected
      dsimp only at rest
      have again := (same.again more).1
      split at rest
      · rename_i x locked
        have queues : x.inodeDirtyLfqueue v = queue := by
          rw [lockInode] at locked
          split at locked
          · cases locked
          · cases locked
            exact Function.update_self ..
        obtain ⟨u', first, next⟩ := same.locked more popped queues
        obtain ⟨results, n, u'', looped, last⟩ := ih next rest
        refine ⟨true :: results, n, u'', ?_, last⟩
        rw [collectLoop, if_pos again]
        simp only [first, Option.bind_eq_bind, Option.bind_some]
        exact looped
      · obtain ⟨back, pushed, rest⟩ := Option.bind_eq_some_iff.mp rest
        rw [Function.update_self] at pushed
        let queues := Function.update (Function.update s.inodeDirtyLfqueue v queue) v back
        obtain ⟨u', first, next⟩ := same.refused more popped pushed
          (t := { s with inodeDirtyLfqueue := queues }) (Function.update_self ..)
        obtain ⟨results, n, u'', looped, last⟩ := ih next rest
        refine ⟨false :: results, n, u'', ?_, last⟩
        rw [collectLoop, if_pos again]
        simp only [first, Option.bind_eq_bind, Option.bind_some]
        exact looped
    · rw [if_neg more] at collected
      cases collected
      refine ⟨[], numDirtyInodes, u, ?_, same⟩
      have ended : ¬ (u.i : Int) < u.writeSize := by
        rw [same.i, same.size]
        exact more
      rw [collectLoop, if_neg ended]

/-- What the first loop of a flush leaves in the queue and in `i_idxs` is what the
queue held before. -/
theorem nvmFlush_keeps {t : State C N} (several : 1 < (s.inodeDirtyLfqueue v).getSize)
    (small : (s.inodeDirtyLfqueue v).getSize ≤ 2 ^ 31) (flushed : nvmFlush v s = some t) :
    ∃ iIdxs u, writeBatches iIdxs.length iIdxs u = some t ∧
      ((u.inodeDirtyLfqueue v).values ++ iIdxs).Perm (s.inodeDirtyLfqueue v).values := by
  rw [nvmFlush_eq] at flushed
  obtain ⟨⟨iIdxs, writeSize, u⟩, collected, written⟩ := Option.bind_eq_some_iff.mp flushed
  obtain ⟨results, n, x, looped, same⟩ := (SameLoop.start v s).collectDirty collected
  obtain ⟨done, collecting, ended⟩ := (Collecting.start several small).of_ended looped
  have bound := collecting.bound
  have full : iIdxs.length = writeSize.toNat := by
    have i := same.i
    have size := same.size
    omega
  have inside : x.i ≤ flushBatchSize := by
    have room := same.room
    have size := same.size
    omega
  have locks : lockedOnes done x.dequeued = iIdxs := by
    apply List.ext_getElem?
    intro k
    by_cases below : k < x.i
    · have listed := collecting.array k (by omega) below
      rw [same.array k (by omega) (same.i ▸ below)] at listed
      exact listed.symm
    · rw [List.getElem?_eq_none (by rw [collecting.locked]; omega),
        List.getElem?_eq_none (by rw [← same.i]; omega)]
  have whole := collecting.kept
  rw [same.queue, locks] at whole
  rw [List.take_of_length_le (Nat.le_of_eq full)] at written
  exact ⟨iIdxs, u, written, whole⟩

end Locks

end BurstBuffer.Source
