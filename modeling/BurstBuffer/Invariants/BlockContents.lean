import BurstBuffer.Invariants.CleanDurable

/-!
# What the steps of Threads do to blocks and files

A writer changes the bytes of one inode, once. A flusher changes the cached files where its
inodes belong, a sync thread the disk.
-/
namespace BurstBuffer.Source

open Library

/-- The writer is about to copy its data. -/
def WriterPc.copying {N : Nat} : WriterPc N → Bool
  | .writeData _ _ => true
  | .idle | .lockNode _ | .lockInode _ | .readState _ | .storeDirty _ _ | .countDirty _ _
  | .enqueue _ | .unlockInode _ | .unlockNode _ => false

variable {W : Type} {N S : Nat} {a : Assignment N} {s t : ThreadState W N S}

section Writers

variable [DecidableEq W]

/-- A step of a writer that is not about to lock or unlock a node. -/
inductive BlockMove (s t : ThreadState W N S) (w : W) (r : Request N) : Prop where
  | dirty (oldState : InodeState) (here : s.writer w = .storeDirty r oldState)
      (next : t.writer w = .writeData r oldState)
      (state : t.state = Function.update s.state r.inode .dirty) (blocks : t.blockOf = s.blockOf)
  | data (oldState : InodeState) (here : s.writer w = .writeData r oldState)
      (next : t.writer w = .countDirty r oldState) (state : t.state = s.state)
      (bytes : ∀ k : Fin blockSize, k.val < r.localCount → t.blockOf r.inode k = r.buf k.val)
      (others : ∀ j, j ≠ r.inode → t.blockOf j = s.blockOf j)
  | other (here : (s.writer w).copying = false) (next : (t.writer w).copying = false)
      (state : t.state = s.state) (blocks : t.blockOf = s.blockOf)

theorem BlockMove.of_goto {u : ThreadState W N S} {w : W} {r : Request N} {before pc : WriterPc N}
    (was : s.writer w = before) (here : before.copying = false) (next : pc.copying = false)
    (state : u.state = s.state) (blocks : u.blockOf = s.blockOf) :
    BlockMove s (u.toWriter w pc) w r := by
  subst was
  exact .other here (by rw [ThreadState.toWriter_self]; exact next) state blocks

theorem writer_move {w : W} {r : Request N} (asked : (s.writer w).request = some r)
    (low : r.inode.val < 2 ^ 26)
    (owned : Function.Injective (Sum.elim s.blockIndex s.volumeBlock))
    (step : writerNext a w r s = some t) : BlockMove s t w r := by
  cases pc : s.writer w with
  | idle =>
    rw [pc] at asked
    cases asked
  | lockNode q | lockInode q =>
    simp only [writerNext, pc] at step
    split at step
    · cases step
    · cases step
      exact .of_goto pc rfl rfl rfl rfl
  | readState q | unlockInode q | unlockNode q =>
    simp only [writerNext, pc] at step
    cases step
    exact .of_goto pc rfl rfl rfl rfl
  | storeDirty q oldState =>
    rw [pc] at asked
    cases asked
    simp only [writerNext, pc] at step
    cases step
    exact .dirty oldState pc (ThreadState.toWriter_self _ _ _) rfl rfl
  | writeData q oldState =>
    rw [pc] at asked
    cases asked
    simp only [writerNext, pc, inodeIdxOfPointer_of_lt low] at step
    cases step
    refine .data oldState pc (ThreadState.toWriter_self _ _ _) rfl (fun k inside => ?_)
      fun j other => Durability.blockOf_writeThreadData owned other r.buf r.localCount
    simp [ThreadState.blockOf, ThreadState.toWriter, writeThreadData, memcpy, inside]
  | countDirty q oldState =>
    simp only [writerNext, pc] at step
    split at step <;> cases step <;> exact .of_goto pc rfl rfl rfl rfl
  | enqueue q =>
    simp only [writerNext, pc] at step
    obtain ⟨_, _, rfl⟩ := Option.map_eq_some_iff.mp step
    exact .of_goto pc rfl rfl rfl rfl

theorem writer_files {w : W} {r : Request N} (step : writerNext a w r s = some t) :
    t.durable = s.durable ∧ t.cache = s.cache := by
  unfold writerNext at step
  repeat' split at step
  all_goals
    first
      | exact absurd step (Option.some_ne_none t).symm
      | cases step
        exact ⟨rfl, rfl⟩
      | obtain ⟨_, _, rfl⟩ := Option.map_eq_some_iff.mp step
        exact ⟨rfl, rfl⟩

end Writers

/-- A flusher only writes where the inodes it has locked belong. -/
theorem flusher_contents [NeZero S] (low : ∀ i, a.lbn i < 2 ^ 32 - 1) {v : VolumeIdx}
    (home : ∀ i ∈ (s.flusher v).dirties, a.volume i = v) (step : flusherNext a v s = some t) :
    t.blockOf = s.blockOf ∧ t.durable = s.durable ∧
      ∀ u lbn, (∀ i ∈ (s.flusher v).dirties, ¬ (a.volume i = u ∧ a.lbn i = lbn)) →
        readBlock blockSize (t.cache u) lbn = readBlock blockSize (s.cache u) lbn := by
  cases pc : s.flusher v with
  | write rest =>
    rw [pc] at home
    cases rest with
    | nil =>
      simp only [flusherNext, pc] at step
      cases step
      exact ⟨rfl, rfl, fun _ _ _ => rfl⟩
    | cons start rest =>
      simp only [flusherNext, pc] at step
      cases step
      refine ⟨rfl, rfl, fun u lbn apart => ?_⟩
      by_cases here : u = a.volume start
      · subst here
        simp only [ThreadState.toFlusher, pwritevThread, Function.update_self]
        refine readBlock_writeRun_other _ (fun k i => batch_lbn fun j _ => low j) fun i member => ?_
        have mine := List.mem_of_mem_take member
        intro same
        exact apart i mine ⟨(home i mine).trans (home start List.mem_cons_self).symm, same⟩
      · simp only [ThreadState.toFlusher, pwritevThread, Function.update_of_ne here]
  | handOff batch rest =>
    cases batch <;> simp only [flusherNext, pc] at step <;> cases step <;>
      exact ⟨rfl, rfl, fun _ _ _ => rfl⟩
  | idle | storeSync | nextQueue =>
    simp only [flusherNext, pc] at step
    cases step
    exact ⟨rfl, rfl, fun _ _ _ => rfl⟩
  | collect | tryLock =>
    simp only [flusherNext, pc] at step
    split at step
    all_goals
      first
        | cases step
          exact ⟨rfl, rfl, fun _ _ _ => rfl⟩
        | obtain ⟨_, _, rfl⟩ := Option.map_eq_some_iff.mp step
          exact ⟨rfl, rfl, fun _ _ _ => rfl⟩
  | enqueueAgain | enqueue =>
    simp only [flusherNext, pc] at step
    obtain ⟨_, _, rfl⟩ := Option.map_eq_some_iff.mp step
    exact ⟨rfl, rfl, fun _ _ _ => rfl⟩

/-- A sync thread writes no block and no file; what it puts on disk is what is cached. -/
theorem syncer_contents {k : Fin S} (step : syncerNext k s = some t) :
    t.blockOf = s.blockOf ∧ t.cache = s.cache ∧
      (t.durable = s.durable ∨ t.durable = s.cache) := by
  unfold syncerNext at step
  repeat' split at step
  all_goals
    first
      | cases step
        exact ⟨rfl, rfl, .inl rfl⟩
      | cases step
        exact ⟨rfl, rfl, .inr rfl⟩
      | obtain ⟨_, _, rfl⟩ := Option.map_eq_some_iff.mp step
        exact ⟨rfl, rfl, .inl rfl⟩

end BurstBuffer.Source
