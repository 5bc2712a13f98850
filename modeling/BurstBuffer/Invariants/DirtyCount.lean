import BurstBuffer.Invariants.CallBlocks
import BurstBuffer.Invariants.HandOff

/-!
# The count of dirty inodes

A writer counts up before it enqueues, a flusher counts down after it has dequeued. Whoever
races for what, the count is that of the entries of the dirty queues and of those on their way.
-/
namespace BurstBuffer.Source

open Library

section Places

variable {N S : Nat}

/-- The inode the writer has counted as dirty and not yet enqueued. -/
def WriterPc.counted : WriterPc N → List (InodeIdx N)
  | .enqueue r => [r.inode]
  | _ => []

/-- The inodes the flusher has dequeued and not yet counted down. -/
def FlusherPc.counted : FlusherPc N S → List (InodeIdx N)
  | .idle => []
  | .collect iIdxs _ _ => iIdxs
  | .tryLock iIdxs _ _ idx | .enqueueAgain iIdxs _ _ idx => idx :: iIdxs
  | .write rest => rest
  | .handOff batch rest | .storeSync _ batch rest | .nextQueue _ batch rest
  | .enqueue _ _ batch rest => batch ++ rest

end Places

variable {W : Type} {N S : Nat} [Fintype W]

structure DirtyTally (s : ThreadState W N S) : Prop where
  sized : ∀ v, (s.flusher v).Sized
  count : s.dirtyCount = poolSize (contents s.dirtyQueue) +
    poolSize (fun v => (s.flusher v).counted) + poolSize (fun w => (s.writer w).counted)

namespace DirtyTally

variable {s t : ThreadState W N S}

theorem start (start : ThreadStart s) (count : s.dirtyCount = 0) : DirtyTally s := by
  obtain ⟨writers, flushers, _⟩ := start.idle
  refine ⟨fun v => ?_, ?_⟩
  · rw [flushers]
    trivial
  · have queued : poolSize (contents s.dirtyQueue) = 0 :=
      poolSize_eq_zero.mpr fun v => by rw [contents, start.queues.1 v]; rfl
    have flushed : poolSize (fun v => (s.flusher v).counted) = 0 :=
      poolSize_eq_zero.mpr fun v => by rw [flushers]; rfl
    have written : poolSize (fun w => (s.writer w).counted) = 0 :=
      poolSize_eq_zero.mpr fun w => by rw [writers]; rfl
    omega

/-- A step of the flusher of volume `v`, from what it does to its queue and the count. -/
theorem of_flusher (ok : DirtyTally s) {u : ThreadState W N S} {v : VolumeIdx} {pc : FlusherPc N S}
    (pcs : u.writer = s.writer ∧ u.flusher = s.flusher) (sized : pc.Sized)
    (count : u.dirtyCount + poolSize (contents s.dirtyQueue) + (s.flusher v).counted.length =
      s.dirtyCount + poolSize (contents u.dirtyQueue) + pc.counted.length) :
    DirtyTally (u.toFlusher v pc) := by
  obtain ⟨writers, flushers⟩ := pcs
  refine ⟨fun x => ?_, ?_⟩
  · simp only [ThreadState.toFlusher, flushers]
    by_cases here : x = v
    · subst here
      rw [Function.update_self]
      exact sized
    · rw [Function.update_of_ne here]
      exact ok.sized x
  · have moved := poolSize_goto FlusherPc.counted s.flusher v pc
    have before := ok.count
    simp only [ThreadState.toFlusher, writers, flushers] at before ⊢
    omega

theorem flusher_goto (ok : DirtyTally s) {u : ThreadState W N S} {v : VolumeIdx}
    {before pc : FlusherPc N S} (was : s.flusher v = before)
    (pcs : u.writer = s.writer ∧ u.flusher = s.flusher) (queues : u.dirtyQueue = s.dirtyQueue)
    (count : u.dirtyCount = s.dirtyCount) (sized : pc.Sized)
    (counted : pc.counted.length = before.counted.length) : DirtyTally (u.toFlusher v pc) := by
  subst was
  refine ok.of_flusher pcs sized ?_
  rw [queues, count, counted]

theorem count_pos (ok : DirtyTally s) {v : VolumeIdx} (holding : (s.flusher v).counted ≠ []) :
    0 < s.dirtyCount := by
  have mine := length_le_poolSize (fun v => (s.flusher v).counted) v
  have present := List.length_pos_of_ne_nil holding
  have count := ok.count
  omega

theorem drain_step [NeZero S] (ok : DirtyTally s) {lbn : InodeIdx N → Nat}
    {volume : InodeIdx N → Option VolumeIdx} {v : VolumeIdx}
    (step : drainNext lbn volume v s = some t) : DirtyTally t := by
  have sized := ok.sized v
  cases pc : s.flusher v with
  | idle =>
    simp only [drainNext, pc, flusherNext] at step
    cases step
    exact ok.flusher_goto pc ⟨rfl, rfl⟩ rfl rfl (Nat.zero_le _) rfl
  | collect iIdxs numDirtyInodes writeSize =>
    rw [pc] at sized
    simp only [drainNext, pc, flusherNext] at step
    split at step
    · rename_i more
      obtain ⟨⟨idx, queue⟩, popped, rfl⟩ := Option.map_eq_some_iff.mp step
      have taken := poolSize_dequeue popped
      refine ok.of_flusher ⟨rfl, rfl⟩ more ?_
      rw [pc]
      simp only [FlusherPc.counted, List.length_cons]
      omega
    · cases step
      refine ok.flusher_goto pc ⟨rfl, rfl⟩ rfl rfl trivial ?_
      rw [FlusherPc.counted, List.take_of_length_le sized]
      rfl
  | tryLock iIdxs numDirtyInodes writeSize idx =>
    rw [pc] at sized
    have less : (iIdxs.length : Int) < writeSize := sized
    simp only [drainNext, pc, flusherNext] at step
    split at step <;> cases step
    · exact ok.flusher_goto pc ⟨rfl, rfl⟩ rfl rfl less rfl
    · refine ok.flusher_goto pc ⟨rfl, rfl⟩ rfl rfl ?_ ?_
      · simp only [FlusherPc.Sized, List.length_append, List.length_singleton]
        omega
      · simp only [FlusherPc.counted, List.length_append, List.length_cons, List.length_nil]
  | enqueueAgain iIdxs numDirtyInodes writeSize idx =>
    rw [pc] at sized
    have less : (iIdxs.length : Int) < writeSize := sized
    simp only [drainNext, pc, flusherNext] at step
    obtain ⟨queue, pushed, rfl⟩ := Option.map_eq_some_iff.mp step
    have added := poolSize_enqueue pushed
    refine ok.of_flusher ⟨rfl, rfl⟩ ?_ ?_
    · simp only [FlusherPc.Sized]
      split <;> omega
    · rw [pc]
      simp only [FlusherPc.counted, List.length_cons]
      omega
  | write rest =>
    cases rest with
    | nil =>
      simp only [drainNext, pc, flusherNext] at step
      cases step
      exact ok.flusher_goto pc ⟨rfl, rfl⟩ rfl rfl trivial rfl
    | cons start rest =>
      simp only [drainNext, pc] at step
      obtain ⟨_, _, rfl⟩ := Option.map_eq_some_iff.mp step
      exact ok.flusher_goto pc ⟨rfl, rfl⟩ rfl rfl trivial
        (congrArg List.length (List.take_append_drop _ _))
  | handOff batch rest =>
    cases batch with
    | nil =>
      simp only [drainNext, pc, flusherNext] at step
      cases step
      exact ok.flusher_goto pc ⟨rfl, rfl⟩ rfl rfl trivial rfl
    | cons idx batch =>
      have positive := ok.count_pos (v := v) (by rw [pc]; exact List.cons_ne_nil _ _)
      simp only [drainNext, pc, flusherNext] at step
      cases step
      refine ok.of_flusher ⟨rfl, rfl⟩ trivial ?_
      rw [pc]
      simp only [FlusherPc.counted, List.cons_append, List.length_cons]
      omega
  | storeSync idx batch rest | nextQueue idx batch rest =>
    simp only [drainNext, pc, flusherNext] at step
    cases step
    exact ok.flusher_goto pc ⟨rfl, rfl⟩ rfl rfl trivial rfl
  | enqueue idx k batch rest =>
    simp only [drainNext, pc, flusherNext] at step
    obtain ⟨_, _, rfl⟩ := Option.map_eq_some_iff.mp step
    exact ok.flusher_goto pc ⟨rfl, rfl⟩ rfl rfl trivial rfl

theorem of_others (ok : DirtyTally s) (pcs : t.writer = s.writer ∧ t.flusher = s.flusher)
    (queues : t.dirtyQueue = s.dirtyQueue) (count : t.dirtyCount = s.dirtyCount) :
    DirtyTally t := by
  obtain ⟨writers, flushers⟩ := pcs
  refine ⟨fun v => ?_, ?_⟩
  · rw [flushers]
    exact ok.sized v
  · rw [count, queues, writers, flushers]
    exact ok.count

variable [DecidableEq W]

/-- A step of writer `w`, from what it does to the queues and the count. -/
theorem of_writer (ok : DirtyTally s) {u : ThreadState W N S} {w : W} {pc : WriterPc N}
    (pcs : u.writer = s.writer ∧ u.flusher = s.flusher)
    (count : u.dirtyCount + poolSize (contents s.dirtyQueue) + (s.writer w).counted.length =
      s.dirtyCount + poolSize (contents u.dirtyQueue) + pc.counted.length) :
    DirtyTally (u.toWriter w pc) := by
  obtain ⟨writers, flushers⟩ := pcs
  refine ⟨fun v => ?_, ?_⟩
  · simp only [ThreadState.toWriter, flushers]
    exact ok.sized v
  · have moved := poolSize_goto WriterPc.counted s.writer w pc
    have before := ok.count
    simp only [ThreadState.toWriter, writers, flushers] at before ⊢
    omega

theorem writer_goto (ok : DirtyTally s) {u : ThreadState W N S} {w : W} {before pc : WriterPc N}
    (was : s.writer w = before) (pcs : u.writer = s.writer ∧ u.flusher = s.flusher)
    (queues : u.dirtyQueue = s.dirtyQueue) (count : u.dirtyCount = s.dirtyCount)
    (counted : pc.counted = before.counted) : DirtyTally (u.toWriter w pc) := by
  subst was
  refine ok.of_writer pcs ?_
  rw [queues, count, counted]

theorem block_step (ok : DirtyTally s) {volume : InodeIdx N → Option VolumeIdx} {v : VolumeIdx}
    {w : W} (step : blockNext volume v w s = some t) : DirtyTally t := by
  cases pc : s.writer w with
  | idle | lockNode | unlockNode =>
    simp only [blockNext, pc] at step
    cases step
  | lockInode r =>
    simp only [blockNext, pc, writerNext] at step
    split at step <;> cases step
    exact ok.writer_goto pc ⟨rfl, rfl⟩ rfl rfl rfl
  | readState r | storeDirty r old | unlockInode r =>
    simp only [blockNext, pc, writerNext] at step
    cases step
    exact ok.writer_goto pc ⟨rfl, rfl⟩ rfl rfl rfl
  | writeData r old =>
    simp only [blockNext, pc] at step
    obtain ⟨_, _, rfl⟩ := Option.map_eq_some_iff.mp step
    exact ok.writer_goto pc ⟨rfl, rfl⟩ rfl rfl rfl
  | countDirty r old =>
    simp only [blockNext, pc, writerNext] at step
    split at step <;> cases step
    · refine ok.of_writer ⟨rfl, rfl⟩ ?_
      rw [pc]
      simp only [WriterPc.counted, List.length_singleton, List.length_nil]
      omega
    · exact ok.writer_goto pc ⟨rfl, rfl⟩ rfl rfl rfl
  | enqueue r =>
    simp only [blockNext, pc, writerNext] at step
    obtain ⟨queue, pushed, rfl⟩ := Option.map_eq_some_iff.mp step
    have added := poolSize_enqueue pushed
    refine ok.of_writer ⟨rfl, rfl⟩ ?_
    rw [pc]
    simp only [WriterPc.counted, List.length_singleton, List.length_nil]
    omega

end DirtyTally

omit [Fintype W] in
/-- A writer that takes a step in its block has been asked for one. -/
theorem asked_of_block [DecidableEq W] {s t : ThreadState W N S}
    {volume : InodeIdx N → Option VolumeIdx} {v : VolumeIdx} {w : W}
    (step : blockNext volume v w s = some t) : ∃ r, (s.writer w).request = some r := by
  cases pc : s.writer w with
  | idle =>
    simp only [blockNext, pc] at step
    cases step
  | _ => exact ⟨_, rfl⟩

omit [Fintype W] in
theorem syncerNext_others {s t : ThreadState W N S} {k : Fin S} (step : syncerNext k s = some t) :
    t.writer = s.writer ∧ t.flusher = s.flusher ∧ t.dirtyQueue = s.dirtyQueue ∧
      t.dirtyCount = s.dirtyCount := by
  unfold syncerNext at step
  repeat' split at step
  all_goals
    first
      | cases step
        exact ⟨rfl, rfl, rfl, rfl⟩
      | obtain ⟨_, _, rfl⟩ := Option.map_eq_some_iff.mp step
        exact ⟨rfl, rfl, rfl, rfl⟩

omit [Fintype W] in
theorem drainNext_writer [NeZero S] {s t : ThreadState W N S} {lbn : InodeIdx N → Nat}
    {volume : InodeIdx N → Option VolumeIdx} {v : VolumeIdx}
    (step : drainNext lbn volume v s = some t) : t.writer = s.writer := by
  unfold drainNext flusherNext at step
  repeat' split at step
  all_goals
    first
      | cases step
        rfl
      | obtain ⟨_, _, rfl⟩ := Option.map_eq_some_iff.mp step
        rfl

variable {C : CuckoohashMap} [DecidableEq W] {s t : CallState C W N S}

/-- A call outside its block has no writer at work. -/
structure DirtyCounted (s : CallState C W N S) : Prop where
  quiet : ∀ w, (s.call w).inside = false → s.core.writer w = .idle
  tally : DirtyTally s.core

namespace DirtyCounted

omit [DecidableEq W] in
theorem start (start : CallStart s) : DirtyCounted s :=
  ⟨fun w _ => start.core.idle.1 w, .start start.core start.counts.2⟩

/-- A step of a call outside its block. -/
theorem outside_step (ok : DirtyCounted s) {u : CallState C W N S} {w : W} {before pc : CallPc N}
    (was : s.call w = before) (started : before.inside = false) (calls : u.call = s.call)
    (core : u.core = s.core) : DirtyCounted (u.toCall w pc) := by
  subst was
  have core' : (u.toCall w pc).core = s.core := core
  refine ⟨fun x outside => ?_, core' ▸ ok.tally⟩
  rw [core']
  by_cases here : x = w
  · subst here
    exact ok.quiet x started
  · rw [u.toCall_other here, calls] at outside
    exact ok.quiet x outside

/-- The writer of `w` begins or ends a block. -/
theorem writer_step (ok : DirtyCounted s) {u : CallState C W N S} {w : W} {pc : CallPc N}
    {next : WriterPc N} (calls : u.call = s.call) (core : u.core = s.core.toWriter w next)
    (counted : (s.core.writer w).counted = [] ∧ next.counted = [])
    (idle : pc.inside = false → next = .idle) : DirtyCounted (u.toCall w pc) := by
  have core' : (u.toCall w pc).core = s.core.toWriter w next := core
  refine ⟨fun x outside => ?_, ?_⟩
  · rw [core']
    by_cases here : x = w
    · subst here
      rw [CallState.toCall_self] at outside
      rw [ThreadState.toWriter_self]
      exact idle outside
    · rw [u.toCall_other here, calls] at outside
      rw [s.core.toWriter_other here]
      exact ok.quiet x outside
  · rw [core']
    exact ok.tally.writer_goto rfl ⟨rfl, rfl⟩ rfl rfl (counted.2.trans counted.1.symm)

theorem call_step [NeZero S] (ok : DirtyCounted s) {w : W} {request : Call}
    (step : callNext w request s = some t) : DirtyCounted t := by
  cases pc : s.call w with
  | idle =>
    simp only [callNext, pc] at step
    split at step
    · cases step
      exact ok.outside_step pc rfl rfl rfl
    · cases step
  | isEnough c found =>
    simp only [callNext, pc] at step
    split at step <;> cases step <;> exact ok.outside_step pc rfl rfl rfl
  | lockNode c p fresh =>
    simp only [callNext, pc] at step
    split at step <;> cases step
    exact ok.outside_step pc rfl rfl rfl
  | search | nextFree | storeKey | uncount =>
    simp only [callNext, pc] at step
    cases step
    exact ok.outside_step pc rfl rfl rfl
  | recheck c p | release c p =>
    simp only [callNext, pc] at step
    cases step
    exact ok.outside_step pc rfl rfl rfl
  | isValid c found | publish c found =>
    cases found with
    | none =>
      simp only [callNext, pc] at step
      cases step
      exact ok.outside_step pc rfl rfl rfl
    | some p =>
      simp only [callNext, pc] at step
      split at step <;> cases step <;> exact ok.outside_step pc rfl rfl rfl
  | dequeue c found k =>
    simp only [callNext, pc] at step
    obtain ⟨_, _, rfl⟩ := Option.map_eq_some_iff.mp step
    exact ok.outside_step pc rfl rfl rfl
  | readInode c p =>
    simp only [callNext, pc] at step
    obtain ⟨i, _, rfl⟩ := Option.map_eq_some_iff.mp step
    have idle := ok.quiet w (by rw [pc]; rfl)
    exact ok.writer_step rfl rfl ⟨by rw [idle]; rfl, rfl⟩ (by rintro ⟨⟩)
  | inBlock c p =>
    simp only [callNext, pc] at step
    split at step
    · rename_i r last
      cases step
      exact ok.writer_step rfl rfl ⟨by rw [last]; rfl, rfl⟩ fun _ => rfl
    · obtain ⟨core, next, rfl⟩ := Option.map_eq_some_iff.mp step
      refine ⟨fun x outside => ?_, ok.tally.block_step next⟩
      have other : x ≠ w := by
        rintro rfl
        rw [pc] at outside
        cases outside
      obtain ⟨r, asked⟩ := asked_of_block next
      exact ((block_effect asked next).writers x other).trans (ok.quiet x outside)

theorem next [NeZero S] (ok : DirtyCounted s) {e : CallEvent W S}
    (step : callsNext s e = some t) : DirtyCounted t := by
  cases e with
  | call w c => exact ok.call_step step
  | flusher v =>
    obtain ⟨core, next, rfl⟩ := Option.map_eq_some_iff.mp step
    refine ⟨fun w outside => ?_, ok.tally.drain_step next⟩
    rw [drainNext_writer next]
    exact ok.quiet w outside
  | syncer k =>
    obtain ⟨core, next, rfl⟩ := Option.map_eq_some_iff.mp step
    obtain ⟨writers, flushers, queues, count⟩ := syncerNext_others next
    refine ⟨fun w outside => ?_, ok.tally.of_others ⟨writers, flushers⟩ queues count⟩
    rw [writers]
    exact ok.quiet w outside
  | balloon b =>
    obtain ⟨_, _, calls, ⟨_, core⟩ | ⟨_, _, _, core⟩⟩ := balloonNext_core step
    · refine ⟨fun w outside => ?_, ?_⟩
      · rw [calls] at outside
        rw [core]
        exact ok.quiet w outside
      · rw [core]
        exact ok.tally.of_others ⟨rfl, rfl⟩ rfl rfl
    · refine ⟨fun w outside => ?_, ?_⟩
      · rw [calls] at outside
        rw [core]
        exact ok.quiet w outside
      · rw [core]
        exact ok.tally.of_others ⟨rfl, rfl⟩ rfl rfl

theorem of_reachable [NeZero S] (reach : (dealtCalls C W N S).Reachable s) : DirtyCounted s :=
  reach.invariant (I := DirtyCounted) (fun _ (initial : DealtStart _) => .start initial.start)
    fun _ _ _ _ ok step => ok.next step

end DirtyCounted

end BurstBuffer.Source
