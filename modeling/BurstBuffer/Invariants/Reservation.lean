import BurstBuffer.Invariants.CallEffects
import BurstBuffer.Invariants.FreeQueues
import BurstBuffer.Library.RoundRobin

/-!
# Free inodes that calls have been promised

Between isFreeLFQueueEnough and the dequeue a call has taken no inode yet, and the count of
free inodes lags behind the queues: a call counts down after its dequeue, a balloon thread
counts up before its enqueue. Tickets for the queues go round.
-/
namespace BurstBuffer.Source

open Library

section Places

variable {N : Nat}

namespace CallPc

/-- The queue the call dequeues from next. -/
def tickets : CallPc N → List (Fin defaultNumFree)
  | .dequeue _ _ k => [k]
  | _ => []

/-- The inode it has dequeued and not counted down. -/
def uncounted : CallPc N → List (InodeIdx N)
  | .storeKey _ _ idx | .uncount _ _ idx => [idx]
  | _ => []

/-- The block for which it has found enough free inodes, until it counts one down. -/
def promised : CallPc N → List Call
  | .nextFree c _ | .dequeue c _ _ | .storeKey c _ _ | .uncount c _ _ => [c]
  | _ => []

theorem length_promised (pc : CallPc N) :
    pc.tickets.length + pc.uncounted.length ≤ pc.promised.length ∧ pc.promised.length ≤ 1 := by
  cases pc <;> simp [tickets, uncounted, promised]

end CallPc

namespace BalloonPc

/-- The queue the balloon thread enqueues to next. -/
def tickets : BalloonPc N → List (Fin defaultNumFree)
  | .enqueue _ _ k => [k]
  | _ => []

/-- The inode it has counted up and not enqueued. -/
def counted : BalloonPc N → List (InodeIdx N)
  | .nextQueue idx _ | .enqueue idx _ _ => [idx]
  | _ => []

theorem length_counted (pc : BalloonPc N) :
    pc.tickets.length ≤ pc.counted.length ∧ pc.counted.length ≤ 1 := by
  cases pc <;> simp [tickets, counted]

end BalloonPc

end Places

theorem two_queues (k : Fin defaultNumFree) :
    ∃ j, ∀ f : Fin defaultNumFree → Nat, ∑ i, f i = f k + f j := by
  revert k
  rw [Fin.forall_fin_two]
  exact ⟨⟨1, Fin.sum_univ_two⟩, ⟨0, fun f => (Fin.sum_univ_two f).trans (Nat.add_comm _ _)⟩⟩

variable {C : CuckoohashMap} {W : Type} {N S : Nat} [Fintype W]

structure Reserved (s : CallState C W N S) : Prop where
  queues : ∀ k : Fin defaultNumFree, (s.freeQueue k).values.length +
      turns defaultNumFree k s.freeDequeueIdx + copies (fun b => (s.balloon b).tickets) k =
    turns defaultNumFree k N + turns defaultNumFree k s.freeEnqueueIdx +
      copies (fun w => (s.call w).tickets) k
  count : s.freeCount = poolSize (contents s.freeQueue) +
    poolSize (fun b => (s.balloon b).counted) + poolSize (fun w => (s.call w).uncounted)
  enough : ∀ w, (s.call w).promised ≠ [] →
    defaultFreeMinCount + poolSize (fun w => (s.call w).promised) ≤ s.freeCount + Fintype.card W

namespace Reserved

variable {s t : CallState C W N S}

theorem start (start : DealtStart s) : Reserved s := by
  obtain ⟨enqueued, dequeued⟩ := start.counters
  obtain ⟨calls, balloons⟩ := start.start.idle
  refine ⟨fun k => ?_, ?_, fun w promised => ?_⟩
  · have length : (s.freeQueue k).values.length = turns defaultNumFree k N := by
      rw [start.queues, ← List.countP_eq_length_filter, ← countP_finRange]
    simp [length, enqueued, dequeued, calls, balloons, CallPc.tickets, BalloonPc.tickets,
      copies_nil]
  · have all : poolSize (contents s.freeQueue) = N := by
      rw [← sum_copies, Finset.sum_congr rfl fun i _ => start.start.free i]
      simp
    have counted : poolSize (fun b => (s.balloon b).counted) = 0 :=
      poolSize_eq_zero.mpr fun b => by rw [balloons]; rfl
    have uncounted : poolSize (fun w => (s.call w).uncounted) = 0 :=
      poolSize_eq_zero.mpr fun w => by rw [calls]; rfl
    rw [all, counted, uncounted, start.start.counts.1, Nat.add_zero]
  · rw [calls] at promised
    exact absurd rfl promised

theorem of_core (ok : Reserved s) (core : ThreadState W N S) : Reserved { s with core := core } :=
  ⟨ok.queues, ok.count, ok.enough⟩

theorem count_pos (ok : Reserved s) {w : W} (holding : (s.call w).uncounted ≠ []) :
    0 < s.freeCount := by
  have mine := length_le_poolSize (fun w => (s.call w).uncounted) w
  have present := List.length_pos_of_ne_nil holding
  have count := ok.count
  omega

variable [DecidableEq W]

/-- A step of the call of `w`, from what it does to queues, counters and count. -/
theorem of_call (ok : Reserved s) {u : CallState C W N S} {w : W} {pc : CallPc N}
    (pcs : u.call = s.call ∧ u.balloon = s.balloon) (enqueued : u.freeEnqueueIdx = s.freeEnqueueIdx)
    (queues : ∀ k : Fin defaultNumFree, (u.freeQueue k).values.length +
        turns defaultNumFree k u.freeDequeueIdx + (s.call w).tickets.count k =
      (s.freeQueue k).values.length + turns defaultNumFree k s.freeDequeueIdx + pc.tickets.count k)
    (count : u.freeCount + poolSize (contents s.freeQueue) + (s.call w).uncounted.length =
      s.freeCount + poolSize (contents u.freeQueue) + pc.uncounted.length)
    (enough : pc.promised.length ≤ (s.call w).promised.length ∧
        s.freeCount + pc.promised.length ≤ u.freeCount + (s.call w).promised.length ∨
      defaultFreeMinCount ≤ u.freeCount) : Reserved (u.toCall w pc) := by
  obtain ⟨calls, balloons⟩ := pcs
  refine ⟨fun k => ?_, ?_, fun x promised => ?_⟩
  · have moved := copies_goto CallPc.tickets s.call w pc k
    have before := ok.queues k
    have change := queues k
    simp only [CallState.toCall, calls, balloons, enqueued] at before ⊢
    omega
  · have moved := poolSize_goto CallPc.uncounted s.call w pc
    have before := ok.count
    simp only [CallState.toCall, calls, balloons] at before ⊢
    omega
  · have moved := poolSize_goto CallPc.promised s.call w pc
    simp only [CallState.toCall, calls] at promised ⊢
    rcases enough with ⟨shorter, less⟩ | many
    · have before : defaultFreeMinCount + poolSize (fun w => (s.call w).promised) ≤
          s.freeCount + Fintype.card W := by
        by_cases mine : x = w
        · subst mine
          rw [Function.update_self] at promised
          have present := List.length_pos_of_ne_nil promised
          exact ok.enough x (List.ne_nil_of_length_pos (by omega))
        · rw [Function.update_of_ne mine] at promised
          exact ok.enough x promised
      omega
    · have bound := poolSize_le_card (F := fun j => (Function.update s.call w pc j).promised)
        fun j => (CallPc.length_promised _).2
      omega

/-- A step that leaves queues, counters and count alone. -/
theorem call_goto (ok : Reserved s) {u : CallState C W N S} {w : W} {before pc : CallPc N}
    (was : s.call w = before) (pcs : u.call = s.call ∧ u.balloon = s.balloon)
    (queues : u.freeQueue = s.freeQueue)
    (counters : u.freeEnqueueIdx = s.freeEnqueueIdx ∧ u.freeDequeueIdx = s.freeDequeueIdx)
    (count : u.freeCount = s.freeCount) (tickets : pc.tickets = before.tickets)
    (uncounted : pc.uncounted.length = before.uncounted.length)
    (promised : pc.promised.length ≤ before.promised.length) : Reserved (u.toCall w pc) := by
  subst was
  refine ok.of_call pcs counters.1 (fun k => ?_) ?_ (.inl ⟨promised, ?_⟩)
  · rw [queues, counters.2, tickets]
  · rw [queues, count, uncounted]
  · rw [count]
    omega

theorem call_step [NeZero S] (ok : Reserved s) {w : W} {request : Call}
    (step : callNext w request s = some t) : Reserved t := by
  cases pc : s.call w with
  | idle =>
    simp only [callNext, pc] at step
    split at step
    · cases step
      exact ok.call_goto pc ⟨rfl, rfl⟩ rfl ⟨rfl, rfl⟩ rfl rfl rfl (Nat.le_refl _)
    · cases step
  | search c =>
    simp only [callNext, pc] at step
    cases step
    exact ok.call_goto pc ⟨rfl, rfl⟩ rfl ⟨rfl, rfl⟩ rfl rfl rfl (Nat.le_refl _)
  | isValid c found =>
    cases found with
    | none =>
      simp only [callNext, pc] at step
      cases step
      exact ok.call_goto pc ⟨rfl, rfl⟩ rfl ⟨rfl, rfl⟩ rfl rfl rfl (Nat.le_refl _)
    | some p =>
      simp only [callNext, pc] at step
      split at step <;> cases step
      all_goals exact ok.call_goto pc ⟨rfl, rfl⟩ rfl ⟨rfl, rfl⟩ rfl rfl rfl (Nat.le_refl _)
  | isEnough c found =>
    simp only [callNext, pc] at step
    split at step
    · rename_i enough
      cases step
      refine ok.of_call ⟨rfl, rfl⟩ rfl (fun k => ?_) ?_ (.inr enough)
      · rw [pc]
        rfl
      · rw [pc]
        rfl
    · cases step
      exact ok.call_goto pc ⟨rfl, rfl⟩ rfl ⟨rfl, rfl⟩ rfl rfl rfl (Nat.le_refl _)
  | nextFree c found =>
    simp only [callNext, pc] at step
    cases step
    refine ok.of_call ⟨rfl, rfl⟩ rfl (fun k => ?_) ?_ (.inl ?_)
    · rw [pc, turns_succ]
      simp only [CallPc.tickets, List.count_nil, List.count_singleton, beq_iff_eq,
        roundRobin_eq_iff]
      omega
    · rw [pc]
      rfl
    · rw [pc]
      exact ⟨Nat.le_refl _, Nat.le_refl _⟩
  | dequeue c found k =>
    simp only [callNext, pc] at step
    obtain ⟨⟨idx, queue⟩, popped, rfl⟩ := Option.map_eq_some_iff.mp step
    have head := LfQueue.dequeue_eq_some.mp popped
    refine ok.of_call ⟨rfl, rfl⟩ rfl (fun j => ?_) ?_ (.inl ?_)
    · rw [pc]
      by_cases same : j = k
      · subst same
        simp [CallPc.tickets, head]
        omega
      · simp [CallPc.tickets, Function.update_of_ne same, Ne.symm same]
    · have taken := poolSize_dequeue popped
      rw [pc]
      simp only [CallPc.uncounted, List.length_singleton, List.length_nil]
      omega
    · rw [pc]
      exact ⟨Nat.le_refl _, Nat.le_refl _⟩
  | storeKey c found idx =>
    simp only [callNext, pc] at step
    cases step
    exact ok.call_goto pc ⟨rfl, rfl⟩ rfl ⟨rfl, rfl⟩ rfl rfl rfl (Nat.le_refl _)
  | uncount c found idx =>
    simp only [callNext, pc] at step
    cases step
    have counted := ok.count_pos (w := w) (by rw [pc]; exact List.cons_ne_nil _ _)
    refine ok.of_call ⟨rfl, rfl⟩ rfl (fun k => ?_) ?_ (.inl ?_)
    · rw [pc]
      rfl
    · rw [pc]
      simp only [CallPc.uncounted, List.length_singleton, List.length_nil]
      omega
    · rw [pc]
      simp only [CallPc.promised, List.length_singleton, List.length_nil]
      omega
  | publish c found idx =>
    cases found with
    | none =>
      simp only [callNext, pc] at step
      cases step
      exact ok.call_goto pc ⟨rfl, rfl⟩ rfl ⟨rfl, rfl⟩ rfl rfl rfl (Nat.le_refl _)
    | some p =>
      simp only [callNext, pc] at step
      split at step <;> cases step
      all_goals exact ok.call_goto pc ⟨rfl, rfl⟩ rfl ⟨rfl, rfl⟩ rfl rfl rfl (Nat.le_refl _)
  | lockNode c p fresh =>
    simp only [callNext, pc] at step
    split at step
    · cases step
    · cases step
      cases fresh with
      | true | false =>
        exact ok.call_goto pc ⟨rfl, rfl⟩ rfl ⟨rfl, rfl⟩ rfl rfl rfl (Nat.le_refl _)
  | recheck c p =>
    simp only [callNext, pc] at step
    cases step
    split
    · exact ok.call_goto pc ⟨rfl, rfl⟩ rfl ⟨rfl, rfl⟩ rfl rfl rfl (Nat.le_refl _)
    · exact ok.call_goto pc ⟨rfl, rfl⟩ rfl ⟨rfl, rfl⟩ rfl rfl rfl (Nat.le_refl _)
  | release c p =>
    simp only [callNext, pc] at step
    cases step
    exact ok.call_goto pc ⟨rfl, rfl⟩ rfl ⟨rfl, rfl⟩ rfl rfl rfl (Nat.le_refl _)
  | readInode c p =>
    simp only [callNext, pc] at step
    obtain ⟨_, _, rfl⟩ := Option.map_eq_some_iff.mp step
    exact ok.call_goto pc ⟨rfl, rfl⟩ rfl ⟨rfl, rfl⟩ rfl rfl rfl (Nat.le_refl _)
  | inBlock c p =>
    simp only [callNext, pc] at step
    split at step
    · cases step
      exact ok.call_goto pc ⟨rfl, rfl⟩ rfl ⟨rfl, rfl⟩ rfl rfl rfl (Nat.le_refl _)
    · obtain ⟨core, _, rfl⟩ := Option.map_eq_some_iff.mp step
      exact ok.of_core core

omit [DecidableEq W] in
/-- A step of balloon thread `b`, from what it does to queues, counters and count. -/
theorem of_balloon (ok : Reserved s) {u : CallState C W N S} {b : Fin defaultNumBalloon}
    {pc : BalloonPc N} (pcs : u.call = s.call ∧ u.balloon = s.balloon)
    (dequeued : u.freeDequeueIdx = s.freeDequeueIdx)
    (queues : ∀ k : Fin defaultNumFree, (u.freeQueue k).values.length +
        turns defaultNumFree k s.freeEnqueueIdx + pc.tickets.count k =
      (s.freeQueue k).values.length + turns defaultNumFree k u.freeEnqueueIdx +
        (s.balloon b).tickets.count k)
    (count : u.freeCount + poolSize (contents s.freeQueue) + (s.balloon b).counted.length =
      s.freeCount + poolSize (contents u.freeQueue) + pc.counted.length)
    (more : s.freeCount ≤ u.freeCount) : Reserved (u.toBalloon b pc) := by
  obtain ⟨calls, balloons⟩ := pcs
  refine ⟨fun k => ?_, ?_, fun x promised => ?_⟩
  · have moved := copies_goto BalloonPc.tickets s.balloon b pc k
    have before := ok.queues k
    have change := queues k
    simp only [CallState.toBalloon, calls, balloons, dequeued] at before ⊢
    omega
  · have moved := poolSize_goto BalloonPc.counted s.balloon b pc
    have before := ok.count
    simp only [CallState.toBalloon, calls, balloons] at before ⊢
    omega
  · simp only [CallState.toBalloon, calls] at promised ⊢
    have before := ok.enough x promised
    omega

omit [DecidableEq W] in
theorem balloon_goto (ok : Reserved s) {u : CallState C W N S} {b : Fin defaultNumBalloon}
    {before pc : BalloonPc N} (was : s.balloon b = before)
    (pcs : u.call = s.call ∧ u.balloon = s.balloon) (queues : u.freeQueue = s.freeQueue)
    (counters : u.freeEnqueueIdx = s.freeEnqueueIdx ∧ u.freeDequeueIdx = s.freeDequeueIdx)
    (count : u.freeCount = s.freeCount) (tickets : pc.tickets = before.tickets)
    (counted : pc.counted.length = before.counted.length) : Reserved (u.toBalloon b pc) := by
  subst was
  refine ok.of_balloon pcs counters.2 (fun k => ?_) ?_ (Nat.le_of_eq count.symm)
  · rw [queues, counters.1, tickets]
  · rw [queues, count, counted]

omit [DecidableEq W] in
theorem balloon_step [NeZero S] (ok : Reserved s) {b : Fin defaultNumBalloon}
    (step : balloonNext b s = some t) : Reserved t := by
  cases pc : s.balloon b with
  | idle =>
    simp only [balloonNext, pc] at step
    obtain ⟨_, _, rfl⟩ := Option.map_eq_some_iff.mp step
    exact ok.balloon_goto pc ⟨rfl, rfl⟩ rfl ⟨rfl, rfl⟩ rfl rfl rfl
  | test idx =>
    simp only [balloonNext, pc] at step
    cases step
    split
    · exact ok.balloon_goto pc ⟨rfl, rfl⟩ rfl ⟨rfl, rfl⟩ rfl rfl rfl
    · exact ok.balloon_goto pc ⟨rfl, rfl⟩ rfl ⟨rfl, rfl⟩ rfl rfl rfl
  | search idx =>
    simp only [balloonNext, pc] at step
    obtain ⟨_, _, step⟩ := Option.bind_eq_some_iff.mp step
    obtain ⟨_, _, step⟩ := Option.bind_eq_some_iff.mp step
    cases step
    exact ok.balloon_goto pc ⟨rfl, rfl⟩ rfl ⟨rfl, rfl⟩ rfl rfl rfl
  | tryLock idx p =>
    simp only [balloonNext, pc] at step
    split at step <;> cases step
    all_goals exact ok.balloon_goto pc ⟨rfl, rfl⟩ rfl ⟨rfl, rfl⟩ rfl rfl rfl
  | retest idx p =>
    simp only [balloonNext, pc] at step
    obtain ⟨inode, _, rfl⟩ := Option.map_eq_some_iff.mp step
    split
    · exact ok.balloon_goto pc ⟨rfl, rfl⟩ rfl ⟨rfl, rfl⟩ rfl rfl rfl
    · exact ok.balloon_goto pc ⟨rfl, rfl⟩ rfl ⟨rfl, rfl⟩ rfl rfl rfl
  | giveUp p | storeFree idx p | unlock p =>
    simp only [balloonNext, pc] at step
    cases step
    exact ok.balloon_goto pc ⟨rfl, rfl⟩ rfl ⟨rfl, rfl⟩ rfl rfl rfl
  | delete idx p =>
    simp only [balloonNext, pc] at step
    obtain ⟨_, _, rfl⟩ := Option.map_eq_some_iff.mp step
    exact ok.balloon_goto pc ⟨rfl, rfl⟩ rfl ⟨rfl, rfl⟩ rfl rfl rfl
  | count idx p =>
    simp only [balloonNext, pc] at step
    cases step
    refine ok.of_balloon ⟨rfl, rfl⟩ rfl (fun k => ?_) ?_ (Nat.le_succ _)
    · rw [pc]
      rfl
    · rw [pc]
      simp only [BalloonPc.counted, List.length_singleton, List.length_nil]
      omega
  | nextQueue idx p =>
    simp only [balloonNext, pc] at step
    cases step
    refine ok.of_balloon ⟨rfl, rfl⟩ rfl (fun k => ?_) ?_ (Nat.le_refl _)
    · rw [pc, turns_succ]
      simp only [BalloonPc.tickets, List.count_nil, List.count_singleton, beq_iff_eq,
        roundRobin_eq_iff]
      omega
    · rw [pc]
      rfl
  | enqueue idx p k =>
    simp only [balloonNext, pc] at step
    obtain ⟨queue, pushed, rfl⟩ := Option.map_eq_some_iff.mp step
    have tail := LfQueue.enqueue_eq_some.mp pushed
    refine ok.of_balloon ⟨rfl, rfl⟩ rfl (fun j => ?_) ?_ (Nat.le_refl _)
    · rw [pc]
      by_cases same : j = k
      · subst same
        simp [BalloonPc.tickets, tail]
        omega
      · simp [BalloonPc.tickets, Function.update_of_ne same, Ne.symm same]
    · have added := poolSize_enqueue pushed
      rw [pc]
      simp only [BalloonPc.counted, List.length_singleton, List.length_nil]
      omega

theorem next [NeZero S] (ok : Reserved s) {e : CallEvent W S} (step : callsNext s e = some t) :
    Reserved t := by
  cases e with
  | call w c => exact ok.call_step step
  | flusher v =>
    obtain ⟨core, _, rfl⟩ := Option.map_eq_some_iff.mp step
    exact ok.of_core core
  | syncer k =>
    obtain ⟨core, _, rfl⟩ := Option.map_eq_some_iff.mp step
    exact ok.of_core core
  | balloon b => exact ok.balloon_step step

theorem of_reachable [NeZero S] (reach : (dealtCalls C W N S).Reachable s) : Reserved s :=
  reach.invariant (I := Reserved) (fun _ initial => start initial) fun _ _ _ _ ok step =>
    ok.next step

omit [DecidableEq W] in
/-- With at most 83 threads that call, a queue that a call has a ticket for has an inode. -/
theorem inode_for_ticket (ok : Reserved s) (few : Fintype.card W ≤ 83) {w : W} {c : Call}
    {found : Option NodePtr} {k : Fin defaultNumFree} (ticket : s.call w = .dequeue c found k) :
    (s.freeQueue k).values ≠ [] := by
  intro empty
  have enough := ok.enough w (by rw [ticket]; exact List.cons_ne_nil _ _)
  have parts : poolSize (fun w => (s.call w).tickets) + poolSize (fun w => (s.call w).uncounted) ≤
      poolSize (fun w => (s.call w).promised) :=
    poolSize_add_le fun w => (CallPc.length_promised _).1
  have tickets : poolSize (fun b => (s.balloon b).tickets) ≤
      poolSize (fun b => (s.balloon b).counted) :=
    poolSize_le fun b => (BalloonPc.length_counted _).1
  have counted : poolSize (fun b => (s.balloon b).counted) ≤ 8 := by
    have bound := poolSize_le_card (F := fun b => (s.balloon b).counted)
      fun b => (BalloonPc.length_counted _).2
    rwa [Fintype.card_fin] at bound
  have mine : 0 < copies (fun w => (s.call w).tickets) k :=
    copies_pos.mpr ⟨w, by rw [ticket]; exact List.mem_singleton_self k⟩
  obtain ⟨j, both⟩ := two_queues k
  have ahead := turns_close _ _ ok.queues j k
  have count := ok.count
  have dequeues := sum_copies fun w => (s.call w).tickets
  have enqueues := sum_copies fun b => (s.balloon b).tickets
  have length := List.length_eq_zero_iff.mpr empty
  rw [both] at dequeues enqueues
  rw [poolSize, both] at count
  change _ = (s.freeQueue k).values.length + (s.freeQueue j).values.length + _ + _ at count
  rw [defaultFreeMinCount] at enough
  omega

end Reserved

theorem blankCalls_dealt (W : Type) (N S : Nat) : DealtStart (blankCalls W N S) :=
  ⟨blankCalls_start, fun _ => rfl, rfl, rfl⟩

end BurstBuffer.Source
