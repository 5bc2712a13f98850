import BurstBuffer.Invariants.CallProgress
import BurstBuffer.Library.WaitsFor

/-!
# No deadlock among calls, flushers, sync threads and balloon threads

Calls wait for the mutexes of nodes and the locks of inodes, sync threads for room in clean
queues. The waits are of one direction: a call at a node, a call at an inode, a sync thread, a
balloon thread.
-/
namespace BurstBuffer.Guarantees

open Library Source

variable {C : CuckoohashMap} {W : Type} {N S : Nat}

inductive Thread (W : Type) (S : Nat) where
  | call (w : W)
  | flusher (v : VolumeIdx)
  | syncer (k : Fin S)
  | balloon (b : Fin defaultNumBalloon)

/-- In the middle of something, or with an entry to begin with. -/
def Busy (s : CallState C W N S) : Thread W S → Prop
  | .call w => s.call w ≠ .idle
  | .flusher v => s.core.flusher v ≠ .idle
  | .syncer k => s.core.syncer k ≠ .idle ∨ (s.core.syncQueue k).values ≠ []
  | .balloon b => s.balloon b ≠ .idle ∨ (s.core.cleanQueue b).values ≠ []

/-- Thread `x` waits for what thread `y` holds, or is to take out of a queue. -/
inductive WaitsFor (s : CallState C W N S) : Thread W S → Thread W S → Prop where
  | nodeOfCall {w x : W} {c : Call} {p : NodePtr} {fresh : Bool}
      (at_ : s.call w = .lockNode c p fresh) (held : p ∈ (s.call x).holds) :
      WaitsFor s (.call w) (.call x)
  | nodeOfBalloon {w : W} {b : Fin defaultNumBalloon} {c : Call} {p : NodePtr} {fresh : Bool}
      (at_ : s.call w = .lockNode c p fresh) (held : p ∈ (s.balloon b).holds) :
      WaitsFor s (.call w) (.balloon b)
  | inodeOfCall {w x : W} {r : Request N} (at_ : s.core.writer w = .lockInode r)
      (held : r.inode ∈ (s.core.writer x).locked) : WaitsFor s (.call w) (.call x)
  | inodeOfFlusher {w : W} {v : VolumeIdx} {r : Request N} (at_ : s.core.writer w = .lockInode r)
      (held : r.inode ∈ (s.core.flusher v).dirties ++ (s.core.flusher v).syncs) :
      WaitsFor s (.call w) (.flusher v)
  | inodeQueued {w : W} {k : Fin S} {r : Request N} (at_ : s.core.writer w = .lockInode r)
      (held : r.inode ∈ (s.core.syncQueue k).values) : WaitsFor s (.call w) (.syncer k)
  | inodeOfSyncer {w : W} {k : Fin S} {r : Request N} (at_ : s.core.writer w = .lockInode r)
      (held : r.inode ∈ (s.core.syncer k).syncs ++ (s.core.syncer k).cleans) :
      WaitsFor s (.call w) (.syncer k)
  | full {k : Fin S} {b : Fin defaultNumBalloon} {idx : InodeIdx N} {n : Nat}
      (at_ : s.core.syncer k = .enqueue idx b n)
      (fully : (s.core.cleanQueue b).values.length = N) : WaitsFor s (.syncer k) (.balloon b)

/-- How far a thread is from those that wait for nobody. -/
def waitRank (s : CallState C W N S) : Thread W S → Nat
  | .call w =>
    match s.call w with
    | .lockNode _ _ _ => 3
    | _ =>
      match s.core.writer w with
      | .lockInode _ => 2
      | _ => 0
  | .syncer _ => 1
  | .flusher _ | .balloon _ => 0

section Steps

variable [DecidableEq W] [NeZero S]

/-- The next step of the thread has a result, whatever block an idle call would go on with. -/
def CanStep (s : CallState C W N S) : Thread W S → Prop
  | .call w => ∀ c, ∃ t, callsNext s (.call w c) = some t
  | .flusher v => ∃ t, callsNext s (.flusher v) = some t
  | .syncer k => ∃ t, callsNext s (.syncer k) = some t
  | .balloon b => ∃ t, callsNext s (.balloon b) = some t

end Steps

section Waits

variable [Fintype W] {s : CallState C W N S}

omit [Fintype W] in
theorem waitRank_holds {x : W} {p : NodePtr} (held : p ∈ (s.call x).holds) :
    waitRank s (.call x) ≤ 2 := by
  cases pc : s.call x with
  | recheck | release | readInode | inBlock =>
    simp only [waitRank, pc]
    split <;> omega
  | _ =>
    rw [pc] at held
    cases held

/-- A call at the lock of an inode is in its block. -/
theorem waitRank_lockInode (calls : CallsOk s) {w : W} {r : Request N}
    (at_ : s.core.writer w = .lockInode r) : waitRank s (.call w) = 2 := by
  obtain ⟨c, p, inside⟩ := calls.inBlock_of_writer (w := w) (by rw [at_]; rintro ⟨⟩)
  simp only [waitRank, inside, at_]

theorem waitRank_locked (calls : CallsOk s) {x : W} {i : InodeIdx N}
    (held : i ∈ (s.core.writer x).locked) : waitRank s (.call x) = 0 := by
  have busy : s.core.writer x ≠ .idle := by
    intro idle
    rw [idle] at held
    cases held
  obtain ⟨c, p, inside⟩ := calls.inBlock_of_writer busy
  cases at_ : s.core.writer x with
  | lockInode r =>
    rw [at_] at held
    cases held
  | _ => simp only [waitRank, inside, at_]

theorem waitRank_lowers (calls : CallsOk s) (x y : Thread W S) (waits : WaitsFor s x y) :
    waitRank s y < waitRank s x := by
  cases waits with
  | nodeOfCall at_ held =>
    have low := waitRank_holds held
    simp only [waitRank, at_] at low ⊢
    omega
  | nodeOfBalloon at_ held =>
    simp only [waitRank, at_]
    decide
  | inodeOfCall at_ held =>
    rw [waitRank_lockInode calls at_, waitRank_locked calls held]
    decide
  | inodeOfFlusher at_ held | inodeQueued at_ held | inodeOfSyncer at_ held =>
    rw [waitRank_lockInode calls at_]
    simp only [waitRank]
    decide
  | full at_ fully =>
    simp only [waitRank]
    decide

omit [Fintype W] in
theorem busy_of_holds {x : W} {p : NodePtr} (held : p ∈ (s.call x).holds) :
    Busy s (.call (S := S) x) := by
  intro idle
  rw [idle] at held
  cases held

theorem lockNode_waits (calls : CallsOk s) {w : W} {c : Call} {p : NodePtr} {fresh : Bool}
    (at_ : s.call w = .lockNode c p fresh) (locked : (s.node p).mutex = true) :
    ∃ y, WaitsFor s (.call w) y ∧ Busy s y := by
  rcases calls.mutex_holder locked with ⟨x, held⟩ | ⟨b, held⟩
  · exact ⟨.call x, .nodeOfCall at_ held, busy_of_holds held⟩
  · refine ⟨.balloon b, .nodeOfBalloon at_ held, .inl fun idle => ?_⟩
    rw [idle] at held
    cases held

theorem lockInode_waits (calls : CallsOk s) {w : W} {r : Request N}
    (at_ : s.core.writer w = .lockInode r) (locked : s.core.lock r.inode = true) :
    ∃ y, WaitsFor s (.call w) y ∧ Busy s y := by
  rcases calls.handOff.lock_holder locked with ⟨x, held⟩ | ⟨v, held⟩ | ⟨k, held⟩ | ⟨k, held⟩
  · refine ⟨.call x, .inodeOfCall at_ held, fun idle => ?_⟩
    have outside := calls.quiet x fun c p inside => by
      rw [idle] at inside
      cases inside
    rw [outside] at held
    cases held
  · refine ⟨.flusher v, .inodeOfFlusher at_ held, fun idle => ?_⟩
    rw [idle] at held
    cases held
  · exact ⟨.syncer k, .inodeQueued at_ held, .inr (List.ne_nil_of_mem held)⟩
  · refine ⟨.syncer k, .inodeOfSyncer at_ held, .inl fun idle => ?_⟩
    rw [idle] at held
    cases held

variable [DecidableEq W] [NeZero S]

/-- A busy thread goes on, or waits for a busy one. -/
theorem goes_on_or_waits (calls : CallsOk s) (paced : Paced s.core) (reserved : Reserved s)
    (few : Fintype.card W ≤ 83) (x : Thread W S) (busy : Busy s x) :
    CanStep s x ∨ ∃ y, WaitsFor s x y ∧ Busy s y := by
  cases x with
  | call w =>
    by_cases able : CanStep s (.call w)
    · exact .inl able
    · obtain ⟨c, stuck⟩ := not_forall.mp able
      rcases calls.call_returns paced c busy fun _ _ _ ticket =>
        reserved.inode_for_ticket few ticket with goes | ⟨_, _, _, at_, locked⟩ |
          ⟨_, _, _, _, at_, locked⟩
      · exact absurd goes stuck
      · exact .inr (lockNode_waits calls at_ locked)
      · exact .inr (lockInode_waits calls at_ locked)
  | flusher v =>
    obtain ⟨core, next⟩ := calls.flusher_returns paced v
    exact .inl ⟨_, Option.map_eq_some_iff.mpr ⟨core, next, rfl⟩⟩
  | syncer k =>
    rcases paced.syncer_returns k with ⟨core, next⟩ | ⟨idx, b, n, at_, fully⟩
    · exact .inl ⟨_, Option.map_eq_some_iff.mpr ⟨core, next, rfl⟩⟩
    · have nonempty : (s.core.cleanQueue b).values ≠ [] := by
        refine List.ne_nil_of_length_pos ?_
        rw [fully]
        exact Nat.zero_lt_of_lt idx.isLt
      exact .inr ⟨.balloon b, .full at_ fully, .inr nonempty⟩
  | balloon b =>
    have begun : s.balloon b = .idle → (s.core.cleanQueue b).values ≠ [] := fun idle =>
      busy.resolve_left fun working => working idle
    exact .inl (calls.balloon_returns begun)

end Waits

section Runs

variable [Fintype W] [DecidableEq W] [NeZero S]

/-- With at most 83 writers, isFreeLFQueueEnough keeps its word: a call that it has let
through finds an inode in the queue whose turn it takes. -/
theorem promised_inode (C : CuckoohashMap) (W : Type) [Fintype W] [DecidableEq W] (N S : Nat)
    [NeZero S] (few : Fintype.card W ≤ 83) (s : CallState C W N S)
    (reach : (dealtCalls C W N S).Reachable s) (w : W) (c request : Call)
    (found : Option NodePtr) (k : Fin defaultNumFree) (ticket : s.call w = .dequeue c found k) :
    ∃ idx t, callsNext s (.call w request) = some t ∧ t.call w = .storeKey c found idx := by
  have reserved := Reserved.of_reachable reach
  obtain ⟨idx, queue, popped⟩ := LfQueue.dequeue_isSome (reserved.inode_for_ticket few ticket)
  have step : callsNext s (.call w request) = some
      ({ s with freeQueue := Function.update s.freeQueue k queue }.toCall w
        (.storeKey c found idx)) := by
    simp only [callsNext, callNext, ticket, popped, Option.map_some]
  exact ⟨idx, _, step, CallState.toCall_self _ _ _⟩

def atTicket {N : Nat} : CallPc N → Bool
  | .dequeue _ _ _ => true
  | _ => false

/-- Two calls pass the test with 100 free inodes before either counts one down. Both have
their tickets, and find their inodes. -/
theorem promised_inode_both : ∃ s : CallState functionMap Bool 100 2,
    s.freeCount = defaultFreeMinCount ∧ ∀ w, atTicket (s.call w) = true ∧
      ∃ (c : Call) (found : Option NodePtr) (idx : InodeIdx 100) (t : _),
        callsNext s (.call w c) = some t ∧ t.call w = .storeKey c found idx := by
  have runs : ((dealtCalls functionMap Bool 100 2).run (blankCalls Bool 100 2)
      (callSteps false 0 5 ++ callSteps true 1 5)).any (fun s =>
        decide (s.freeCount = defaultFreeMinCount) && atTicket (s.call false) &&
          atTicket (s.call true)) = true := by decide +kernel
  simp only [Option.any_eq_true, Bool.and_eq_true, decide_eq_true_eq] at runs
  obtain ⟨s, steps, ⟨count, ticket⟩, ticket'⟩ := runs
  have reach : (dealtCalls functionMap Bool 100 2).Reachable s :=
    .run (.init (blankCalls_dealt Bool 100 2)) steps
  have tickets : ∀ w, atTicket (s.call w) = true := Bool.rec ticket ticket'
  refine ⟨s, count, fun w => ⟨tickets w, ?_⟩⟩
  have holds := tickets w
  cases pc : s.call w with
  | dequeue c found k =>
    obtain ⟨idx, t, step, stored⟩ :=
      promised_inode functionMap Bool 100 2 (by decide) s reach w c c found k pc
    exact ⟨c, found, idx, t, step, stored⟩
  | _ =>
    rw [pc] at holds
    cases holds

/-- No chain of waits comes back, and at the end of each is a thread that goes on. -/
theorem no_deadlock (C : CuckoohashMap) (W : Type) [Fintype W] [DecidableEq W] (N S : Nat)
    [NeZero S] (few : Fintype.card W ≤ 83) (small : N ≤ 2 ^ 26) (s : CallState C W N S)
    (reach : (dealtCalls C W N S).ReachableBy RaceFree s) :
    (∀ x, ¬ Relation.TransGen (WaitsFor s) x x) ∧
      ∀ x, Busy s x → ∃ y, Relation.ReflTransGen (WaitsFor s) x y ∧ Busy s y ∧ CanStep s y := by
  have reserved := Reserved.of_reachable reach.reachable
  obtain ⟨calls, paced⟩ := reach.invariant (I := fun s => CallsOk s ∧ Paced s.core)
    (fun _ (initial : DealtStart _) => ⟨.start initial.start, .start initial.start.core⟩)
    fun _ _ _ ok races step =>
      ⟨ok.1.next (races.careful small) step, ok.2.next ok.1 step⟩
  exact ⟨no_cycle (waitRank_lowers calls), fun x busy =>
    chain_to_able (waitRank_lowers calls) (goes_on_or_waits calls paced reserved few) busy⟩

omit [Fintype W] in
theorem alone_run {s t : CallState C W N S} {w : W} {lbn n : Nat}
    (reach : (dealtCalls C W N S).ReachableBy RaceFree s)
    (alone : ∀ x, x ≠ w → (s.call x).missing = none)
    (steps : (dealtCalls C W N S).run s (callSteps w lbn n) = some t) :
    (dealtCalls C W N S).ReachableBy RaceFree t := by
  refine (reach.run_while (I := fun s => ∀ x, x ≠ w → (s.call x).missing = none)
    (fun u e v alone member step => ?_) alone steps).1
  obtain ⟨_, rfl⟩ := List.mem_replicate.mp member
  refine ⟨raceFree_call _ alone, fun x other => ?_⟩
  rw [callNext_others step other]
  exact alone x other

/-- Writer `true` is at the mutex of a node that writer `false` holds. -/
def meets (s : CallState functionMap Bool 112 2) : Bool :=
  match s.call true with
  | .lockNode _ p _ => (s.call false).holds.contains p
  | _ => false

/-- Writer `true` asks for the block that writer `false` is in. -/
theorem no_deadlock_meets : ∃ s : CallState functionMap Bool 112 2,
    WaitsFor s (.call true) (.call false) ∧
      ∃ y, Relation.ReflTransGen (WaitsFor s) (.call true) y ∧ Busy s y ∧ CanStep s y := by
  let M := dealtCalls functionMap Bool 112 2
  have runs : (M.run (blankCalls Bool 112 2) (callSteps false 0 11)).any (fun u =>
      (u.call false).missing.isNone && (M.run u (callSteps true 0 3)).any meets) = true := by
    decide +kernel
  obtain ⟨u, first, later⟩ := (Option.any_eq_true _ _).mp runs
  obtain ⟨published, later⟩ := (Bool.and_eq_true _ _).mp later
  obtain ⟨s, second, met⟩ := (Option.any_eq_true _ _).mp later
  have middle : M.ReachableBy RaceFree u :=
    alone_run (.init (blankCalls_dealt Bool 112 2)) (fun _ _ => rfl) first
  have reach : M.ReachableBy RaceFree s := by
    refine alone_run middle (fun x other => ?_) second
    rw [Bool.eq_false_of_not_eq_true other]
    exact Option.isNone_iff_eq_none.mp published
  have settled :=
    (no_deadlock functionMap Bool 112 2 (by decide) (by decide) s reach).2 (.call true)
  unfold meets at met
  split at met
  · rename_i c p fresh at_
    refine ⟨s, .nodeOfCall at_ (by simpa using met), settled ?_⟩
    rw [Busy, at_]
    rintro ⟨⟩
  · cases met

end Runs

end BurstBuffer.Guarantees
