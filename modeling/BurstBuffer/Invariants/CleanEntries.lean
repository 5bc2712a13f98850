import BurstBuffer.Invariants.VolumeCalls

/-!
# The entries of CLEAN inodes

A CLEAN inode has an entry in a clean queue or in somebody's hands, unless a call
that holds its node is about to make it DIRTY. A balloon thread drops its entry when
a trylock fails; then somebody else has to have the inode.
-/
namespace BurstBuffer.Source

open Library

section Places

variable {N : Nat}

/-- The inode a sync thread has set to CLEAN and not yet enqueued. -/
def SyncerPc.owes : SyncerPc N → List (InodeIdx N)
  | .nextQueue idx _ | .enqueue idx _ _ => [idx]
  | _ => []

/-- The inode whose entry a balloon thread has dequeued and works on. -/
def BalloonPc.entry : BalloonPc N → List (InodeIdx N)
  | .test idx | .search idx | .tryLock idx _ | .retest idx _ | .delete idx _ | .storeFree idx _ =>
    [idx]
  | _ => []

end Places

variable {C : CuckoohashMap} {W : Type} {N S : Nat}

def queueEntries (s : ThreadState W N S) (i : InodeIdx N) : Nat :=
  copies (contents s.cleanQueue) i + copies (fun k => (s.syncer k).owes) i

def entries (s : CallState C W N S) (i : InodeIdx N) : Nat :=
  queueEntries s.core i + copies (fun b => (s.balloon b).entry) i

/-- A call that holds the node of inode `i` is about to make it DIRTY. -/
def AboutToDirty (s : CallState C W N S) (i : InodeIdx N) : Prop :=
  ∃ w p, s.view.inode p = some i ∧ (s.call w).Upcoming (s.core.writer w) p

/-- Each CLEAN inode can still be reclaimed, or will not stay CLEAN. -/
def Reclaimable (s : CallState C W N S) : Prop :=
  ∀ i, s.core.state i = .clean → 0 < entries s i ∨ AboutToDirty s i

/-- A trylock on the node of a CLEAN inode fails only because of a call that is about
to make the inode DIRTY, or while another balloon thread has an entry of it too. -/
def KeepsEntry (s : CallState C W N S) : CallEvent W S → Prop
  | .balloon b => ∀ idx p, s.balloon b = .tryLock idx p → (s.node p).mutex = true →
    s.core.state idx = .clean →
    (∃ w, (s.call w).Upcoming (s.core.writer w) p) ∨ ∃ c, c ≠ b ∧ idx ∈ (s.balloon c).entry
  | _ => True

variable {s t : CallState C W N S}

theorem Reclaimable.start (start : CallStart s) : Reclaimable s := by
  intro i clean
  rw [start.core.free i] at clean
  cases clean

/-- A step that keeps the entries of the inodes that stay CLEAN, and the calls that
will make them DIRTY. -/
theorem Reclaimable.keep (before : Reclaimable s)
    (state : ∀ i, t.core.state i = .clean → s.core.state i = .clean)
    (kept : ∀ i, t.core.state i = .clean → 0 < entries s i → 0 < entries t i ∨ AboutToDirty t i)
    (upcoming : ∀ i, t.core.state i = .clean → AboutToDirty s i → AboutToDirty t i) :
    Reclaimable t := by
  intro i clean
  rcases before i (state i clean) with entry | will
  · exact kept i clean entry
  · exact .inr (upcoming i clean will)

variable [Fintype W]

theorem Reclaimable.call_step [DecidableEq W] [NeZero S] (before : Reclaimable s) (ok : CallsOk s)
    {w : W} {request : Call} (step : callNext w request s = some t) : Reclaimable t := by
  have effect := ok.call_effect step
  obtain ⟨syncer, cleanQueue⟩ := effect.cleans
  apply before.keep
  · intro i clean
    rcases effect.state i with same | ⟨dirty, _⟩
    · exact same ▸ clean
    · rw [clean] at dirty
      cases dirty
  · intro i _ entry
    left
    simpa only [entries, queueEntries, syncer, cleanQueue, effect.balloon] using entry
  · rintro i clean ⟨x, p, points, will⟩
    refine ⟨x, p, effect.inode p i points, ?_⟩
    by_cases mine : x = w
    · subst x
      exact effect.upcoming p i points clean will
    · rw [effect.calls x mine, effect.writers x mine]
      exact will

omit [Fintype W] in
theorem queueEntries_le {s u : ThreadState W N S} (same : u.syncer = s.syncer) {k : Fin S}
    {pc : SyncerPc N} {i : InodeIdx N}
    (grow : copies (contents s.cleanQueue) i + (s.syncer k).owes.count i ≤
      copies (contents u.cleanQueue) i + pc.owes.count i) :
    queueEntries s i ≤ queueEntries (u.toSyncer k pc) i := by
  have moved := copies_goto SyncerPc.owes s.syncer k pc i
  simp only [queueEntries, ThreadState.toSyncer, same]
  omega

omit [Fintype W] in
/-- A sync thread owes an entry to the inode it sets to CLEAN. -/
theorem sync_entries {s t : ThreadState W N S} {k : Fin S} (step : syncerNext k s = some t)
    (i : InodeIdx N) : queueEntries s i ≤ queueEntries t i ∧
      (t.state i = s.state i ∨ 0 < queueEntries t i) := by
  cases pc : s.syncer k with
  | idle | sync n | nextQueue idx n | unlock idx n =>
    simp only [syncerNext, pc] at step
    cases step
    exact ⟨queueEntries_le rfl (by rw [pc]; exact Nat.le_refl _), .inl rfl⟩
  | loop n =>
    cases n with
    | zero =>
      simp only [syncerNext, pc] at step
      cases step
      exact ⟨queueEntries_le rfl (by rw [pc]; exact Nat.le_refl _), .inl rfl⟩
    | succ n =>
      simp only [syncerNext, pc] at step
      obtain ⟨_, _, rfl⟩ := Option.map_eq_some_iff.mp step
      exact ⟨queueEntries_le rfl (by rw [pc]; exact Nat.le_refl _), .inl rfl⟩
  | storeClean idx n =>
    simp only [syncerNext, pc] at step
    cases step
    refine ⟨queueEntries_le rfl (by rw [pc]; exact Nat.le_add_right _ _), ?_⟩
    by_cases here : i = idx
    · subst i
      have owed :
        0 < copies (fun j => (Function.update s.syncer k (.nextQueue idx n) j).owes) idx :=
        copies_pos.mpr ⟨k, by rw [Function.update_self]; exact List.mem_cons_self⟩
      exact .inr (Nat.lt_of_lt_of_le owed (Nat.le_add_left _ _))
    · exact .inl (Function.update_of_ne here _ _)
  | enqueue idx c n =>
    simp only [syncerNext, pc] at step
    obtain ⟨queue, queued, rfl⟩ := Option.map_eq_some_iff.mp step
    refine ⟨?_, .inl rfl⟩
    apply queueEntries_le
    · rfl
    · rw [pc, copies_enqueue queued]
      simp only [SyncerPc.owes, List.count_singleton, List.count_nil, beq_iff_eq]
      omega

theorem Reclaimable.sync_step [NeZero S] (before : Reclaimable s) (ok : CallsOk s) {k : Fin S}
    {core : ThreadState W N S} (step : syncerNext k s.core = some core) :
    Reclaimable { s with core := core } := by
  have effect := sync_effect ok.handOff step
  intro i clean
  obtain ⟨grown, same | entry⟩ := sync_entries step i
  · rcases before i (same ▸ clean) with entry | ⟨w, p, points, will⟩
    · exact .inl (Nat.lt_of_lt_of_le entry (Nat.add_le_add_right grown _))
    · exact .inr ⟨w, p, points, by simpa only [effect.1] using will⟩
  · exact .inl (Nat.lt_of_lt_of_le entry (Nat.le_add_right _ _))

theorem Reclaimable.drain_step [NeZero S] (before : Reclaimable s) (ok : CallsOk s)
    {lbn : InodeIdx N → Nat} {volume : InodeIdx N → Option VolumeIdx} {v : VolumeIdx}
    {core : ThreadState W N S} (step : drainNext lbn volume v s.core = some core) :
    Reclaimable { s with core := core } := by
  have effect := drain_effect ok.handOff step
  obtain ⟨syncer, cleanQueue⟩ := effect.cleans
  apply before.keep
  · intro i clean
    rcases effect.state i with same | ⟨_, sync⟩
    · exact same ▸ clean
    · exact absurd (sync.symm.trans clean) (by decide)
  · intro i _ entry
    left
    simpa only [entries, queueEntries, syncer, cleanQueue] using entry
  · rintro i _ ⟨w, p, points, will⟩
    exact ⟨w, p, points, by simpa only [effect.writers] using will⟩

/-- A test that another inode fails costs no entry of a CLEAN one. -/
theorem BalloonPc.count_tested {state : InodeIdx N → InodeState} {idx i : InodeIdx N}
    {failed passed : BalloonPc N} (holds : passed.entry = [idx]) (clean : state i = .clean) :
    [idx].count i ≤ (if state idx ≠ .clean then failed else passed).entry.count i := by
  by_cases here : state idx = .clean
  · rw [if_neg (not_not_intro here), holds]
  · have other : idx ≠ i := by
      rintro rfl
      exact here clean
    rw [List.count_singleton, if_neg (by simpa using other)]
    exact Nat.zero_le _

omit [Fintype W] in
/-- A balloon thread that goes on. The entries it does not keep are of inodes that
are not CLEAN any more, or that others have. -/
theorem Reclaimable.toBalloon (before : Reclaimable s) {u : CallState C W N S}
    {b : Fin defaultNumBalloon} {pc : BalloonPc N}
    (pcs : u.call = s.call ∧ u.balloon = s.balloon)
    (core : u.core.writer = s.core.writer ∧ u.core.syncer = s.core.syncer)
    (state : ∀ i, u.core.state i = .clean → s.core.state i = .clean)
    (inode : ∀ w p i, (s.call w).Upcoming (s.core.writer w) p → s.view.inode p = some i →
      u.view.inode p = some i)
    (kept : ∀ i, u.core.state i = .clean → AboutToDirty s i ∨
      (∃ c, c ≠ b ∧ i ∈ (s.balloon c).entry) ∨
      copies (contents s.core.cleanQueue) i + (s.balloon b).entry.count i ≤
        copies (contents u.core.cleanQueue) i + pc.entry.count i) :
    Reclaimable (u.toBalloon b pc) := by
  obtain ⟨calls, balloons⟩ := pcs
  obtain ⟨writers, syncers⟩ := core
  have upcoming : ∀ i, AboutToDirty s i → AboutToDirty (u.toBalloon b pc) i := by
    rintro i ⟨w, p, points, will⟩
    refine ⟨w, p, inode w p i will points, ?_⟩
    simpa only [CallState.toBalloon, calls, writers] using will
  apply before.keep
  · exact state
  · intro i clean entry
    rcases kept i clean with will | ⟨c, other, theirs⟩ | grown
    · exact .inr (upcoming i will)
    · left
      have present : 0 < copies (fun c => ((u.toBalloon b pc).balloon c).entry) i := by
        refine copies_pos.mpr ⟨c, ?_⟩
        simpa only [CallState.toBalloon, balloons, Function.update_of_ne other] using theirs
      exact Nat.lt_of_lt_of_le present (Nat.le_add_left _ _)
    · left
      have moved := copies_goto BalloonPc.entry s.balloon b pc i
      simp only [entries, queueEntries, CallState.toBalloon, balloons, syncers] at entry ⊢
      omega
  · exact fun i _ => upcoming i

theorem Reclaimable.balloon_step [NeZero S] (before : Reclaimable s) (ok : CallsOk s)
    {b : Fin defaultNumBalloon} (keeps : KeepsEntry s (.balloon b))
    (step : balloonNext b s = some t) : Reclaimable t := by
  have knows := ok.balloon b
  cases pc : s.balloon b with
  | idle =>
    simp only [balloonNext, pc] at step
    obtain ⟨⟨idx, queue⟩, head, rfl⟩ := Option.map_eq_some_iff.mp step
    refine before.toBalloon ⟨rfl, rfl⟩ ⟨rfl, rfl⟩ (fun _ clean => clean)
      (fun _ _ _ _ points => points) fun i _ => .inr (.inr ?_)
    rw [pc, copies_dequeue head]
    simp only [BalloonPc.entry, List.count_nil, List.count_singleton, beq_iff_eq]
    omega
  | test idx =>
    simp only [balloonNext, pc] at step
    cases step
    refine before.toBalloon ⟨rfl, rfl⟩ ⟨rfl, rfl⟩ (fun _ clean => clean)
      (fun _ _ _ _ points => points) fun i clean => .inr (.inr ?_)
    rw [pc]
    exact Nat.add_le_add_left (BalloonPc.count_tested rfl clean) _
  | search idx =>
    simp only [balloonNext, pc] at step
    obtain ⟨_, _, step⟩ := Option.bind_eq_some_iff.mp step
    obtain ⟨_, _, step⟩ := Option.bind_eq_some_iff.mp step
    cases step
    exact before.toBalloon ⟨rfl, rfl⟩ ⟨rfl, rfl⟩ (fun _ clean => clean)
      (fun _ _ _ _ points => points) fun i _ => .inr (.inr (by rw [pc]; exact Nat.le_refl _))
  | tryLock idx p =>
    rw [pc] at knows
    simp only [balloonNext, pc] at step
    split at step
    · rename_i locked
      cases step
      refine before.toBalloon ⟨rfl, rfl⟩ ⟨rfl, rfl⟩ (fun _ clean => clean)
        (fun _ _ _ _ points => points) fun i clean => ?_
      by_cases mine : idx = i
      · subst i
        rcases keeps idx p pc locked clean with ⟨w, will⟩ | theirs
        · refine .inl ⟨w, p, ?_, will⟩
          rcases knows.2 with points | ⟨c, freeing⟩
          · exact points
          · have holds := ok.holds_apart (b := c) (CallPc.holds_of_upcoming will)
            exact absurd (by rw [freeing]; exact List.mem_cons_self) holds
        · exact .inr (.inl theirs)
      · right
        right
        rw [pc]
        simp [BalloonPc.entry, mine]
    · cases step
      exact before.toBalloon ⟨rfl, rfl⟩ ⟨rfl, rfl⟩ (fun _ clean => clean)
        (fun _ q i _ points => (s.view_setMutex p true).symm ▸ points)
        fun i _ => .inr (.inr (by rw [pc]; exact Nat.le_refl _))
  | retest idx p =>
    rw [pc] at knows
    simp only [balloonNext, pc] at step
    obtain ⟨j, points, rfl⟩ := Option.map_eq_some_iff.mp step
    obtain rfl : idx = j := Option.some.inj (knows.symm.trans points)
    refine before.toBalloon ⟨rfl, rfl⟩ ⟨rfl, rfl⟩ (fun _ clean => clean)
      (fun _ _ _ _ points => points) fun i clean => .inr (.inr ?_)
    rw [pc]
    exact Nat.add_le_add_left (BalloonPc.count_tested rfl clean) _
  | giveUp p | unlock p =>
    simp only [balloonNext, pc] at step
    cases step
    exact before.toBalloon ⟨rfl, rfl⟩ ⟨rfl, rfl⟩ (fun _ clean => clean)
      (fun _ q i _ points => (s.view_setMutex p false).symm ▸ points)
      fun i _ => .inr (.inr (by rw [pc]; exact Nat.le_refl _))
  | delete idx p =>
    simp only [balloonNext, pc] at step
    obtain ⟨v, _, rfl⟩ := Option.map_eq_some_iff.mp step
    have holds : p ∈ (s.balloon b).holds := by
      rw [pc]
      exact List.mem_cons_self
    refine before.toBalloon ⟨rfl, rfl⟩ ⟨rfl, rfl⟩ (fun _ clean => clean)
      (fun w q i will points => ?_) fun i _ => .inr (.inr (by rw [pc]; exact Nat.le_refl _))
    have other : q ≠ p := by
      rintro rfl
      exact ok.holds_apart (CallPc.holds_of_upcoming will) holds
    rw [CallState.view_deleteNode]
    simpa [HeapView.point, other] using points
  | storeFree idx p =>
    simp only [balloonNext, pc] at step
    cases step
    have apart : ∀ i, Function.update s.core.state idx .free i = .clean → i ≠ idx := by
      rintro i clean rfl
      rw [Function.update_self] at clean
      cases clean
    refine before.toBalloon ⟨rfl, rfl⟩ ⟨rfl, rfl⟩ (fun i clean => ?_)
      (fun _ _ _ _ points => points) fun i clean => .inr (.inr ?_)
    · exact (Function.update_of_ne (apart i clean) _ _).symm.trans clean
    · rw [pc]
      simp [BalloonPc.entry, Ne.symm (apart i clean)]
  | count idx p | nextQueue idx p =>
    simp only [balloonNext, pc] at step
    cases step
    exact before.toBalloon ⟨rfl, rfl⟩ ⟨rfl, rfl⟩ (fun _ clean => clean)
      (fun _ _ _ _ points => points) fun i _ => .inr (.inr (by rw [pc]; exact Nat.le_refl _))
  | enqueue idx p k =>
    simp only [balloonNext, pc] at step
    obtain ⟨_, _, rfl⟩ := Option.map_eq_some_iff.mp step
    exact before.toBalloon ⟨rfl, rfl⟩ ⟨rfl, rfl⟩ (fun _ clean => clean)
      (fun _ _ _ _ points => points) fun i _ => .inr (.inr (by rw [pc]; exact Nat.le_refl _))

theorem Reclaimable.next [DecidableEq W] [NeZero S] (before : Reclaimable s) (ok : CallsOk s)
    {e : CallEvent W S} (keeps : KeepsEntry s e) (step : callsNext s e = some t) :
    Reclaimable t := by
  cases e with
  | call w request => exact before.call_step ok step
  | flusher v =>
    obtain ⟨core, next, rfl⟩ := Option.map_eq_some_iff.mp step
    exact before.drain_step ok next
  | syncer k =>
    obtain ⟨core, next, rfl⟩ := Option.map_eq_some_iff.mp step
    exact before.sync_step ok next
  | balloon b => exact before.balloon_step ok keeps step

end BurstBuffer.Source
