import BurstBuffer.Invariants.CallRuns

/-!
# What a call leaves alone

What one step of a call does to other threads, to the nodes and to the states, and
what follows when each volume has one call at a time: a node that a call has
published and not yet locked points to a FREE inode.
-/
namespace BurstBuffer.Source

open Library

section Places

variable {N : Nat}

namespace CallPc

/-- The volume a call in flight writes to. -/
def volume : CallPc N → Option VolumeIdx
  | .idle => none
  | .search c | .isValid c _ | .isEnough c _ | .nextFree c _ | .dequeue c _ _ | .storeKey c _ _
  | .uncount c _ _ | .publish c _ _ | .lockNode c _ _ | .recheck c _ | .release c _
  | .readInode c _ | .inBlock c _ => some c.volume

/-- The call holds node `p` and has yet to store DIRTY into its inode. -/
def Upcoming (writer : WriterPc N) (p : NodePtr) : CallPc N → Prop
  | .recheck _ q | .readInode _ q => q = p
  | .inBlock _ q => q = p ∧ writer.Clear
  | _ => False

/-- The call has just published its node. -/
def publishes : CallPc N → Bool
  | .lockNode _ _ fresh => fresh
  | _ => false

theorem volume_of_missing {pc : CallPc N} {v : VolumeIdx} {l : Nat}
    (missing : pc.missing = some (v, l)) : pc.volume = some v := by
  cases pc with
  | isValid c found =>
    cases found with
    | none =>
      cases missing
      rfl
    | some p => cases missing
  | isEnough | nextFree | dequeue | storeKey | uncount | publish =>
    cases missing
    rfl
  | _ => cases missing

theorem holds_of_upcoming {pc : CallPc N} {writer : WriterPc N} {p : NodePtr}
    (upcoming : pc.Upcoming writer p) : p ∈ pc.holds := by
  cases pc with
  | recheck c q | readInode c q =>
    cases upcoming
    exact List.mem_cons_self
  | inBlock c q =>
    cases upcoming.1
    exact List.mem_cons_self
  | _ => cases upcoming

end CallPc

end Places

variable {C : CuckoohashMap} {W : Type} {N S : Nat}

structure CallEffect (s t : CallState C W N S) (w : W) (request : Call) : Prop where
  calls : ∀ x, x ≠ w → t.call x = s.call x
  writers : ∀ x, x ≠ w → t.core.writer x = s.core.writer x
  balloon : t.balloon = s.balloon
  cleans : t.core.syncer = s.core.syncer ∧ t.core.cleanQueue = s.core.cleanQueue
  inode : ∀ p i, s.view.inode p = some i → t.view.inode p = some i
  state : ∀ i, t.core.state i = s.core.state i ∨
    t.core.state i = .dirty ∧ ∃ p ∈ (s.call w).holds, s.view.inode p = some i
  fresh : ∀ c p, t.call w = .lockNode c p true →
    ∃ found idx, s.call w = .publish c found idx ∧ t.view.inode p = some idx
  volume : (t.call w).volume = none ∨ (t.call w).volume = (s.call w).volume ∨
    s.call w = .idle ∧ (t.call w).volume = some request.volume
  upcoming : ∀ p i, s.view.inode p = some i → t.core.state i = .clean →
    (s.call w).Upcoming (s.core.writer w) p → (t.call w).Upcoming (t.core.writer w) p

variable [Fintype W] [DecidableEq W]

omit [Fintype W] in
/-- Calls do not move balloon threads, in any run. -/
theorem callNext_balloon [NeZero S] {s t : CallState C W N S} {w : W} {request : Call}
    (step : callNext w request s = some t) : t.balloon = s.balloon := by
  unfold callNext at step
  repeat' split at step
  all_goals
    first
      | exact absurd step (Option.some_ne_none t).symm
      | cases step
        rfl
      | obtain ⟨_, _, rfl⟩ := Option.map_eq_some_iff.mp step
        rfl

omit [Fintype W] in
theorem callNext_others [NeZero S] {s t : CallState C W N S} {w : W} {request : Call}
    (step : callNext w request s = some t) {x : W} (other : x ≠ w) : t.call x = s.call x := by
  unfold callNext at step
  repeat' split at step
  all_goals
    first
      | exact absurd step (Option.some_ne_none t).symm
      | cases step
        exact Function.update_of_ne other _ _
      | obtain ⟨_, _, rfl⟩ := Option.map_eq_some_iff.mp step
        first
          | rfl
          | exact Function.update_of_ne other _ _

omit [Fintype W] [DecidableEq W] in
theorem balloonNext_others [NeZero S] {s t : CallState C W N S} {b : Fin defaultNumBalloon}
    (step : balloonNext b s = some t) {c : Fin defaultNumBalloon} (other : c ≠ b) :
    t.balloon c = s.balloon c := by
  unfold balloonNext at step
  repeat' split at step
  all_goals
    first
      | cases step
        exact Function.update_of_ne other _ _
      | obtain ⟨_, _, rfl⟩ := Option.map_eq_some_iff.mp step
        exact Function.update_of_ne other _ _
      | obtain ⟨_, _, step⟩ := Option.bind_eq_some_iff.mp step
        obtain ⟨_, _, step⟩ := Option.bind_eq_some_iff.mp step
        cases step
        exact Function.update_of_ne other _ _

namespace CallsOk

variable {s t : CallState C W N S}

omit [Fintype W] in
/-- The effect of a step that changes no node and no state. -/
theorem effect_goto {w : W} {request : Call} {u : CallState C W N S} {before pc : CallPc N}
    (was : s.call w = before) (core : u.core = s.core) (view : u.view = s.view)
    (pcs : u.call = s.call ∧ u.balloon = s.balloon) (fresh : pc.publishes = false)
    (volume : pc.volume = none ∨ pc.volume = before.volume ∨
      before = .idle ∧ pc.volume = some request.volume)
    (upcoming : ∀ p i, s.view.inode p = some i → before.Upcoming (s.core.writer w) p →
      pc.Upcoming (s.core.writer w) p) : CallEffect s (u.toCall w pc) w request := by
  subst was
  obtain ⟨calls, balloons⟩ := pcs
  have here : (u.toCall w pc).call w = pc := u.toCall_self w pc
  have view' : (u.toCall w pc).view = s.view := view
  have core' : (u.toCall w pc).core = s.core := core
  refine ⟨fun x other => ?_, fun x _ => by rw [core'], balloons, ?_, fun p i points => ?_,
    fun i => .inl (by rw [core']), fun c p at_ => ?_, ?_, fun p i points _ will => ?_⟩
  · rw [u.toCall_other other, calls]
  · rw [core']
    exact ⟨rfl, rfl⟩
  · rw [view']
    exact points
  · rw [here] at at_
    rw [at_] at fresh
    cases fresh
  · rw [here]
    exact volume
  · rw [here, core']
    exact upcoming p i points will

theorem call_effect [NeZero S] (ok : CallsOk s) {w : W} {request : Call}
    (step : callNext w request s = some t) : CallEffect s t w request := by
  have knows := ok.call w
  cases pc : s.call w with
  | idle =>
    simp only [callNext, pc] at step
    split at step
    · cases step
      exact effect_goto pc rfl rfl ⟨rfl, rfl⟩ rfl (.inr (.inr ⟨rfl, rfl⟩)) fun _ _ _ => False.elim
    · cases step
  | search c =>
    simp only [callNext, pc] at step
    cases step
    exact effect_goto pc rfl rfl ⟨rfl, rfl⟩ rfl (.inr (.inl rfl)) fun _ _ _ => False.elim
  | isValid c found =>
    cases found with
    | none =>
      simp only [callNext, pc] at step
      cases step
      exact effect_goto pc rfl rfl ⟨rfl, rfl⟩ rfl (.inr (.inl rfl)) fun _ _ _ => False.elim
    | some p =>
      cases valid : (s.node p).isValid with
      | true | false =>
        simp only [callNext, pc, CallState.isValidNode, valid, Bool.false_eq_true, if_false,
          if_true] at step
        cases step
        exact effect_goto pc rfl rfl ⟨rfl, rfl⟩ rfl (.inr (.inl rfl)) fun _ _ _ => False.elim
  | isEnough c found =>
    simp only [callNext, pc] at step
    split at step <;> cases step
    all_goals
      exact effect_goto pc rfl rfl ⟨rfl, rfl⟩ rfl (.inr (.inl rfl)) fun _ _ _ => False.elim
  | nextFree c found | uncount c found =>
    simp only [callNext, pc] at step
    cases step
    exact effect_goto pc rfl rfl ⟨rfl, rfl⟩ rfl (.inr (.inl rfl)) fun _ _ _ => False.elim
  | dequeue c found k =>
    simp only [callNext, pc] at step
    obtain ⟨_, _, rfl⟩ := Option.map_eq_some_iff.mp step
    exact effect_goto pc rfl rfl ⟨rfl, rfl⟩ rfl (.inr (.inl rfl)) fun _ _ _ => False.elim
  | storeKey c found idx =>
    simp only [callNext, pc] at step
    cases step
    refine ⟨fun x other => CallState.toCall_other _ other _, fun _ _ => rfl, rfl, ⟨rfl, rfl⟩,
      fun _ _ points => points, fun _ => .inl rfl, fun c' p at_ => ?_, ?_, fun p i _ _ will => ?_⟩
    · rw [CallState.toCall_self] at at_
      cases at_
    · rw [pc]
      rw [CallState.toCall_self]
      exact .inr (.inl rfl)
    · rw [pc] at will
      cases will
  | publish c found idx =>
    rw [pc] at knows
    have move : ∀ (u : CallState C W N S) p, u.core = s.core → u.call = s.call →
        u.balloon = s.balloon → s.view.inode p = none →
        u.view.inode = Function.update s.view.inode p (some idx) →
        CallEffect s (u.toCall w (.lockNode c p true)) w request := by
      intro u p core calls balloons empty inode
      have here : (u.toCall w (.lockNode c p true)).call w = .lockNode c p true :=
        u.toCall_self w _
      have core' : (u.toCall w (.lockNode c p true)).core = s.core := core
      have view : (u.toCall w (.lockNode c p true)).view = u.view := rfl
      refine ⟨fun x other => by rw [u.toCall_other other, calls], fun _ _ => by rw [core'],
        balloons, by rw [core']; exact ⟨rfl, rfl⟩, fun q i points => ?_,
        fun _ => .inl (by rw [core']), fun c' q at_ => ?_, ?_, fun q i _ _ will => ?_⟩
      · have other : q ≠ p := by
          rintro rfl
          rw [empty] at points
          cases points
        rw [view, inode, Function.update_of_ne other]
        exact points
      · rw [here] at at_
        cases at_
        exact ⟨found, idx, pc, by rw [view, inode, Function.update_self]⟩
      · rw [here, pc]
        exact .inr (.inl rfl)
      · rw [pc] at will
        cases will
    cases found with
    | none =>
      simp only [callNext, pc] at step
      cases step
      exact move _ _ rfl rfl rfl ok.heap.unallocated
        (by rw [CallState.view_insertNode]; rfl)
    | some p =>
      have none := knows.1.2 p rfl
      have invalid : (s.node p).isValid = false := by
        rw [ok.valid_eq, none]
        rfl
      simp only [callNext, pc, CallState.isValidNode, invalid, Bool.false_eq_true, if_false] at step
      cases step
      exact move _ _ rfl rfl rfl none (by rw [CallState.view_validateNode]; rfl)
  | lockNode c p fresh =>
    simp only [callNext, pc] at step
    split at step
    · cases step
    · cases step
      cases fresh with
      | true | false =>
        exact effect_goto pc rfl (s.view_setMutex p true) ⟨rfl, rfl⟩ rfl (.inr (.inl rfl))
          fun _ _ _ => False.elim
  | recheck c p =>
    cases valid : (s.node p).isValid with
    | true =>
      simp only [callNext, pc, CallState.isValidNode, valid, if_true] at step
      cases step
      exact effect_goto pc rfl rfl ⟨rfl, rfl⟩ rfl (.inr (.inl rfl)) fun _ _ _ will => will
    | false =>
      simp only [callNext, pc, CallState.isValidNode, valid, Bool.false_eq_true, if_false] at step
      cases step
      refine effect_goto pc rfl rfl ⟨rfl, rfl⟩ rfl (.inr (.inl rfl)) fun q i points will => ?_
      cases will
      rw [ok.valid_eq, points] at valid
      cases valid
  | release c p =>
    simp only [callNext, pc] at step
    cases step
    exact effect_goto pc rfl (s.view_setMutex p false) ⟨rfl, rfl⟩ rfl (.inr (.inl rfl))
      fun _ _ _ => False.elim
  | readInode c p =>
    simp only [callNext, pc] at step
    obtain ⟨i, points, rfl⟩ := Option.map_eq_some_iff.mp step
    refine ⟨fun x other => CallState.toCall_other _ other _,
      fun x other => s.core.toWriter_other other _, rfl, ⟨rfl, rfl⟩,
      fun _ _ points => points, fun _ => .inl rfl, fun c' q at_ => ?_, ?_, fun q j _ _ will => ?_⟩
    · rw [CallState.toCall_self] at at_
      cases at_
    · rw [pc]
      rw [CallState.toCall_self]
      exact .inr (.inl rfl)
    · rw [pc] at will
      cases will
      simp [CallState.toCall, CallPc.Upcoming, WriterPc.Clear]
  | inBlock c p =>
    rw [pc] at knows
    obtain ⟨_, r, asked, points⟩ := knows
    simp only [callNext, pc] at step
    split at step
    · rename_i q last
      cases step
      have view : (({ s with core := s.core.toWriter w .idle }.setMutex p false).toCall w
          .idle).view = s.view :=
        CallState.view_setMutex { s with core := s.core.toWriter w .idle } p false
      refine ⟨fun x other => CallState.toCall_other _ other _,
        fun x other => s.core.toWriter_other other _, rfl, ⟨rfl, rfl⟩,
        fun q i points => by rw [view]; exact points, fun _ => .inl rfl,
        fun c' q at_ => ?_, .inl ?_, fun q i _ _ will => ?_⟩
      · rw [CallState.toCall_self] at at_
        cases at_
      · rw [CallState.toCall_self]
        rfl
      · rw [pc, last] at will
        exact will.2.elim
    · obtain ⟨core, next, rfl⟩ := Option.map_eq_some_iff.mp step
      have effect := block_effect asked next
      refine ⟨fun _ _ => rfl, effect.writers, rfl, effect.cleans, fun _ _ points => points,
        fun i => ?_, fun c' q at_ => ?_, .inr (.inl rfl), fun q i bound clean will => ?_⟩
      · rcases effect.state i with same | ⟨dirty, rfl⟩
        · exact .inl same
        · exact .inr ⟨dirty, p, by rw [pc]; exact List.mem_cons_self, points⟩
      · rw [pc] at at_
        cases at_
      · rw [pc] at will ⊢
        obtain ⟨rfl, clear⟩ := will
        rw [points] at bound
        cases bound
        refine ⟨rfl, ?_⟩
        rcases effect.clear clear with clear' | dirty
        · exact clear'
        · rw [clean] at dirty
          cases dirty

end CallsOk

/-- Free queue `k` after nvm_system_init. -/
def allFree (N : Nat) (k : Fin defaultNumFree) : LfQueue (InodeIdx N) N :=
  ⟨(List.finRange N).filter fun i => i.val % defaultNumFree = k.val,
    Nat.le_trans (List.length_filter_le _ _) (by rw [List.length_finRange])⟩

theorem allFree_once (N : Nat) (i : InodeIdx N) : copies (contents (allFree N)) i = 1 := by
  have count : ∀ k : Fin defaultNumFree, (contents (allFree N) k).count i =
      if Fin.ofNat defaultNumFree i.val = k then 1 else 0 := by
    intro k
    simp only [contents, allFree]
    by_cases home : i.val % defaultNumFree = k.val
    · rw [List.count_filter (by simpa using home), List.count_eq_one_of_mem (List.nodup_finRange N)
        (List.mem_finRange i), if_pos (Fin.ext home)]
    · rw [if_neg fun same => home (congrArg Fin.val same), List.count_eq_zero]
      intro member
      exact home (by simpa using (List.mem_filter.mp member).2)
  rw [copies, Finset.sum_congr rfl fun k _ => count k, Finset.sum_ite_eq]
  simp

/-- A first state. -/
def blankCalls (W : Type) (N S : Nat) : CallState functionMap W N S where
  core := blankThreads W N S
  lbn _ := 0
  volume _ := none
  table _ := newHashTable
  node _ := ⟨none, 0, false, false, none, none⟩
  nextNode := 0
  freeQueue := allFree N
  freeEnqueueIdx := 0
  freeDequeueIdx := 0
  freeCount := N
  call _ := .idle
  balloon _ := .idle

omit [Fintype W] [DecidableEq W] in
theorem blankCalls_start : CallStart (blankCalls W N S) where
  core := blankThreads_start
  free := allFree_once N
  counts := ⟨rfl, rfl⟩
  tables _ := rfl
  heap _ := ⟨rfl, rfl, rfl⟩
  idle := ⟨fun _ => rfl, fun _ => rfl⟩

/-- A write to block `lbn` of the first volume. -/
def zeroBlock (lbn : Nat) : Call := ⟨0, lbn, fun _ => 0, blockSize⟩

/-- The first `n` steps of it by thread `w`. -/
def callSteps (w : W) (lbn n : Nat) : List (CallEvent W S) :=
  List.replicate n (.call w (zeroBlock lbn))

/-- A call is not in flight, to be evaluated. -/
def atRest {N : Nat} : CallPc N → Bool
  | .idle => true
  | _ => false

theorem idle_of_atRest {N : Nat} {pc : CallPc N} (rest : atRest pc = true) : pc = .idle := by
  cases pc with
  | idle => rfl
  | _ => cases rest

end BurstBuffer.Source
