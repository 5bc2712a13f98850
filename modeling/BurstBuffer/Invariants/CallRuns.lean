import BurstBuffer.Invariants.CallSteps

/-!
# Runs of calls, threads and balloon threads

The invariant of Calls holds in every run whose steps are `Careful`: the inode of
each block starts below 4 GiB in the inode table, a call that finds no valid node is
alone with its key, and a balloon thread sets an inode to FREE, or deletes its
node, while nobody is about to rely on it.
-/
namespace BurstBuffer.Source

open Library

section Guards

variable {C : CuckoohashMap} {W : Type} {N S : Nat}

/-- The inode that a call reads from its node starts less than `2^32` bytes into
the inode table. -/
def NarrowInode (s : CallState C W N S) : CallEvent W S → Prop
  | .call w _ => ∀ c p i, s.call w = .readInode c p → (s.node p).inode = some i → i.val < 2 ^ 26
  | _ => True

/-- A call that finds no valid node under its key is alone with this key: no other
call is on its way to publish one. -/
def SearchesAlone (s : CallState C W N S) : CallEvent W S → Prop
  | .call w _ => ∀ c,
    (s.call w = .search c ∧ s.nodeAt c.volume c.lbn = none ∨
      ∃ p, s.call w = .isValid c (some p) ∧ (s.node p).isValid = false) →
    ∀ x, x ≠ w → (s.call x).missing ≠ some (c.volume, c.lbn)
  | _ => True

/-- A balloon thread sets an inode to FREE only when no other one has found the same
inode CLEAN and not yet tried to lock its node. -/
def FreesAlone (s : CallState C W N S) : CallEvent W S → Prop
  | .balloon b => ∀ idx p, s.balloon b = .storeFree idx p →
    ∀ c, c ≠ b → s.balloon c ≠ .search idx ∧ ∀ q, s.balloon c ≠ .tryLock idx q
  | _ => True

/-- A balloon thread deletes no node that a call has published and not yet locked. -/
def Spares (s : CallState C W N S) : CallEvent W S → Prop
  | .balloon b => ∀ idx p, s.balloon b = .delete idx p → ∀ w c, s.call w ≠ .lockNode c p true
  | _ => True

/-- No two calls race for the node of one key, and no balloon thread for an inode that
somebody relies on. -/
structure RaceFree (s : CallState C W N S) (e : CallEvent W S) : Prop where
  searches : SearchesAlone s e
  frees : FreesAlone s e
  spares : Spares s e

structure Careful (s : CallState C W N S) (e : CallEvent W S) : Prop extends RaceFree s e where
  narrow : NarrowInode s e

theorem narrowInode_of_small (small : N ≤ 2 ^ 26) (s : CallState C W N S) (e : CallEvent W S) :
    NarrowInode s e := by
  cases e with
  | call => exact fun _ _ i _ _ => Nat.lt_of_lt_of_le i.isLt small
  | flusher | syncer | balloon => trivial

theorem RaceFree.careful {s : CallState C W N S} {e : CallEvent W S} (small : N ≤ 2 ^ 26)
    (races : RaceFree s e) : Careful s e :=
  ⟨races, narrowInode_of_small small s e⟩

/-- A step of a call is free of races while no other one is on its way to publish a node. -/
theorem raceFree_call {s : CallState C W N S} {w : W} (c : Call)
    (alone : ∀ x, x ≠ w → (s.call x).missing = none) : RaceFree s (.call w c) := by
  refine ⟨fun _ _ x other => ?_, trivial, trivial⟩
  rw [alone x other]
  exact (Option.some_ne_none _).symm

end Guards

namespace HandOff

variable {W : Type} {N S : Nat} [Fintype W] [DecidableEq W] {s : ThreadState W N S}

theorem begin_block (ok : HandOff s) {w : W} {r : Request N} (idle : s.writer w = .idle)
    (low : r.inode.val < 2 ^ 26) : HandOff (s.toWriter w (.lockInode r)) := by
  refine ok.of_writer ⟨rfl, rfl, rfl⟩ rfl (fun i => by rw [idle]; rfl) (fun i => Iff.rfl)
    (fun i => by rw [idle]; rfl) trivial (fun x _ => ok.knows x)
    (Option.some_ne_none _).symm ?_
  rintro q ⟨⟩
  exact low

theorem end_block (ok : HandOff s) {w : W} {r : Request N} (last : s.writer w = .unlockNode r) :
    HandOff (s.toWriter w .idle) :=
  ok.of_writer ⟨rfl, rfl, rfl⟩ rfl (fun i => by rw [last]; rfl) (fun i => Iff.rfl)
    (fun i => by rw [last]; rfl) trivial (fun x _ => ok.knows x)
    (Option.some_ne_none _).symm fun _ asked => (Option.some_ne_none _ asked.symm).elim

end HandOff

section Tokens

variable {C : CuckoohashMap} {W : Type} {N S : Nat} {s : CallState C W N S} {p : NodePtr}

theorem lock_tokens (unlocked : (s.node p).mutex = false) (q : NodePtr) :
    [p].count q + (if (s.node q).mutex then 1 else 0) =
      ([] : List NodePtr).count q + if ((s.setMutex p true).node q).mutex then 1 else 0 := by
  rw [CallState.setMutex_mutex]
  by_cases here : q = p
  · subst q
    simp [unlocked]
  · simp [here, Ne.symm here]

theorem unlock_tokens (locked : (s.node p).mutex = true) (q : NodePtr) :
    ([] : List NodePtr).count q + (if (s.node q).mutex then 1 else 0) =
      [p].count q + if ((s.setMutex p false).node q).mutex then 1 else 0 := by
  rw [CallState.setMutex_mutex]
  by_cases here : q = p
  · subst q
    simp [locked]
  · simp [here, Ne.symm here]

end Tokens

variable {C : CuckoohashMap} {W : Type} {N S : Nat} [Fintype W] [DecidableEq W]

namespace CallsOk

variable {s t : CallState C W N S}

omit [DecidableEq W] in
theorem idle_of_outside (ok : CallsOk s) {w : W} {before : CallPc N} (was : s.call w = before)
    (outside : before.inside = false) : s.core.writer w = .idle := by
  subst was
  exact ok.quiet w (CallPc.ne_inBlock outside)

/-- A step of a call outside its block that only moves on and counts. -/
theorem call_goto (ok : CallsOk s) {w : W} {before pc : CallPc N}
    (freeDequeueIdx freeCount : Nat) (was : s.call w = before) (outside : before.inside = false)
    (taken : pc.taken = before.taken) (holds : pc.holds = before.holds)
    (dirties : ∀ p, before.Dirties (s.core.writer w) p → pc.Dirties (s.core.writer w) p)
    (here : pc.Local s.view (s.core.writer w))
    (missing : ∀ key, pc.missing = some key → ∀ x, x ≠ w → (s.call x).missing ≠ some key) :
    CallsOk ({ s with
      freeDequeueIdx := freeDequeueIdx, freeCount := freeCount }.toCall w pc) := by
  have idle := ok.idle_of_outside was outside
  subst was
  exact ok.of_call rfl ⟨rfl, rfl⟩ ok.handOff (fun _ _ => rfl) (fun _ => .inl rfl)
    (fun i => by rw [taken]) (fun p => by rw [holds]) (fun p _ _ _ => dirties p)
    (fun _ => idle) here missing

omit [DecidableEq W] in
/-- The key of a call that has found no valid node is its own. -/
theorem missing_alone (ok : CallsOk s) {w : W} {before pc : CallPc N} (was : s.call w = before)
    (same : pc.missing = before.missing) (key : VolumeIdx × Nat) (missing : pc.missing = some key)
    (x : W) (other : x ≠ w) : (s.call x).missing ≠ some key := by
  subst was
  intro theirs
  exact other (ok.apart x w key theirs (same.symm.trans missing))

omit [DecidableEq W] in
theorem valid_eq (ok : CallsOk s) (p : NodePtr) :
    (s.node p).isValid = (s.view.inode p).isSome := ok.heap.valid p

theorem call_step [NeZero S] (ok : CallsOk s) {w : W} {request : Call}
    (narrow : NarrowInode s (.call w request)) (alone : SearchesAlone s (.call w request))
    (step : callNext w request s = some t) : CallsOk t := by
  have knows := ok.call w
  cases pc : s.call w with
  | idle =>
    simp only [callNext, pc] at step
    split at step
    · cases step
      exact ok.call_goto _ _ pc rfl rfl rfl (fun _ => False.elim) trivial
        (CallPc.not_missing rfl)
    · cases step
  | search c =>
    simp only [callNext, pc] at step
    cases step
    refine ok.call_goto _ _ pc rfl rfl rfl (fun _ => False.elim) rfl fun key missing => ?_
    cases found : s.nodeAt c.volume c.lbn with
    | none =>
      rw [found] at missing
      cases missing
      exact alone c (.inl ⟨pc, found⟩)
    | some p =>
      rw [found] at missing
      cases missing
  | isValid c found =>
    rw [pc] at knows
    cases found with
    | none =>
      simp only [callNext, pc] at step
      cases step
      exact ok.call_goto _ _ pc rfl rfl rfl (fun _ => False.elim)
        ⟨knows, fun _ seen => (Option.some_ne_none _ seen.symm).elim⟩
        (ok.missing_alone pc rfl)
    | some p =>
      cases valid : (s.node p).isValid with
      | true =>
        simp only [callNext, pc, CallState.isValidNode, valid, if_true] at step
        cases step
        exact ok.call_goto _ _ pc rfl rfl rfl (fun _ => False.elim)
          ⟨knows, fun fresh => absurd fresh Bool.false_ne_true⟩ (CallPc.not_missing rfl)
      | false =>
        simp only [callNext, pc, CallState.isValidNode, valid, Bool.false_eq_true, if_false] at step
        cases step
        refine ok.call_goto _ _ pc rfl rfl rfl (fun _ => False.elim) ⟨knows, ?_⟩
          fun key missing => ?_
        · rintro q ⟨⟩
          rw [ok.valid_eq] at valid
          simpa using valid
        · cases missing
          exact alone c (.inr ⟨p, pc, valid⟩)
  | isEnough c found =>
    rw [pc] at knows
    simp only [callNext, pc] at step
    split at step
    · cases step
      exact ok.call_goto _ _ pc rfl rfl rfl (fun _ => False.elim) knows
        (ok.missing_alone pc rfl)
    · cases step
      exact ok.call_goto _ _ pc rfl rfl rfl (fun _ => False.elim) trivial
        (CallPc.not_missing rfl)
  | nextFree c found =>
    rw [pc] at knows
    simp only [callNext, pc] at step
    cases step
    exact ok.call_goto _ _ pc rfl rfl rfl (fun _ => False.elim) knows
      (ok.missing_alone pc rfl)
  | dequeue c found k =>
    rw [pc] at knows
    simp only [callNext, pc] at step
    obtain ⟨⟨idx, queue⟩, head, rfl⟩ := Option.map_eq_some_iff.mp step
    refine ok.of_call rfl ⟨rfl, rfl⟩ ok.handOff (fun _ _ => rfl) (fun _ => .inl rfl) (fun i => ?_)
      (fun p => by rw [pc]; rfl) (fun p _ _ _ will => ?_)
      (fun _ => ok.idle_of_outside pc rfl) knows (ok.missing_alone pc rfl)
    · rw [pc, copies_dequeue head]
      simp only [CallPc.taken, List.count_nil, List.count_singleton, beq_iff_eq]
      omega
    · rw [pc] at will
      exact will.elim
  | storeKey c found idx =>
    simp only [callNext, pc] at step
    cases step
    exact ok.storeKey pc
  | uncount c found idx =>
    rw [pc] at knows
    simp only [callNext, pc] at step
    cases step
    exact ok.call_goto _ _ pc rfl rfl rfl (fun _ => False.elim) knows
      (ok.missing_alone pc rfl)
  | publish c found idx =>
    rw [pc] at knows
    obtain ⟨⟨place, empty⟩, volume, lbn⟩ := knows
    have mine : idx ∈ (s.call w).taken := by
      rw [pc]
      exact List.mem_cons_self
    cases found with
    | none =>
      simp only [callNext, pc] at step
      cases step
      have view := CallState.view_insertNode s c.volume idx
      have absent : s.view.nodeAt c.volume (s.view.lbn idx) = none := by rw [lbn, place]
      have next : s.view.inode s.nextNode = none := ok.heap.unallocated
      refine ok.publish pc rfl rfl ⟨rfl, rfl⟩ (fun q => ?_)
        (view ▸ ok.heap.insert volume absent) ⟨by rw [view]; rfl, by rw [view]; rfl⟩
        (by rw [view]; rfl) ?_ (fun v l q found => ?_) (fun v l other => ?_) ?_ next
      · rw [CallState.insertNode_mutex]
        split
        · rename_i here
          rw [here]
          exact (ok.fresh _ (Nat.le_refl _)).symm
        · rfl
      · rw [view]
        simp only [HeapView.insert, lbn, true_and]
        exact if_pos trivial
      · rw [view]
        simp only [HeapView.insert]
        rw [if_neg, found]
        rintro ⟨rfl, rfl⟩
        rw [absent] at found
        cases found
      · rw [view]
        simp only [HeapView.insert]
        rw [if_neg]
        rintro ⟨rfl, rfl⟩
        exact other (by rw [lbn])
      · rw [view]
        exact Nat.le_succ _
    | some p =>
      have none : s.view.inode p = none := empty p rfl
      have invalid : (s.node p).isValid = false := by
        rw [ok.valid_eq, none]
        rfl
      simp only [callNext, pc, CallState.isValidNode, invalid, Bool.false_eq_true, if_false] at step
      cases step
      have view := CallState.view_validateNode s p idx
      have keyed : ∀ i, some idx = some i → s.view.Keyed i p := by
        rintro i ⟨⟩
        exact ⟨c.volume, volume, by rw [lbn, place]⟩
      exact ok.publish pc rfl rfl ⟨rfl, rfl⟩ (CallState.validateNode_mutex s p idx)
        (view ▸ ok.heap.point keyed) ⟨by rw [view]; rfl, by rw [view]; rfl⟩ (by rw [view]; rfl)
        (by rw [view]; exact place) (fun v l q found => by rw [view]; exact found)
        (fun v l _ => by rw [view]; rfl) (by rw [view]; exact Nat.le_refl _) none
  | lockNode c p fresh =>
    rw [pc] at knows
    simp only [callNext, pc] at step
    split at step
    · cases step
    · rename_i unlocked
      cases step
      have unlocked' : (s.node p).mutex = false := by simpa using unlocked
      have idle := ok.idle_of_outside pc rfl
      cases fresh with
      | true =>
        exact ok.of_call (s.view_setMutex p true) ⟨rfl, rfl⟩ ok.handOff (fun _ _ => rfl)
          (fun _ => .inl rfl) (fun i => by rw [pc]; rfl)
          (fun q => by rw [pc]; exact lock_tokens unlocked' q)
          (fun q _ _ _ will => by rw [pc] at will; exact will) (fun _ => idle)
          ⟨knows.1, knows.2 rfl⟩ (CallPc.not_missing rfl)
      | false =>
        exact ok.of_call (s.view_setMutex p true) ⟨rfl, rfl⟩ ok.handOff (fun _ _ => rfl)
          (fun _ => .inl rfl) (fun i => by rw [pc]; rfl)
          (fun q => by rw [pc]; exact lock_tokens unlocked' q)
          (fun q _ _ _ will => by rw [pc] at will; exact will.elim) (fun _ => idle) knows.1
          (CallPc.not_missing rfl)
  | recheck c p =>
    rw [pc] at knows
    cases valid : (s.node p).isValid with
    | true =>
      simp only [callNext, pc, CallState.isValidNode, valid, if_true] at step
      cases step
      rw [ok.valid_eq] at valid
      exact ok.call_goto _ _ pc rfl rfl rfl (fun _ => False.elim) ⟨knows, valid⟩
        (CallPc.not_missing rfl)
    | false =>
      simp only [callNext, pc, CallState.isValidNode, valid, Bool.false_eq_true, if_false] at step
      cases step
      exact ok.call_goto _ _ pc rfl rfl rfl (fun _ => False.elim) knows (CallPc.not_missing rfl)
  | release c p =>
    simp only [callNext, pc] at step
    cases step
    have locked := ok.locked_of_call_holds (w := w) (p := p) (by rw [pc]; exact List.mem_cons_self)
    exact ok.of_call (s.view_setMutex p false) ⟨rfl, rfl⟩ ok.handOff (fun _ _ => rfl)
      (fun _ => .inl rfl) (fun i => by rw [pc]; rfl)
      (fun q => by rw [pc]; exact unlock_tokens locked q)
      (fun q _ _ _ will => by rw [pc] at will; exact will.elim)
      (fun _ => ok.idle_of_outside pc rfl) trivial (CallPc.not_missing rfl)
  | readInode c p =>
    rw [pc] at knows
    simp only [callNext, pc] at step
    obtain ⟨i, points, rfl⟩ := Option.map_eq_some_iff.mp step
    have idle := ok.idle_of_outside pc rfl
    refine ok.of_call rfl ⟨rfl, rfl⟩ (ok.handOff.begin_block idle (narrow c p i pc points))
      (fun x other => s.core.toWriter_other other _) (fun _ => .inl rfl) (fun i => by rw [pc]; rfl)
      (fun q => by rw [pc]; rfl) (fun q _ _ _ will => ?_) (fun outside => ?_) ⟨knows.1, ?_⟩
      (CallPc.not_missing rfl)
    · rw [pc] at will
      exact ⟨will, by rw [ThreadState.toWriter_self]; trivial⟩
    · exact absurd rfl (outside c p)
    · exact ⟨⟨i, c.buf, c.localCount⟩, by rw [ThreadState.toWriter_self]; rfl, points⟩
  | inBlock c p =>
    rw [pc] at knows
    obtain ⟨place, r, asked, points⟩ := knows
    simp only [callNext, pc] at step
    have holds : p ∈ (s.call w).holds := by
      rw [pc]
      exact List.mem_cons_self
    split at step
    · rename_i q last
      cases step
      refine ok.of_call (CallState.view_setMutex _ p false) ⟨rfl, rfl⟩ (ok.handOff.end_block last)
        (fun x other => s.core.toWriter_other other _) (fun _ => .inl rfl)
        (fun i => by rw [pc]; rfl)
        (fun q => by rw [pc]; exact unlock_tokens (ok.locked_of_call_holds holds) q)
        (fun q _ _ _ will => ?_) (fun _ => ?_) trivial (CallPc.not_missing rfl)
      · rw [pc, last] at will
        exact will.2.elim
      · exact s.core.toWriter_self w .idle
    · obtain ⟨core, next, rfl⟩ := Option.map_eq_some_iff.mp step
      have effect := block_effect asked next
      have stays : ({ s with core := core } : CallState C W N S) =
          { s with core := core }.toCall w (.inBlock c p) := by
        simp only [CallState.toCall, ← pc, Function.update_eq_self]
      rw [stays]
      refine ok.of_call rfl ⟨rfl, rfl⟩ (ok.handOff.block_step next) effect.writers (fun i => ?_)
        (fun i => by rw [pc]) (fun q => by rw [pc]) (fun q i bound isFree will => ?_)
        (fun outside => absurd rfl (outside c p)) ⟨place, r, effect.asked, points⟩
        (CallPc.not_missing rfl)
      · rcases effect.state i with same | ⟨dirty, rfl⟩
        · exact .inl same
        · exact .inr ⟨dirty, p, holds, points⟩
      · rw [pc] at will
        obtain ⟨rfl, clear⟩ := will
        rw [points] at bound
        cases bound
        refine ⟨rfl, ?_⟩
        rcases effect.clear clear with clear' | dirty
        · exact clear'
        · rw [isFree] at dirty
          cases dirty

omit [DecidableEq W] in
/-- A step of a balloon thread that only moves on and counts. -/
theorem balloon_goto (ok : CallsOk s) {b : Fin defaultNumBalloon} {before pc : BalloonPc N}
    (freeEnqueueIdx freeCount : Nat) (was : s.balloon b = before)
    (freed : pc.freed = before.freed) (holds : pc.holds = before.holds)
    (other : before.storing = false)
    (here : pc.Local s.view s.core.state (Function.update s.balloon b pc)) :
    CallsOk ({ s with
      freeEnqueueIdx := freeEnqueueIdx, freeCount := freeCount }.toBalloon b pc) := by
  subst was
  exact ok.of_balloon rfl ⟨rfl, rfl⟩ ok.handOff rfl (fun _ => .inl rfl) (fun i => by rw [freed])
    (fun p => by rw [holds]) (fun p mine => .inl (holds ▸ mine))
    (fun i p here => absurd here (BalloonPc.ne_storeFree other i p)) here

omit [DecidableEq W] in
/-- The writer of a call only locks inodes that a node points to. -/
theorem bound_of_locked (ok : CallsOk s) {w : W} {i : InodeIdx N}
    (locked : i ∈ (s.core.writer w).locked) : ∃ p, s.view.inode p = some i := by
  have knows := ok.call w
  cases pc : s.call w with
  | inBlock c p =>
    rw [pc] at knows
    obtain ⟨_, r, asked, points⟩ := knows
    refine ⟨p, ?_⟩
    cases writer : s.core.writer w <;> rw [writer] at locked asked <;> cases asked
    all_goals
      first
        | cases List.mem_singleton.mp locked
          exact points
        | cases locked
  | _ =>
    rw [ok.idle_of_outside pc rfl] at locked
    cases locked

omit [DecidableEq W] in
theorem balloon_step [NeZero S] (ok : CallsOk s) {b : Fin defaultNumBalloon}
    (frees : FreesAlone s (.balloon b)) (spares : Spares s (.balloon b))
    (step : balloonNext b s = some t) : CallsOk t := by
  have knows := ok.balloon b
  cases pc : s.balloon b with
  | idle =>
    simp only [balloonNext, pc] at step
    obtain ⟨⟨idx, queue⟩, _, rfl⟩ := Option.map_eq_some_iff.mp step
    have handOff : HandOff { s.core with
        cleanQueue := Function.update s.core.cleanQueue b queue } :=
      ⟨ok.handOff.dirty, ok.handOff.sync, ok.handOff.lock, ok.handOff.knows, ok.handOff.old,
        ok.handOff.narrow, ok.handOff.sized⟩
    exact ok.of_balloon rfl ⟨rfl, rfl⟩ handOff rfl (fun _ => .inl rfl) (fun i => by rw [pc]; rfl)
      (fun p => by rw [pc]; rfl) (fun _ mine => absurd mine List.not_mem_nil)
      (fun i p here => absurd (pc.symm.trans here) (BalloonPc.ne_storeFree rfl i p)) trivial
  | test idx =>
    simp only [balloonNext, pc] at step
    cases step
    by_cases clean : s.core.state idx = .clean
    · simp only [clean, ne_eq, not_true_eq_false, if_false]
      refine ok.balloon_goto _ _ pc rfl rfl rfl ?_
      have placed : ∃ p, s.view.Placed s.balloon idx p := by
        by_cases bound : ∃ p, s.view.inode p = some idx
        · obtain ⟨p, points⟩ := bound
          exact ⟨p, ok.heap.bound p idx points, .inl points⟩
        · rcases ok.free idx fun p points => bound ⟨p, points⟩ with isFree | ⟨c, p, freeing⟩
          · rw [clean] at isFree
            cases isFree
          · have theirs := ok.balloon c
            rw [freeing] at theirs
            exact ⟨p, theirs.1, .inr ⟨c, freeing⟩⟩
      obtain ⟨p, keyed, found⟩ := placed
      refine ⟨p, keyed, ?_⟩
      rcases found with points | ⟨c, freeing⟩
      · exact .inl points
      · have other : c ≠ b := by
          rintro rfl
          rw [pc] at freeing
          cases freeing
        exact .inr ⟨c, by rw [Function.update_of_ne other, freeing]⟩
    · simp only [ne_eq, clean, not_false_eq_true, if_true]
      exact ok.balloon_goto _ _ pc rfl rfl rfl trivial
  | search idx =>
    rw [pc] at knows
    simp only [balloonNext, pc] at step
    obtain ⟨v, volume, step⟩ := Option.bind_eq_some_iff.mp step
    obtain ⟨q, found, step⟩ := Option.bind_eq_some_iff.mp step
    cases step
    obtain ⟨p, ⟨v', volume', found'⟩, placed⟩ := knows
    obtain rfl : v' = v := Option.some.inj (volume'.symm.trans volume)
    obtain rfl : p = q := Option.some.inj (found'.symm.trans found)
    refine ok.balloon_goto _ _ pc rfl rfl rfl
      ⟨⟨v', volume', found'⟩, ?_⟩
    rcases placed with points | ⟨c, freeing⟩
    · exact .inl points
    · have other : c ≠ b := by
        rintro rfl
        rw [pc] at freeing
        cases freeing
      exact .inr ⟨c, by rw [Function.update_of_ne other, freeing]⟩
  | tryLock idx p =>
    rw [pc] at knows
    simp only [balloonNext, pc] at step
    split at step
    · cases step
      exact ok.balloon_goto _ _ pc rfl rfl rfl trivial
    · rename_i unlocked
      cases step
      have unlocked' : (s.node p).mutex = false := by simpa using unlocked
      have points : s.view.inode p = some idx := by
        rcases knows.2 with points | ⟨c, freeing⟩
        · exact points
        · have locked :=
            ok.locked_of_holds (b := c) (p := p) (by rw [freeing]; exact List.mem_cons_self)
          rw [unlocked'] at locked
          cases locked
      refine ok.of_balloon (s.view_setMutex p true) ⟨rfl, rfl⟩ ok.handOff rfl (fun _ => .inl rfl)
        (fun i => by rw [pc]; rfl) (fun q => by rw [pc]; exact lock_tokens unlocked' q)
        (fun q mine => .inr ?_)
        (fun i p here => absurd (pc.symm.trans here) (BalloonPc.ne_storeFree rfl i p)) points
      cases List.mem_singleton.mp mine
      obtain ⟨v, _, found⟩ := ok.heap.bound p idx points
      exact ok.heap.allocated _ _ _ found
  | retest idx p =>
    rw [pc] at knows
    simp only [balloonNext, pc] at step
    obtain ⟨i, points, rfl⟩ := Option.map_eq_some_iff.mp step
    obtain rfl : idx = i := Option.some.inj (knows.symm.trans points)
    by_cases clean : s.core.state idx = .clean
    · simp only [clean, ne_eq, not_true_eq_false, if_false]
      exact ok.balloon_goto _ _ pc rfl rfl rfl
        ⟨knows, clean⟩
    · simp only [ne_eq, clean, not_false_eq_true, if_true]
      exact ok.balloon_goto _ _ pc rfl rfl rfl trivial
  | giveUp p | unlock p =>
    simp only [balloonNext, pc] at step
    cases step
    have locked := ok.locked_of_holds (b := b) (p := p) (by rw [pc]; exact List.mem_cons_self)
    exact ok.of_balloon (s.view_setMutex p false) ⟨rfl, rfl⟩ ok.handOff rfl (fun _ => .inl rfl)
      (fun i => by rw [pc]; rfl) (fun q => by rw [pc]; exact unlock_tokens locked q)
      (fun _ mine => absurd mine List.not_mem_nil)
      (fun i p here => absurd (pc.symm.trans here) (BalloonPc.ne_storeFree rfl i p)) trivial
  | delete idx p =>
    simp only [balloonNext, pc] at step
    obtain ⟨v, _, rfl⟩ := Option.map_eq_some_iff.mp step
    exact ok.delete pc v (spares idx p pc)
  | storeFree idx p =>
    rw [pc] at knows
    simp only [balloonNext, pc] at step
    cases step
    have freed : idx ∈ (s.balloon b).freed := by
      rw [pc]
      exact List.mem_cons_self
    have unheld : ∀ w, idx ∉ (s.core.writer w).locked := by
      intro w locked
      obtain ⟨q, points⟩ := ok.bound_of_locked locked
      exact ok.unbound_of_freed freed q points
    refine ok.of_balloon rfl ⟨rfl, rfl⟩ (ok.handOff.of_free knows.2 unheld) rfl (fun i => ?_)
      (fun i => by rw [pc]; rfl) (fun q => by rw [pc]; rfl)
      (fun q mine => .inl (by rw [pc]; exact mine))
      (fun i q here => ?_) trivial
    · by_cases mine : i = idx
      · subst i
        exact .inr ⟨Function.update_self _ _ _, p, pc⟩
      · exact .inl (Function.update_of_ne mine _ _)
    · rw [pc] at here
      cases here
      exact ⟨Function.update_self _ _ _, frees idx p pc⟩
  | count idx p | nextQueue idx p =>
    simp only [balloonNext, pc] at step
    cases step
    exact ok.balloon_goto _ _ pc rfl rfl rfl trivial
  | enqueue idx p k =>
    simp only [balloonNext, pc] at step
    obtain ⟨queue, queued, rfl⟩ := Option.map_eq_some_iff.mp step
    refine ok.of_balloon rfl ⟨rfl, rfl⟩ ok.handOff rfl (fun _ => .inl rfl) (fun i => ?_)
      (fun q => by rw [pc]; rfl) (fun q mine => .inl (by rw [pc]; exact mine))
      (fun i p here => absurd (pc.symm.trans here) (BalloonPc.ne_storeFree rfl i p)) trivial
    rw [pc, copies_enqueue queued]
    simp only [BalloonPc.freed, List.count_nil, List.count_singleton, beq_iff_eq]
    omega

/-- What one careful step keeps. -/
theorem next [NeZero S] (ok : CallsOk s) {e : CallEvent W S} (careful : Careful s e)
    (step : callsNext s e = some t) : CallsOk t := by
  cases e with
  | call w c => exact ok.call_step careful.narrow careful.searches step
  | flusher v =>
    obtain ⟨core, next, rfl⟩ := Option.map_eq_some_iff.mp step
    have effect := drain_effect ok.handOff next
    refine ok.of_core (ok.handOff.drain_step next) effect.writers (fun i => ?_) fun i clean => ?_
    · rcases effect.state i with same | ⟨old, new⟩
      · rw [same]
      · simp [old, new]
    · rcases effect.state i with same | ⟨old, _⟩
      · exact same.trans clean
      · rw [clean] at old
        cases old
  | syncer k =>
    obtain ⟨core, next, rfl⟩ := Option.map_eq_some_iff.mp step
    obtain ⟨writers, states⟩ := sync_effect ok.handOff next
    refine ok.of_core (ok.handOff.syncer_step next) writers (fun i => ?_) fun i clean => ?_
    · rcases states i with same | ⟨old, new⟩
      · rw [same]
      · simp [old, new]
    · rcases states i with same | ⟨old, _⟩
      · exact same.trans clean
      · rw [clean] at old
        cases old
  | balloon b => exact ok.balloon_step careful.frees careful.spares step

theorem of_reachable [NeZero S] {guard : CallState C W N S → CallEvent W S → Prop}
    (careful : ∀ s e, guard s e → Careful s e) (reach : (calls C W N S).ReachableBy guard s) :
    CallsOk s :=
  reach.invariant (fun _ initial => start initial) fun _ _ _ ok allowed step =>
    ok.next (careful _ _ allowed) step

end CallsOk

end BurstBuffer.Source
