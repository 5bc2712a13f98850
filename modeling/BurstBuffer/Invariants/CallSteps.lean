import BurstBuffer.Invariants.Calls

/-!
# The steps of calls, threads and balloon threads
-/
namespace BurstBuffer.Source

open Library

section Cores

variable {W : Type} {N S : Nat} [Fintype W] [DecidableEq W] [NeZero S]

/-- What a step of writer `w` in the block of inode `i` does. -/
structure BlockEffect (s t : ThreadState W N S) (w : W) (r : Request N) : Prop where
  writers : ∀ x, x ≠ w → t.writer x = s.writer x
  asked : (t.writer w).request = some r
  state : ∀ i, t.state i = s.state i ∨ t.state i = .dirty ∧ i = r.inode
  clear : (s.writer w).Clear → (t.writer w).Clear ∨ t.state r.inode = .dirty
  cleans : t.syncer = s.syncer ∧ t.cleanQueue = s.cleanQueue

omit [Fintype W] [NeZero S] in
theorem block_effect {s t : ThreadState W N S} {volume : InodeIdx N → Option VolumeIdx}
    {v : VolumeIdx} {w : W} {r : Request N} (asked : (s.writer w).request = some r)
    (step : blockNext volume v w s = some t) : BlockEffect s t w r := by
  have others : ∀ (u : ThreadState W N S) pc x, u.writer = s.writer → x ≠ w →
      (u.toWriter w pc).writer x = s.writer x := by
    intro u pc x writers other
    rw [u.toWriter_other other, writers]
  cases pc : s.writer w with
  | idle | lockNode | unlockNode =>
    simp only [blockNext, pc] at step
    cases step
  | lockInode q =>
    rw [pc] at asked
    cases asked
    simp only [blockNext, pc, writerNext] at step
    split at step
    · cases step
    · cases step
      exact ⟨fun x => others _ _ x rfl, by rw [ThreadState.toWriter_self]; rfl, fun i => .inl rfl,
        fun _ => .inl (by rw [ThreadState.toWriter_self]; trivial), rfl, rfl⟩
  | readState q =>
    rw [pc] at asked
    cases asked
    simp only [blockNext, pc, writerNext] at step
    cases step
    exact ⟨fun x => others _ _ x rfl, by rw [ThreadState.toWriter_self]; rfl, fun i => .inl rfl,
      fun _ => .inl (by rw [ThreadState.toWriter_self]; trivial), rfl, rfl⟩
  | storeDirty q oldState =>
    rw [pc] at asked
    cases asked
    simp only [blockNext, pc, writerNext] at step
    cases step
    refine ⟨fun x => others _ _ x rfl, by rw [ThreadState.toWriter_self]; rfl, fun i => ?_,
      fun _ => .inr (by simp [ThreadState.toWriter]), rfl, rfl⟩
    by_cases mine : i = r.inode
    · exact .inr ⟨by simp [ThreadState.toWriter, mine], mine⟩
    · exact .inl (by simp [ThreadState.toWriter, mine])
  | writeData q oldState =>
    rw [pc] at asked
    cases asked
    simp only [blockNext, pc] at step
    obtain ⟨u, _, rfl⟩ := Option.map_eq_some_iff.mp step
    exact ⟨fun x => others _ _ x rfl, by rw [ThreadState.toWriter_self]; rfl, fun i => .inl rfl,
      by rw [pc]; exact False.elim, rfl, rfl⟩
  | countDirty q oldState =>
    rw [pc] at asked
    cases asked
    simp only [blockNext, pc, writerNext] at step
    split at step <;> cases step
    all_goals
      exact ⟨fun x => others _ _ x rfl, by rw [ThreadState.toWriter_self]; rfl, fun i => .inl rfl,
        by rw [pc]; exact False.elim, rfl, rfl⟩
  | enqueue q =>
    rw [pc] at asked
    cases asked
    simp only [blockNext, pc, writerNext] at step
    obtain ⟨queue, _, rfl⟩ := Option.map_eq_some_iff.mp step
    exact ⟨fun x => others _ _ x rfl, by rw [ThreadState.toWriter_self]; rfl, fun i => .inl rfl,
      by rw [pc]; exact False.elim, rfl, rfl⟩
  | unlockInode q =>
    rw [pc] at asked
    cases asked
    simp only [blockNext, pc, writerNext] at step
    cases step
    exact ⟨fun x => others _ _ x rfl, by rw [ThreadState.toWriter_self]; rfl, fun i => .inl rfl,
      by rw [pc]; exact False.elim, rfl, rfl⟩

omit [NeZero S] in
theorem HandOff.block_step {s t : ThreadState W N S} (ok : HandOff s)
    {volume : InodeIdx N → Option VolumeIdx} {v : VolumeIdx} {w : W}
    (step : blockNext volume v w s = some t) : HandOff t := by
  have narrow := ok.narrow w
  cases pc : s.writer w with
  | idle | lockNode | unlockNode =>
    simp only [blockNext, pc] at step
    cases step
  | writeData r oldState =>
    rw [pc] at narrow
    simp only [blockNext, pc] at step
    obtain ⟨u, _, rfl⟩ := Option.map_eq_some_iff.mp step
    have same : writerNext (blocksOf N u) w r s = some
        ((writeThreadData (blocksOf N u) (inodeIdxOfPointer r.inode) r.buf r.localCount s).toWriter w
          (.countDirty r oldState)) := by
      simp only [writerNext, pc]
    exact ok.writer_step (narrow r rfl) same
  | lockInode r | readState r | storeDirty r | countDirty r | enqueue r | unlockInode r =>
    rw [pc] at narrow
    simp only [blockNext, pc] at step
    exact ok.writer_step (narrow r rfl) step

/-- What a step of a flusher does to what others see. -/
structure DrainEffect (s t : ThreadState W N S) : Prop where
  writers : t.writer = s.writer
  state : ∀ i, t.state i = s.state i ∨ s.state i = .dirty ∧ t.state i = .sync
  cleans : t.syncer = s.syncer ∧ t.cleanQueue = s.cleanQueue

omit [DecidableEq W] in
theorem drain_effect {s t : ThreadState W N S} (ok : HandOff s) {lbn : InodeIdx N → Nat}
    {volume : InodeIdx N → Option VolumeIdx} {v : VolumeIdx}
    (step : drainNext lbn volume v s = some t) : DrainEffect s t := by
  have alone := fun i mine => ok.dirties_alone (v := v) (i := i) mine
  cases pc : s.flusher v with
  | write rest =>
    cases rest with
    | nil =>
      simp only [drainNext, pc, flusherNext] at step
      cases step
      exact ⟨rfl, fun i => .inl rfl, rfl, rfl⟩
    | cons start rest =>
      simp only [drainNext, pc] at step
      obtain ⟨u, _, rfl⟩ := Option.map_eq_some_iff.mp step
      exact ⟨rfl, fun i => .inl rfl, rfl, rfl⟩
  | idle =>
    simp only [drainNext, pc, flusherNext] at step
    cases step
    exact ⟨rfl, fun i => .inl rfl, rfl, rfl⟩
  | collect iIdxs numDirtyInodes writeSize =>
    simp only [drainNext, pc, flusherNext] at step
    split at step
    · obtain ⟨_, _, rfl⟩ := Option.map_eq_some_iff.mp step
      exact ⟨rfl, fun i => .inl rfl, rfl, rfl⟩
    · cases step
      exact ⟨rfl, fun i => .inl rfl, rfl, rfl⟩
  | tryLock iIdxs numDirtyInodes writeSize idx =>
    simp only [drainNext, pc, flusherNext] at step
    split at step <;> cases step <;> exact ⟨rfl, fun i => .inl rfl, rfl, rfl⟩
  | enqueueAgain iIdxs numDirtyInodes writeSize idx =>
    simp only [drainNext, pc, flusherNext] at step
    obtain ⟨_, _, rfl⟩ := Option.map_eq_some_iff.mp step
    exact ⟨rfl, fun i => .inl rfl, rfl, rfl⟩
  | handOff batch rest =>
    cases batch with
    | nil | cons =>
      simp only [drainNext, pc, flusherNext] at step
      cases step
      exact ⟨rfl, fun i => .inl rfl, rfl, rfl⟩
  | storeSync idx batch rest =>
    rw [pc] at alone
    simp only [drainNext, pc, flusherNext] at step
    cases step
    refine ⟨rfl, fun i => ?_, rfl, rfl⟩
    by_cases here : i = idx
    · subst i
      exact .inr ⟨(alone idx List.mem_cons_self).1, by simp [ThreadState.toFlusher]⟩
    · exact .inl (by simp [ThreadState.toFlusher, here])
  | nextQueue idx batch rest =>
    simp only [drainNext, pc, flusherNext] at step
    cases step
    exact ⟨rfl, fun i => .inl rfl, rfl, rfl⟩
  | enqueue idx k batch rest =>
    simp only [drainNext, pc, flusherNext] at step
    obtain ⟨_, _, rfl⟩ := Option.map_eq_some_iff.mp step
    exact ⟨rfl, fun i => .inl rfl, rfl, rfl⟩

omit [DecidableEq W] in
theorem HandOff.drain_step {s t : ThreadState W N S} (ok : HandOff s) {lbn : InodeIdx N → Nat}
    {volume : InodeIdx N → Option VolumeIdx} {v : VolumeIdx}
    (step : drainNext lbn volume v s = some t) : HandOff t := by
  unfold drainNext at step
  split at step
  · rename_i start rest pc
    obtain ⟨u, _, rfl⟩ := Option.map_eq_some_iff.mp step
    refine ok.of_flusher ⟨rfl, rfl, rfl⟩ (fun i => ?_) (fun i => ?_) (fun i => ?_) ok.knows trivial
    all_goals
      rw [pc]
      simp only [FlusherPc.dequeued, FlusherPc.dirties, FlusherPc.syncs, List.take_append_drop]
  · exact ok.flusher_step step

omit [DecidableEq W] [NeZero S] in
/-- A step of a sync thread makes SYNC inodes CLEAN. -/
theorem sync_effect {s t : ThreadState W N S} (ok : HandOff s) {k : Fin S}
    (step : syncerNext k s = some t) : t.writer = s.writer ∧
      ∀ i, t.state i = s.state i ∨ s.state i = .sync ∧ t.state i = .clean := by
  have alone := fun i mine => ok.syncs_alone (k := k) (i := i) mine
  cases pc : s.syncer k with
  | idle | sync =>
    simp only [syncerNext, pc] at step
    cases step
    exact ⟨rfl, fun i => .inl rfl⟩
  | loop n =>
    cases n with
    | zero =>
      simp only [syncerNext, pc] at step
      cases step
      exact ⟨rfl, fun i => .inl rfl⟩
    | succ n =>
      simp only [syncerNext, pc] at step
      obtain ⟨_, _, rfl⟩ := Option.map_eq_some_iff.mp step
      exact ⟨rfl, fun i => .inl rfl⟩
  | storeClean idx n =>
    rw [pc] at alone
    simp only [syncerNext, pc] at step
    cases step
    refine ⟨rfl, fun i => ?_⟩
    by_cases here : i = idx
    · subst i
      exact .inr ⟨(alone idx List.mem_cons_self).1, by simp [ThreadState.toSyncer]⟩
    · exact .inl (by simp [ThreadState.toSyncer, here])
  | nextQueue idx n =>
    simp only [syncerNext, pc] at step
    cases step
    exact ⟨rfl, fun i => .inl rfl⟩
  | enqueue idx c n =>
    simp only [syncerNext, pc] at step
    obtain ⟨_, _, rfl⟩ := Option.map_eq_some_iff.mp step
    exact ⟨rfl, fun i => .inl rfl⟩
  | unlock idx n =>
    simp only [syncerNext, pc] at step
    cases step
    exact ⟨rfl, fun i => .inl rfl⟩

omit [DecidableEq W] [NeZero S] in
/-- A balloon thread makes a CLEAN inode FREE that no writer has locked. -/
theorem HandOff.of_free {s : ThreadState W N S} (ok : HandOff s) {i : InodeIdx N}
    (clean : s.state i = .clean) (unheld : ∀ w, i ∉ (s.writer w).locked) :
    HandOff { s with state := Function.update s.state i .free } where
  dirty j := by
    by_cases here : j = i
    · subst j
      simpa [dirtyTokens, clean] using ok.dirty i
    · simpa [dirtyTokens, here] using ok.dirty j
  sync j := by
    by_cases here : j = i
    · subst j
      simpa [syncTokens, clean] using ok.sync i
    · simpa [syncTokens, here] using ok.sync j
  lock := ok.lock
  knows w := (ok.knows w).update (unheld w) _
  old := ok.old
  narrow := ok.narrow
  sized := ok.sized

end Cores

namespace CallPc

variable {N : Nat} {h : HeapView N} {writer : WriterPc N} {pc : CallPc N}

/-- The node found under a key without a valid node points nowhere. -/
theorem empty_of_missing (knows : pc.Local h writer) {v : VolumeIdx} {l : Nat}
    (missing : pc.missing = some (v, l)) {p : NodePtr} (found : h.nodeAt v l = some p) :
    h.inode p = none := by
  cases pc with
  | isValid c here =>
    cases here with
    | none =>
      cases missing
      rw [knows] at found
      cases found
    | some q => cases missing
  | isEnough c here | nextFree c here | dequeue c here | storeKey c here =>
    cases missing
    exact knows.2 p (knows.1.symm.trans found)
  | uncount c here | publish c here =>
    cases missing
    exact knows.1.2 p (knows.1.1.symm.trans found)
  | _ => cases missing

theorem some_of_relies (knows : pc.Local h writer) {p : NodePtr} (mine : p ∈ pc.relies) :
    (h.inode p).isSome := by
  cases pc with
  | lockNode c q fresh =>
    cases fresh with
    | true =>
      cases List.mem_singleton.mp mine
      exact knows.2 rfl
    | false => cases mine
  | readInode c q =>
    cases List.mem_singleton.mp mine
    exact knows.2
  | inBlock c q =>
    cases List.mem_singleton.mp mine
    obtain ⟨_, r, _, points⟩ := knows
    rw [points]
    rfl
  | _ => cases mine

end CallPc

variable {C : CuckoohashMap} {W : Type} {N S : Nat} [Fintype W]

namespace CallsOk

variable {s t : CallState C W N S}

theorem taken_alone (ok : CallsOk s) {w x : W} {i : InodeIdx N} (mine : i ∈ (s.call w).taken)
    (theirs : i ∈ (s.call x).taken) : w = x := by
  have one := ok.unbound i (ok.unbound_of_taken mine)
  unfold freeTokens at one
  exact eq_of_copies_le_one (F := fun w => (s.call w).taken) (by omega) mine theirs

/-- What a call has taken no balloon thread has found CLEAN. -/
theorem not_tested_of_taken (ok : CallsOk s) {w : W} {i : InodeIdx N}
    (mine : i ∈ (s.call w).taken) (b : Fin defaultNumBalloon) : i ∉ (s.balloon b).tested := by
  intro theirs
  have unbound := ok.unbound_of_taken mine
  have unfreed := ok.not_freed_of_taken mine
  have notPlaced : ∀ p, ¬ s.view.Placed s.balloon i p := by
    rintro p ⟨_, points | ⟨c, freeing⟩⟩
    · exact unbound p points
    · exact unfreed c (by rw [freeing]; exact List.mem_cons_self)
  have knows := ok.balloon b
  cases pc : s.balloon b with
  | search idx =>
    rw [pc] at theirs knows
    cases List.mem_singleton.mp theirs
    obtain ⟨p, placed⟩ := knows
    exact notPlaced p placed
  | tryLock idx p =>
    rw [pc] at theirs knows
    cases List.mem_singleton.mp theirs
    exact notPlaced p knows
  | retest idx p =>
    rw [pc] at theirs knows
    cases List.mem_singleton.mp theirs
    exact unbound p knows
  | delete idx p =>
    rw [pc] at theirs knows
    cases List.mem_singleton.mp theirs
    exact unbound p knows.1
  | storeFree idx p =>
    rw [pc] at theirs
    cases List.mem_singleton.mp theirs
    exact unfreed b (by rw [pc]; exact List.mem_cons_self)
  | _ =>
    rw [pc] at theirs
    cases theirs

variable [DecidableEq W]

/-- A call stores its key into the inode it has taken. -/
theorem storeKey (ok : CallsOk s) {w : W} {c : Call} {found : Option NodePtr} {idx : InodeIdx N}
    (pc : s.call w = .storeKey c found idx) :
    CallsOk ({ s with
      lbn := Function.update s.lbn idx c.lbn
      volume := Function.update s.volume idx (some c.volume) }.toCall w (.uncount c found idx)) := by
  have mine : idx ∈ (s.call w).taken := by
    rw [pc]
    exact List.mem_cons_self
  set t := { s with
    lbn := Function.update s.lbn idx c.lbn
    volume := Function.update s.volume idx (some c.volume) }.toCall w (.uncount c found idx)
    with ht
  have view : t.view = s.view.rekey idx c.volume c.lbn := rfl
  have here : t.call w = .uncount c found idx := CallState.toCall_self _ w _
  have there : ∀ x, x ≠ w → t.call x = s.call x := by
    intro x other
    exact CallState.toCall_other _ other _
  have taken : ∀ x, (t.call x).taken = (s.call x).taken := by
    intro x
    by_cases same : x = w
    · rw [same, here, pc]
      rfl
    · rw [there x same]
  have holds : ∀ x, (t.call x).holds = (s.call x).holds := by
    intro x
    by_cases same : x = w
    · rw [same, here, pc]
      rfl
    · rw [there x same]
  have missing : ∀ x, (t.call x).missing = (s.call x).missing := by
    intro x
    by_cases same : x = w
    · rw [same, here, pc]
      rfl
    · rw [there x same]
  have tokens : ∀ i, freeTokens t i = freeTokens s i := by
    intro i
    simp only [freeTokens, taken]
    rfl
  refine ⟨ok.handOff, ok.heap.rekey _ _ (ok.unbound_of_taken mine), fun p i points => ?_,
    fun i nobody => ?_, ok.free, fun p i points isFree => ?_, fun p => ?_, ok.fresh,
    fun x outside => ?_, fun x => ?_, fun b => ?_, fun x y key => ?_⟩
  · rw [tokens]
    exact ok.bound p i points
  · rw [tokens]
    exact ok.unbound i nobody
  · obtain ⟨x, will⟩ := ok.published p i points isFree
    have other : x ≠ w := by
      rintro rfl
      rw [pc] at will
      exact will
    exact ⟨x, by rw [there x other]; exact will⟩
  · have before := ok.mutex p
    simp only [nodeTokens, holds]
    exact before
  · by_cases same : x = w
    · exact ok.quiet x (by rw [same, pc]; exact CallPc.ne_inBlock rfl)
    · rw [there x same] at outside
      exact ok.quiet x outside
  · by_cases same : x = w
    · subst x
      have knows := ok.call w
      rw [pc] at knows
      rw [here]
      exact ⟨knows, by simp [view, HeapView.rekey], by simp [view, HeapView.rekey]⟩
    · rw [there x same]
      refine (ok.call x).change (fun _ _ _ kept => kept) (fun _ _ _ => ⟨rfl, fun _ _ => rfl⟩)
        (fun _ _ => rfl) fun i theirs => ?_
      have other : i ≠ idx := by
        rintro rfl
        exact same (ok.taken_alone theirs mine)
      simp [view, HeapView.rekey, other]
  · refine (ok.balloon b).change (fun i theirs p keyed => ?_) (fun _ _ _ placed => placed.2)
      (fun _ _ _ points => points) fun _ _ _ clean => clean
    have other : i ≠ idx := by
      rintro rfl
      exact ok.not_tested_of_taken mine b theirs
    obtain ⟨v, volume, found⟩ := keyed
    exact ⟨v, by simpa [view, HeapView.rekey, other] using volume,
      by simpa [view, HeapView.rekey, other] using found⟩
  · rw [missing, missing]
    exact ok.apart x y key

/-- A call publishes node `p` under its key, with the inode it has taken. -/
theorem publish (ok : CallsOk s) {w : W} {c : Call} {found : Option NodePtr} {idx : InodeIdx N}
    (pc : s.call w = .publish c found idx) {u : CallState C W N S} {p : NodePtr}
    (core : u.core = s.core) (queue : u.freeQueue = s.freeQueue)
    (pcs : u.call = s.call ∧ u.balloon = s.balloon)
    (mutex : ∀ q, (u.node q).mutex = (s.node q).mutex) (heap : HeapOk u.view)
    (keys : u.view.volume = s.view.volume ∧ u.view.lbn = s.view.lbn)
    (inode : u.view.inode = Function.update s.view.inode p (some idx))
    (placed : u.view.nodeAt c.volume c.lbn = some p)
    (kept : ∀ v l q, s.view.nodeAt v l = some q → u.view.nodeAt v l = some q)
    (others : ∀ v l, (v, l) ≠ (c.volume, c.lbn) → u.view.nodeAt v l = s.view.nodeAt v l)
    (next : s.view.next ≤ u.view.next) (empty : s.view.inode p = none) :
    CallsOk (u.toCall w (.lockNode c p true)) := by
  obtain ⟨calls, balloons⟩ := pcs
  obtain ⟨volume, lbn⟩ := keys
  have mine : idx ∈ (s.call w).taken := by
    rw [pc]
    exact List.mem_cons_self
  have view : (u.toCall w (.lockNode c p true)).view = u.view := rfl
  have points_p : u.view.inode p = some idx := by rw [inode, Function.update_self]
  have elsewhere : ∀ {q}, q ≠ p → u.view.inode q = s.view.inode q := by
    intro q other
    rw [inode, Function.update_of_ne other]
  have apart_p : ∀ {q i}, s.view.inode q = some i → q ≠ p := by
    rintro q i points rfl
    rw [empty] at points
    cases points
  have here : (u.toCall w (.lockNode c p true)).call w = .lockNode c p true :=
    u.toCall_self w _
  have there : ∀ x, x ≠ w → (u.toCall w (.lockNode c p true)).call x = s.call x := by
    intro x other
    rw [u.toCall_other other, calls]
  have tokens : ∀ i, freeTokens (u.toCall w (.lockNode c p true)) i +
      (if idx = i then 1 else 0) = freeTokens s i := by
    intro i
    have moved := copies_goto CallPc.taken s.call w (.lockNode c p true) i
    have gone : (CallPc.lockNode c p true : CallPc N).taken.count i = 0 := rfl
    have had : (CallPc.publish c found idx).taken.count i = if idx = i then 1 else 0 := by
      simp [CallPc.taken, List.count_singleton]
    rw [pc] at moved
    simp only [freeTokens, CallState.toCall, calls, balloons, queue]
    omega
  refine ⟨core ▸ ok.handOff, heap, fun q i points => ?_, fun i nobody => ?_, fun i nobody => ?_,
    fun q i points isFree => ?_, fun q => ?_, fun q beyond => ?_, fun x outside => ?_,
    fun x => ?_, fun b => ?_, fun x y key first second => ?_⟩
  · rw [view] at points
    have change := tokens i
    by_cases same : q = p
    · subst q
      rw [points_p] at points
      cases points
      have one := ok.unbound idx (ok.unbound_of_taken mine)
      rw [if_pos rfl] at change
      omega
    · rw [elsewhere same] at points
      have none := ok.bound q i points
      omega
  · rw [view] at nobody
    have change := tokens i
    have other : idx ≠ i := by
      rintro rfl
      exact nobody p points_p
    have before := ok.unbound i fun q points =>
      nobody q ((elsewhere (apart_p points)).trans points)
    rw [if_neg other] at change
    omega
  · rw [view] at nobody
    have before := ok.free i fun q points => nobody q ((elsewhere (apart_p points)).trans points)
    simpa only [CallState.toCall, core, balloons] using before
  · rw [view] at points
    by_cases same : q = p
    · subst q
      exact ⟨w, by rw [here]; rfl⟩
    · rw [elsewhere same] at points
      simp only [CallState.toCall, core] at isFree
      obtain ⟨x, will⟩ := ok.published q i points isFree
      have other : x ≠ w := by
        rintro rfl
        rw [pc] at will
        exact will
      refine ⟨x, ?_⟩
      rw [there x other]
      simpa only [CallState.toCall, core] using will
  · have moved := copies_goto CallPc.holds s.call w (.lockNode c p true) q
    have before := ok.mutex q
    have unlocked : (CallPc.lockNode c p true : CallPc N).holds.count q = 0 := rfl
    have unlocked' : (CallPc.publish c found idx).holds.count q = 0 := rfl
    rw [pc] at moved
    simp only [nodeTokens, CallState.toCall, calls, balloons, mutex] at before ⊢
    omega
  · rw [view] at beyond
    exact (mutex q).trans (ok.fresh q (Nat.le_trans next beyond))
  · have idle : s.core.writer x = .idle := by
      by_cases same : x = w
      · exact ok.quiet x (by rw [same, pc]; exact CallPc.ne_inBlock rfl)
      · rw [there x same] at outside
        exact ok.quiet x outside
    simpa only [CallState.toCall, core] using idle
  · rw [view]
    by_cases same : x = w
    · subst x
      rw [here]
      exact ⟨placed, fun _ => by rw [points_p]; rfl⟩
    · rw [there x same]
      have knows := ok.call x
      have change : (s.call x).Local u.view (s.core.writer x) := by
        refine knows.change kept (fun v l missing => ?_) (fun q relied => ?_)
          fun i _ => ⟨congrFun volume i, congrFun lbn i⟩
        · have other : (v, l) ≠ (c.volume, c.lbn) := by
            intro equal
            exact same (ok.apart x w _ (equal ▸ missing) (by rw [pc]; rfl))
          refine ⟨others v l other, fun q seen => elsewhere ?_⟩
          rintro rfl
          obtain ⟨rfl, rfl⟩ := heap.owner _ _ _ _ _ (kept v l q seen) placed
          exact other rfl
        · obtain ⟨i, points⟩ := Option.isSome_iff_exists.mp (CallPc.some_of_relies knows relied)
          exact elsewhere (apart_p points)
      simpa only [CallState.toCall, core] using change
  · rw [view]
    have change : (s.balloon b).Local u.view s.core.state s.balloon := by
      refine (ok.balloon b).change (fun i _ q keyed => ?_) (fun i q _ found => ?_)
        (fun i q _ points => (elsewhere (apart_p points)).trans points) fun _ _ _ clean => clean
      · obtain ⟨v, carried, seen⟩ := keyed
        exact ⟨v, (congrFun volume i).trans carried, kept v _ q (by rw [lbn]; exact seen)⟩
      · rcases found.2 with points | freeing
        · exact .inl ((elsewhere (apart_p points)).trans points)
        · exact .inr freeing
    simpa only [CallState.toCall, core, balloons] using change
  · by_cases same : x = w
    · rw [same, here] at first
      cases first
    · by_cases same' : y = w
      · rw [same', here] at second
        cases second
      · rw [there x same] at first
        rw [there y same'] at second
        exact ok.apart x y key first second

omit [DecidableEq W] in
/-- A balloon thread deletes the node of its inode. -/
theorem delete (ok : CallsOk s) {b : Fin defaultNumBalloon} {idx : InodeIdx N} {p : NodePtr}
    (pc : s.balloon b = .delete idx p) (v : VolumeIdx)
    (spared : ∀ w c, s.call w ≠ .lockNode c p true) :
    CallsOk ((s.deleteNode v p).toBalloon b (.storeFree idx p)) := by
  obtain ⟨points_p, clean⟩ : s.view.inode p = some idx ∧ s.core.state idx = .clean := by
    have knows := ok.balloon b
    rw [pc] at knows
    exact knows
  have holds : p ∈ (s.balloon b).holds := by
    rw [pc]
    exact List.mem_cons_self
  set t := (s.deleteNode v p).toBalloon b (.storeFree idx p) with ht
  have view : t.view = s.view.point p none := CallState.view_deleteNode s v p
  have inode_p : t.view.inode p = none := by simp [view, HeapView.point]
  have elsewhere : ∀ {q}, q ≠ p → t.view.inode q = s.view.inode q := by
    intro q other
    simp [view, HeapView.point, other]
  have apart_p : ∀ {q i}, t.view.inode q = some i → q ≠ p ∧ s.view.inode q = some i := by
    intro q i points
    have other : q ≠ p := by
      rintro rfl
      rw [inode_p] at points
      cases points
    exact ⟨other, (elsewhere other).symm.trans points⟩
  have here : t.balloon b = .storeFree idx p := CallState.toBalloon_self _ b _
  have there : ∀ c, c ≠ b → t.balloon c = s.balloon c := by
    intro c other
    exact CallState.toBalloon_other _ other _
  have tokens : ∀ i, freeTokens t i = freeTokens s i + if idx = i then 1 else 0 := by
    intro i
    have moved := copies_goto BalloonPc.freed s.balloon b (.storeFree idx p) i
    have had : (BalloonPc.delete idx p).freed.count i = 0 := rfl
    have has : (BalloonPc.storeFree idx p).freed.count i = if idx = i then 1 else 0 := by
      simp [BalloonPc.freed, List.count_singleton]
    rw [pc] at moved
    simp only [freeTokens, ht, CallState.toBalloon, CallState.deleteNode]
    omega
  have unkeyed : ∀ i, none = some i → s.view.Keyed i p := by
    intro i points
    cases points
  refine ⟨ok.handOff, view ▸ ok.heap.point unkeyed, fun q i points => ?_, fun i nobody => ?_,
    fun i nobody => ?_, fun q i points isFree => ?_, fun q => ?_, fun q beyond => ?_, ok.quiet,
    fun x => ?_, fun c => ?_, ok.apart⟩
  · obtain ⟨other, old⟩ := apart_p points
    have apart : idx ≠ i := by
      rintro rfl
      exact other (ok.heap.unique old points_p)
    rw [tokens, if_neg apart, ok.bound q i old]
  · rw [tokens]
    by_cases same : idx = i
    · subst i
      rw [if_pos rfl, ok.bound p idx points_p]
    · rw [if_neg same]
      refine ok.unbound i fun q points => ?_
      have other : q ≠ p := by
        rintro rfl
        rw [points_p] at points
        exact same (Option.some.inj points)
      exact nobody q ((elsewhere other).trans points)
  · by_cases same : i = idx
    · subst i
      exact .inr ⟨b, p, here⟩
    · have before := ok.free i fun q points => by
        have other : q ≠ p := by
          rintro rfl
          rw [points_p] at points
          exact same (Option.some.inj points).symm
        exact nobody q ((elsewhere other).trans points)
      rcases before with isFree | ⟨c, q, freeing⟩
      · exact .inl isFree
      · have other : c ≠ b := by
          rintro rfl
          rw [pc] at freeing
          cases freeing
        exact .inr ⟨c, q, (there c other).trans freeing⟩
  · exact ok.published q i (apart_p points).2 isFree
  · have moved := copies_goto BalloonPc.holds s.balloon b (.storeFree idx p) q
    have before := ok.mutex q
    have same : (BalloonPc.storeFree idx p).holds = (BalloonPc.delete idx p).holds := rfl
    rw [pc, same] at moved
    have mutex : (t.node q).mutex = (s.node q).mutex := CallState.deleteNode_mutex s v p q
    rw [mutex]
    simp only [nodeTokens, ht, CallState.toBalloon, CallState.deleteNode] at before ⊢
    omega
  · have mutex : (t.node q).mutex = (s.node q).mutex := CallState.deleteNode_mutex s v p q
    rw [view] at beyond
    exact mutex.trans (ok.fresh q beyond)
  · have knows := ok.call x
    refine knows.change (fun w l q seen => ?_) (fun w l missing => ?_) (fun q relied => ?_)
      fun i _ => ?_
    · rw [view]
      exact seen
    · refine ⟨by rw [view]; rfl, fun q seen => elsewhere ?_⟩
      rintro rfl
      have none := CallPc.empty_of_missing knows missing seen
      rw [points_p] at none
      cases none
    · apply elsewhere
      rintro rfl
      cases at_ : s.call x with
      | lockNode c r fresh =>
        rw [at_] at relied
        cases fresh with
        | true =>
          cases List.mem_singleton.mp relied
          exact spared x c at_
        | false => cases relied
      | readInode c r | inBlock c r =>
        rw [at_] at relied
        cases List.mem_singleton.mp relied
        exact ok.holds_apart (w := x) (by rw [at_]; exact List.mem_cons_self) holds
      | _ =>
        rw [at_] at relied
        cases relied
    · rw [view]
      exact ⟨rfl, rfl⟩
  · by_cases same : c = b
    · subst c
      rw [here, view]
      exact ⟨ok.heap.bound p idx points_p, clean⟩
    · rw [there c same]
      refine (ok.balloon c).change (fun i _ q keyed => ?_) (fun i q _ placed => ?_)
        (fun i q at_ points => ?_) fun _ _ _ isClean => isClean
      · rw [view]
        exact keyed
      · rcases placed.2 with points | ⟨d, freeing⟩
        · by_cases deleted : q = p
          · subst q
            rw [points_p] at points
            cases points
            exact .inr ⟨b, here⟩
          · exact .inl ((elsewhere deleted).trans points)
        · have other : d ≠ b := by
            rintro rfl
            rw [pc] at freeing
            cases freeing
          exact .inr ⟨d, (there d other).trans freeing⟩
      · have theirs : q ∈ (s.balloon c).holds := by
          rcases at_ with at_ | at_ <;>
            · rw [at_]
              exact List.mem_cons_self
        have other : q ≠ p := by
          rintro rfl
          exact same (ok.balloon_holds_alone theirs holds)
        exact (elsewhere other).trans points

end CallsOk

end BurstBuffer.Source
