import BurstBuffer.Invariants.CallEffects

/-!
# One call at a time for each volume

A node that a call has published and not yet locked points to a FREE inode: no
other call gets to it.
-/
namespace BurstBuffer.Source

open Library

variable {C : CuckoohashMap} {W : Type} {N S : Nat}

/-- At most one call is in flight for each volume. -/
def OnePerVolume (s : CallState C W N S) : CallEvent W S → Prop
  | .call w c => s.call w = .idle → ∀ x, x ≠ w → (s.call x).volume ≠ some c.volume
  | _ => True

/-- What one call at a time for each volume gives. -/
structure VolumeCalls (s : CallState C W N S) : Prop where
  apart : ∀ w x v, (s.call w).volume = some v → (s.call x).volume = some v → w = x
  fresh : ∀ w c p i, s.call w = .lockNode c p true → s.view.inode p = some i →
    s.core.state i = .free

variable {s t : CallState C W N S} {e : CallEvent W S} [Fintype W] [DecidableEq W]

omit [DecidableEq W] in
/-- The node of a fresh call and a node held by a call of another volume differ. -/
theorem fresh_apart (ok : CallsOk s) (volumes : VolumeCalls s) {w x : W} {c : Call} {p q : NodePtr}
    {i : InodeIdx N} (fresh : s.call w = .lockNode c p true) (points : s.view.inode p = some i)
    (holds : q ∈ (s.call x).holds) : s.view.inode q ≠ some i := by
  intro points'
  obtain rfl := ok.heap.unique points points'
  have place : s.view.nodeAt c.volume c.lbn = some p := by
    have knows := ok.call w
    rw [fresh] at knows
    exact knows.1
  have placed : ∃ d : Call, s.view.nodeAt d.volume d.lbn = some p ∧
      (s.call x).volume = some d.volume := by
    have knows := ok.call x
    cases at_ : s.call x with
    | recheck d r | release d r =>
      rw [at_] at holds knows
      cases List.mem_singleton.mp holds
      exact ⟨d, knows, rfl⟩
    | readInode d r | inBlock d r =>
      rw [at_] at holds knows
      cases List.mem_singleton.mp holds
      exact ⟨d, knows.1, rfl⟩
    | _ =>
      rw [at_] at holds
      cases holds
  obtain ⟨d, place', theirs⟩ := placed
  obtain ⟨same, _⟩ := ok.heap.owner _ _ _ _ _ place place'
  have mine : (s.call w).volume = some d.volume := by
    rw [fresh, ← same]
    rfl
  obtain rfl := volumes.apart w x d.volume mine theirs
  rw [fresh] at holds
  cases holds

theorem VolumeCalls.call_step [NeZero S] (volumes : VolumeCalls s) (ok : CallsOk s) {w : W}
    {request : Call} (alone : OnePerVolume s (.call w request))
    (step : callNext w request s = some t) : VolumeCalls t := by
  have effect := ok.call_effect step
  have owner : ∀ x v, x ≠ w → (t.call w).volume = some v → (s.call x).volume ≠ some v := by
    intro x v other mine theirs
    rcases effect.volume with none | same | ⟨idle, asked⟩
    · rw [none] at mine
      cases mine
    · exact other (volumes.apart x w v theirs (same ▸ mine))
    · rw [asked] at mine
      cases mine
      exact alone idle x other theirs
  constructor
  · intro x y v first second
    by_cases mine : x = w
    · by_cases yours : y = w
      · exact mine.trans yours.symm
      · rw [effect.calls y yours] at second
        exact absurd second (owner y v yours (mine ▸ first))
    · rw [effect.calls x mine] at first
      by_cases yours : y = w
      · exact absurd first (owner x v mine (yours ▸ second))
      · rw [effect.calls y yours] at second
        exact volumes.apart x y v first second
  · intro x c p i fresh points
    by_cases mine : x = w
    · subst x
      obtain ⟨found, idx, publishing, points'⟩ := effect.fresh c p fresh
      obtain rfl : idx = i := Option.some.inj (points'.symm.trans points)
      have taken : idx ∈ (s.call w).taken := by
        rw [publishing]
        exact List.mem_cons_self
      have unbound := ok.unbound_of_taken taken
      have free : s.core.state idx = .free := by
        rcases ok.free idx unbound with free | ⟨b, q, freeing⟩
        · exact free
        · exact absurd (by rw [freeing]; exact List.mem_cons_self) (ok.not_freed_of_taken taken b)
      rcases effect.state idx with same | ⟨_, q, _, bound⟩
      · exact same.trans free
      · exact absurd bound (unbound q)
    · rw [effect.calls x mine] at fresh
      have before : s.view.inode p = some i := by
        have knows := ok.call x
        rw [fresh] at knows
        obtain ⟨j, points'⟩ := Option.isSome_iff_exists.mp (knows.2 rfl)
        obtain rfl : j = i := Option.some.inj ((effect.inode p j points').symm.trans points)
        exact points'
      rcases effect.state i with same | ⟨_, q, holds, points'⟩
      · exact same.trans (volumes.fresh x c p i fresh before)
      · exact absurd points' (fresh_apart ok volumes fresh before holds)

omit [Fintype W] [DecidableEq W] in
/-- Flushers and sync threads leave FREE inodes alone. -/
theorem VolumeCalls.of_core (volumes : VolumeCalls s) {core : ThreadState W N S}
    (free : ∀ i, s.core.state i = .free → core.state i = .free) :
    VolumeCalls { s with core := core } :=
  ⟨volumes.apart, fun w c p i fresh points => free i (volumes.fresh w c p i fresh points)⟩

omit [Fintype W] [DecidableEq W] in
theorem VolumeCalls.balloon_step [NeZero S] (volumes : VolumeCalls s) {b : Fin defaultNumBalloon}
    (step : balloonNext b s = some t) : VolumeCalls t := by
  have keep : t.call = s.call ∧ (∀ p i, t.view.inode p = some i → s.view.inode p = some i) ∧
      ∀ i, s.core.state i = .free → t.core.state i = .free := by
    cases pc : s.balloon b with
    | idle | retest | enqueue =>
      simp only [balloonNext, pc] at step
      obtain ⟨_, _, rfl⟩ := Option.map_eq_some_iff.mp step
      exact ⟨rfl, fun _ _ points => points, fun _ free => free⟩
    | test | count | nextQueue =>
      simp only [balloonNext, pc] at step
      cases step
      exact ⟨rfl, fun _ _ points => points, fun _ free => free⟩
    | search idx =>
      simp only [balloonNext, pc] at step
      obtain ⟨_, _, step⟩ := Option.bind_eq_some_iff.mp step
      obtain ⟨_, _, step⟩ := Option.bind_eq_some_iff.mp step
      cases step
      exact ⟨rfl, fun _ _ points => points, fun _ free => free⟩
    | tryLock idx p =>
      simp only [balloonNext, pc] at step
      split at step <;> cases step
      · exact ⟨rfl, fun _ _ points => points, fun _ free => free⟩
      · exact ⟨rfl, fun q i points => (s.view_setMutex p true) ▸ points, fun _ free => free⟩
    | giveUp p | unlock p =>
      simp only [balloonNext, pc] at step
      cases step
      exact ⟨rfl, fun q i points => (s.view_setMutex p false) ▸ points, fun _ free => free⟩
    | delete idx p =>
      simp only [balloonNext, pc] at step
      obtain ⟨v, _, rfl⟩ := Option.map_eq_some_iff.mp step
      refine ⟨rfl, fun q i points => ?_, fun _ free => free⟩
      have view : ((s.deleteNode v p).toBalloon b (.storeFree idx p)).view = s.view.point p none :=
        s.view_deleteNode v p
      rw [view] at points
      by_cases here : q = p
      · simp [HeapView.point, here] at points
      · simpa [HeapView.point, here] using points
    | storeFree idx p =>
      simp only [balloonNext, pc] at step
      cases step
      refine ⟨rfl, fun _ _ points => points, fun i free => ?_⟩
      by_cases here : i = idx
      · simp [CallState.toBalloon, here]
      · simpa [CallState.toBalloon, here] using free
  obtain ⟨calls, inode, free⟩ := keep
  constructor
  · rw [calls]
    exact volumes.apart
  · intro w c p i fresh points
    rw [calls] at fresh
    exact free i (volumes.fresh w c p i fresh (inode p i points))

theorem VolumeCalls.next [NeZero S] (volumes : VolumeCalls s) (ok : CallsOk s)
    (alone : OnePerVolume s e) (step : callsNext s e = some t) : VolumeCalls t := by
  cases e with
  | call w request => exact volumes.call_step ok alone step
  | flusher v =>
    obtain ⟨core, next, rfl⟩ := Option.map_eq_some_iff.mp step
    refine volumes.of_core fun i free => ?_
    rcases (drain_effect ok.handOff next).state i with same | ⟨dirty, _⟩
    · exact same.trans free
    · rw [free] at dirty
      cases dirty
  | syncer k =>
    obtain ⟨core, next, rfl⟩ := Option.map_eq_some_iff.mp step
    refine volumes.of_core fun i free => ?_
    rcases (sync_effect ok.handOff next).2 i with same | ⟨sync, _⟩
    · exact same.trans free
    · rw [free] at sync
      cases sync
  | balloon b => exact volumes.balloon_step step

omit [Fintype W] [DecidableEq W] in
theorem VolumeCalls.start (start : CallStart s) : VolumeCalls s := by
  obtain ⟨idle, _⟩ := start.idle
  constructor
  · intro w x v first
    rw [idle] at first
    cases first
  · intro w c p i fresh
    rw [idle] at fresh
    cases fresh

end BurstBuffer.Source
