import BurstBuffer.Invariants.CallEffects

/-!
# One inode per block under concurrent writers
-/
namespace BurstBuffer.Guarantees

open Library Source

section Statement

variable {C : CuckoohashMap} {W : Type} {N S : Nat}

/-- No call is in flight, and no balloon thread. -/
def Quiet (s : CallState C W N S) : Prop :=
  (∀ w, s.call w = .idle) ∧ ∀ b, s.balloon b = .idle

/-- No balloon thread runs while a call is in flight. -/
def Calm (s : CallState C W N S) : CallEvent W S → Prop
  | .call _ _ => ∀ b, s.balloon b = .idle
  | .balloon _ => ∀ w, s.call w = .idle
  | _ => True

structure OneInode (s : CallState C W N S) (v : VolumeIdx) : Prop where
  once : ∀ i j, s.core.state i ≠ .free → s.core.state j ≠ .free → s.volume i = some v →
    s.volume j = some v → s.lbn i = s.lbn j → i = j
  node : ∀ i, s.core.state i ≠ .free → s.volume i = some v →
    ∃ p, s.nodeAt v (s.lbn i) = some p ∧ (s.node p).isValid = true ∧ (s.node p).inode = some i
  free : ∀ i, s.core.state i = .free → ∃ k, i ∈ (s.freeQueue k).values

/-- The steps of calls that do not race for a key, with the balloon threads at rest
while they run. -/
structure Unraced (s : CallState C W N S) (e : CallEvent W S) : Prop where
  calm : Calm s e
  narrow : NarrowInode s e
  searches : SearchesAlone s e
  frees : FreesAlone s e

end Statement

section Derive

variable {C : CuckoohashMap} {W : Type} {N S : Nat} {s : CallState C W N S} {e : CallEvent W S}

theorem Unraced.careful (unraced : Unraced s e) : Careful s e := by
  refine ⟨⟨unraced.searches, unraced.frees, ?_⟩, unraced.narrow⟩
  cases e with
  | balloon b =>
    intro idx p _ w c at_
    have idle := unraced.calm w
    rw [idle] at at_
    cases at_
  | call | flusher | syncer => trivial

variable [Fintype W]

theorem oneInode_of_callsOk (ok : CallsOk s) (quiet : Quiet s) (v : VolumeIdx) :
    OneInode s v := by
  obtain ⟨calls, balloons⟩ := quiet
  have bound : ∀ i, s.core.state i ≠ .free → ∃ p, s.view.inode p = some i := by
    intro i used
    by_contra nobody
    rcases ok.free i fun p points => nobody ⟨p, points⟩ with isFree | ⟨b, p, freeing⟩
    · exact used isFree
    · rw [balloons] at freeing
      cases freeing
  have node : ∀ i, s.core.state i ≠ .free → s.volume i = some v →
      ∃ p, s.nodeAt v (s.lbn i) = some p ∧ s.view.inode p = some i := by
    intro i used volume
    obtain ⟨p, points⟩ := bound i used
    obtain ⟨w, volume', found⟩ := ok.heap.bound p i points
    obtain rfl : w = v := Option.some.inj (volume'.symm.trans volume)
    exact ⟨p, found, points⟩
  constructor
  · intro i j used used' volume volume' lbn
    obtain ⟨p, found, points⟩ := node i used volume
    obtain ⟨q, found', points'⟩ := node j used' volume'
    rw [← lbn, found] at found'
    cases found'
    rw [points] at points'
    exact Option.some.inj points'
  · intro i used volume
    obtain ⟨p, found, points⟩ := node i used volume
    refine ⟨p, found, ?_, points⟩
    rw [ok.valid_eq, points]
    rfl
  · intro i isFree
    have unbound : ∀ p, s.view.inode p ≠ some i := by
      intro p points
      obtain ⟨w, will⟩ := ok.published p i points isFree
      rw [calls] at will
      exact will
    have one := ok.unbound i unbound
    simp only [freeTokens, calls, balloons, CallPc.taken, BalloonPc.freed, copies_nil] at one
    have present : 0 < copies (contents s.freeQueue) i := by omega
    exact copies_pos.mp present

end Derive

/-- In every quiet state of every run in which a call that finds no valid node under its key is
alone with it, calls and balloon threads are not in flight together and no two balloon threads
free one inode, each block of a volume has one inode, with its valid node, and every FREE
inode is in a free queue. -/
theorem one_inode (C : CuckoohashMap) (W : Type) [Fintype W] [DecidableEq W] (N S : Nat) [NeZero S]
    (s : CallState C W N S) (reach : (calls C W N S).ReachableBy Unraced s) (quiet : Quiet s)
    (v : VolumeIdx) : OneInode s v := by
  exact oneInode_of_callsOk (CallsOk.of_reachable (fun _ _ => Unraced.careful) reach) quiet v

/-- Steps of one thread while no other call is on its way to publish a node. -/
theorem unraced_turn {C : CuckoohashMap} {W : Type} [DecidableEq W] {N S : Nat} [NeZero S]
    (small : N ≤ 2 ^ 26) {s t : CallState C W N S} (reach : (calls C W N S).ReachableBy Unraced s)
    (still : ∀ b, s.balloon b = .idle) {w : W} (alone : ∀ x, x ≠ w → (s.call x).missing = none)
    {lbn n : Nat} (steps : (calls C W N S).run s (callSteps w lbn n) = some t) :
    (calls C W N S).ReachableBy Unraced t ∧ ∀ b, t.balloon b = .idle := by
  obtain ⟨reach', still', _⟩ := reach.run_while
    (I := fun u => (∀ b, u.balloon b = .idle) ∧ ∀ x, x ≠ w → (u.call x).missing = none)
    (fun u e v before member step => by
      obtain ⟨still, alone⟩ := before
      obtain ⟨_, rfl⟩ := List.mem_replicate.mp member
      have races := raceFree_call (zeroBlock lbn) alone
      refine ⟨⟨still, narrowInode_of_small small u _, races.searches, races.frees⟩,
        fun b => callNext_balloon step ▸ still b, fun x other => ?_⟩
      rw [callNext_others step other]
      exact alone x other) ⟨still, alone⟩ steps
  exact ⟨reach', still'⟩

theorem alone_of_none {N S : Nat} {s : CallState functionMap Bool N S} {w : Bool}
    (published : (s.call !w).missing.isNone = true) : ∀ x, x ≠ w → (s.call x).missing = none := by
  intro x other
  rw [Bool.eq_not_of_ne other]
  exact Option.isNone_iff_eq_none.mp published

/-- Two calls for one block: the second one finds the node of the first, waits for it and
writes to the same inode. -/
theorem one_inode_turns : ∃ r s : CallState functionMap Bool 112 1,
    r.call false ≠ .idle ∧ r.call true ≠ .idle ∧ s.core.state 0 = .dirty ∧
      s.core.state 1 = .free ∧ OneInode s 0 := by
  let M := calls functionMap Bool 112 1
  have runs : (M.run (blankCalls Bool 112 1) (callSteps false 0 11)).any (fun p =>
      (p.call false).missing.isNone && (M.run p (callSteps true 0 3)).any fun r =>
        !atRest (r.call false) && !atRest (r.call true) && (r.call true).missing.isNone &&
        (M.run r (callSteps false 0 8)).any fun q =>
          (q.call false).missing.isNone && (M.run q (callSteps true 0 10)).any fun s =>
            atRest (s.call false) && atRest (s.call true) &&
              decide (s.core.state 0 = .dirty ∧ s.core.state 1 = .free)) = true := by
    decide +kernel
  simp only [Option.any_eq_true, Bool.and_eq_true, Bool.not_eq_true', decide_eq_true_eq] at runs
  obtain ⟨p, first, published, r, second, ⟨⟨inside, waits⟩, found⟩, q, third, published', s, fourth,
    ⟨⟨rest, rest'⟩, isDirty, isFree⟩⟩ := runs
  have small : 112 ≤ 2 ^ 26 := by decide
  obtain ⟨reach, still⟩ := unraced_turn small (.init blankCalls_start) (fun _ => rfl)
    (fun _ _ => rfl) first
  obtain ⟨reach, still⟩ :=
    unraced_turn small reach still (alone_of_none (w := true) published) second
  obtain ⟨reach, still⟩ := unraced_turn small reach still (alone_of_none (w := false) found) third
  obtain ⟨reach, still⟩ :=
    unraced_turn small reach still (alone_of_none (w := true) published') fourth
  have quiet : Quiet s := ⟨Bool.rec (idle_of_atRest rest) (idle_of_atRest rest'), still⟩
  refine ⟨r, s, ?_, ?_, isDirty, isFree, one_inode _ _ _ _ s reach quiet 0⟩
  · rintro idle
    rw [idle] at inside
    cases inside
  · rintro idle
    rw [idle] at waits
    cases waits

/-- Two calls that both find nothing under a key before either publishes a node. -/
def racingCalls : List (CallEvent Bool 1) :=
  callSteps true 0 4 ++ callSteps false 0 19 ++ callSteps true 0 15

/-- Both write the block, each to an inode of its own. -/
theorem one_inode_racing : ¬ ∀ s : CallState functionMap Bool 112 1,
    (calls functionMap Bool 112 1).ReachableBy Calm s → Quiet s → ∀ v, OneInode s v := by
  intro holds
  have runs : ((calls functionMap Bool 112 1).run (blankCalls Bool 112 1) racingCalls).any
      (fun s => atRest (s.call true) && atRest (s.call false) &&
        decide (s.core.state 0 = .dirty ∧ s.core.state 1 = .dirty ∧ s.volume 0 = some 0 ∧
          s.volume 1 = some 0 ∧ s.lbn 0 = s.lbn 1)) = true := by decide +kernel
  obtain ⟨s, steps, found⟩ := (Option.any_eq_true _ _).mp runs
  obtain ⟨rests, twice⟩ := Bool.and_eq_true_iff.mp found
  obtain ⟨rest, rest'⟩ := Bool.and_eq_true_iff.mp rests
  obtain ⟨dirty, dirty', volume, volume', lbn⟩ := of_decide_eq_true twice
  have calm : ∀ u e t, (∀ b, u.balloon b = .idle) → e ∈ racingCalls →
      (calls functionMap Bool 112 1).next u e = some t → Calm u e ∧ ∀ b, t.balloon b = .idle := by
    intro u e t idle member step
    cases e with
    | call w c => exact ⟨idle, fun b => callNext_balloon step ▸ idle b⟩
    | flusher | syncer | balloon => simp [racingCalls, callSteps] at member
  obtain ⟨reach, balloons⟩ := Machine.ReachableBy.run_while calm (.init blankCalls_start)
    (fun _ => rfl) steps
  have quiet : Quiet s := by
    refine ⟨fun w => ?_, balloons⟩
    cases w with
    | true => exact idle_of_atRest rest
    | false => exact idle_of_atRest rest'
  have one :=
    (holds s reach quiet 0).once 0 1 (by simp [dirty]) (by simp [dirty']) volume volume' lbn
  exact absurd one (by decide)

end BurstBuffer.Guarantees
