import BurstBuffer.Invariants.VolumeCalls

/-!
# What the balloon threads may rely on

With at most one call at a time for each volume.
-/
namespace BurstBuffer.Guarantees

open Library Source

section Statement

variable {C : CuckoohashMap} {W : Type} {N S : Nat}

structure BalloonSafe (s : CallState C W N S) : Prop where
  /-- The inode that is about to be set to FREE. -/
  frees : ∀ b idx p, s.balloon b = .storeFree idx p → s.core.state idx = .clean
  /-- The node that is about to be deleted, for the inode set to FREE after it. -/
  deletes : ∀ b idx p, s.balloon b = .delete idx p →
    (s.node p).isValid = true ∧ (s.node p).inode = some idx ∧ s.core.state idx = .clean
  reads : ∀ b idx p, s.balloon b = .retest idx p → (s.node p).inode ≠ none
  once : ∀ i, copies (contents s.freeQueue) i ≤ 1

/-- No two balloon threads are on their way to free the same inode. -/
structure Undisputed (s : CallState C W N S) (e : CallEvent W S) : Prop where
  volumes : OnePerVolume s e
  narrow : NarrowInode s e
  frees : FreesAlone s e

end Statement

section Derive

variable {C : CuckoohashMap} {W : Type} {N S : Nat} {s : CallState C W N S} {e : CallEvent W S}
  [Fintype W]

theorem Undisputed.careful (undisputed : Undisputed s e) (ok : CallsOk s)
    (volumes : VolumeCalls s) : Careful s e := by
  refine ⟨⟨?_, undisputed.frees, ?_⟩, undisputed.narrow⟩
  · cases e with
    | call w request =>
      intro c at_ x other missing
      have mine : (s.call w).volume = some c.volume := by
        rcases at_ with ⟨searching, _⟩ | ⟨p, testing, _⟩
        · rw [searching]
          rfl
        · rw [testing]
          rfl
      exact other (volumes.apart x w c.volume (CallPc.volume_of_missing missing) mine)
    | flusher | syncer | balloon => trivial
  · cases e with
    | balloon b =>
      intro idx p deleting w c fresh
      have knows := ok.balloon b
      rw [deleting] at knows
      have free := volumes.fresh w c p idx fresh knows.1
      rw [knows.2] at free
      cases free
    | call | flusher | syncer => trivial

variable [DecidableEq W]

theorem undisputed_invariant [NeZero S] (reach : (calls C W N S).ReachableBy Undisputed s) :
    CallsOk s ∧ VolumeCalls s := by
  apply reach.invariant
  · exact fun s start => ⟨CallsOk.start start, VolumeCalls.start start⟩
  · rintro s e t ⟨ok, volumes⟩ allowed step
    exact ⟨ok.next (allowed.careful ok volumes) step, volumes.next ok allowed.volumes step⟩

omit [DecidableEq W] in
theorem balloonSafe_of_callsOk (ok : CallsOk s) : BalloonSafe s := by
  constructor
  · intro b idx p freeing
    have knows := ok.balloon b
    rw [freeing] at knows
    exact knows.2
  · intro b idx p deleting
    have knows := ok.balloon b
    rw [deleting] at knows
    refine ⟨?_, knows.1, knows.2⟩
    rw [ok.valid_eq, knows.1]
    rfl
  · intro b idx p testing null
    have knows := ok.balloon b
    rw [testing] at knows
    exact absurd (knows.symm.trans null) (Option.some_ne_none idx)
  · intro i
    have total : freeTokens s i ≤ 1 := by
      by_cases bound : ∃ p, s.view.inode p = some i
      · obtain ⟨p, points⟩ := bound
        rw [ok.bound p i points]
        exact Nat.zero_le 1
      · exact Nat.le_of_eq (ok.unbound i fun p points => bound ⟨p, points⟩)
    unfold freeTokens at total
    omega

end Derive

/-- For any number of calls, flush, sync and balloon threads. -/
theorem balloon_safe (C : CuckoohashMap) (W : Type) [Fintype W] [DecidableEq W] (N S : Nat)
    [NeZero S] (s : CallState C W N S) (reach : (calls C W N S).ReachableBy Undisputed s) :
    BalloonSafe s :=
  balloonSafe_of_callsOk (undisputed_invariant reach).1

/-- Twelve blocks written, flushed but for the last one, and synced. -/
def cleanRound : List (CallEvent Unit 2) :=
  (List.range 12).flatMap (fun lbn => callSteps () lbn 19) ++ List.replicate 71 (.flusher 0) ++
    List.replicate 33 (.syncer 0) ++ List.replicate 28 (.syncer 1)

/-- A balloon thread takes the first inode and is about to set it to FREE. -/
def freeFirst : List (CallEvent Unit 2) := cleanRound ++ List.replicate 6 (.balloon 0)

def atStoreFree {N : Nat} (idx : InodeIdx N) : BalloonPc N → Bool
  | .storeFree i _ => i = idx
  | _ => false

theorem balloon_safe_first : ∃ s : CallState functionMap Unit 112 2,
    atStoreFree 0 (s.balloon 0) = true ∧ BalloonSafe s := by
  have runs : ((calls functionMap Unit 112 2).run (blankCalls Unit 112 2) freeFirst).any
      (fun s => atStoreFree 0 (s.balloon 0)) = true := by decide +kernel
  obtain ⟨s, steps, freeing⟩ := (Option.any_eq_true _ _).mp runs
  have solo : ∀ u e t, (∀ b, b ≠ 0 → u.balloon b = .idle) → e ∈ freeFirst →
      (calls functionMap Unit 112 2).next u e = some t →
      Undisputed u e ∧ ∀ b, b ≠ 0 → t.balloon b = .idle := by
    intro u e t others member step
    cases e with
    | call w c =>
      refine ⟨⟨fun _ x other => absurd rfl other, fun c p i _ _ => Nat.lt_trans i.isLt (by decide),
        trivial⟩, fun b other => ?_⟩
      rw [callNext_balloon step]
      exact others b other
    | flusher v | syncer k =>
      obtain ⟨core, _, rfl⟩ := Option.map_eq_some_iff.mp step
      exact ⟨⟨trivial, trivial, trivial⟩, others⟩
    | balloon b =>
      obtain rfl : b = 0 := by simpa [freeFirst, cleanRound, callSteps] using member
      refine ⟨⟨trivial, trivial, fun idx p _ c other => ?_⟩, fun c other => ?_⟩
      · rw [others c other]
        exact ⟨nofun, nofun⟩
      · rw [balloonNext_others step other]
        exact others c other
  obtain ⟨reach, _⟩ := Machine.ReachableBy.run_while solo (.init blankCalls_start)
    (fun _ _ => rfl) steps
  exact ⟨s, freeing, balloon_safe _ _ _ _ s reach⟩

/-- A second round leaves inode 4 in two clean queues. Two balloon threads find it
CLEAN; the first one frees it, the second one locks its node after that. -/
def freeTwice : List (CallEvent Unit 2) :=
  cleanRound ++ (List.range 11).flatMap (fun lbn => callSteps () lbn 14) ++
    List.replicate 71 (.flusher 0) ++ List.replicate 28 (.syncer 0) ++
    List.replicate 2 (.balloon 2) ++ List.replicate 4 (.balloon 5) ++
    List.replicate 9 (.balloon 2) ++ List.replicate 2 (.balloon 5)

def readsNull {N : Nat} (node : NodePtr → HashNode N) : BalloonPc N → Bool
  | .retest _ p => (node p).inode.isNone
  | _ => false

theorem balloon_safe_twice : ¬ ∀ s : CallState functionMap Unit 112 2,
    (calls functionMap Unit 112 2).ReachableBy OnePerVolume s → BalloonSafe s := by
  intro holds
  have runs : ((calls functionMap Unit 112 2).run (blankCalls Unit 112 2) freeTwice).any
      (fun s => readsNull s.node (s.balloon 5)) = true := by decide +kernel
  obtain ⟨s, steps, null⟩ := (Option.any_eq_true _ _).mp runs
  have single : ∀ u (e : CallEvent Unit 2), OnePerVolume (C := functionMap) (N := 112) u e := by
    intro u e
    cases e with
    | call w c => exact fun _ x other => absurd rfl other
    | flusher | syncer | balloon => trivial
  have reach := Machine.ReachableBy.run (.init blankCalls_start) (fun e _ u => single u e) steps
  have reads := (holds s reach).reads 5
  cases pc : s.balloon 5 with
  | retest idx p =>
    rw [pc] at null
    exact reads idx p pc (Option.isNone_iff_eq_none.mp null)
  | _ =>
    rw [pc] at null
    cases null

end BurstBuffer.Guarantees
