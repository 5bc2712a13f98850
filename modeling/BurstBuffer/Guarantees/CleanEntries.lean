import BurstBuffer.Guarantees.BalloonSafety
import BurstBuffer.Invariants.CleanEntries

/-!
# No CLEAN inode is leaked

With one writer, and any flush, sync and balloon threads.
-/
namespace BurstBuffer.Guarantees

open Library Source

section Statement

variable {C : CuckoohashMap} {W : Type} {N S : Nat}

/-- No call holds the node of inode `i`, no sync thread and no balloon thread has
the inode in its hands. -/
structure Untouched (s : CallState C W N S) (i : InodeIdx N) : Prop where
  calls : ∀ w p, (s.node p).inode = some i → p ∉ (s.call w).holds
  syncers : ∀ k, i ∉ (s.core.syncer k).cleans
  balloons : ∀ b, i ∉ (s.balloon b).entry

def HasEntry (s : CallState C W N S) (i : InodeIdx N) : Prop :=
  ∃ b, i ∈ (s.core.cleanQueue b).values

structure EntriesKept (s : CallState C W N S) (e : CallEvent W S) : Prop where
  narrow : NarrowInode s e
  frees : FreesAlone s e
  keeps : KeepsEntry s e

end Statement

section Derive

variable {C : CuckoohashMap} {N S : Nat} {s : CallState C Unit N S}

theorem EntriesKept.undisputed {e : CallEvent Unit S} (kept : EntriesKept s e) :
    Undisputed s e := by
  refine ⟨?_, kept.narrow, kept.frees⟩
  cases e with
  | call w c => exact fun _ x other => absurd rfl other
  | flusher | syncer | balloon => trivial

theorem reclaimable_of_reachable [NeZero S]
    (reach : (calls C Unit N S).ReachableBy EntriesKept s) :
    (CallsOk s ∧ VolumeCalls s) ∧ Reclaimable s := by
  apply reach.invariant
  · exact fun s start => ⟨⟨CallsOk.start start, VolumeCalls.start start⟩, Reclaimable.start start⟩
  · rintro s e t ⟨⟨ok, volumes⟩, before⟩ allowed step
    have undisputed := allowed.undisputed
    exact ⟨⟨ok.next (undisputed.careful ok volumes) step,
      volumes.next ok undisputed.volumes step⟩, before.next ok allowed.keeps step⟩

/-- Nobody works on the inode, so its entry lies in a queue. -/
theorem hasEntry_of_reclaimable {W : Type} {s : CallState C W N S} (before : Reclaimable s)
    {i : InodeIdx N} (clean : s.core.state i = .clean) (untouched : Untouched s i) :
    HasEntry s i := by
  rcases before i clean with entry | ⟨w, p, points, will⟩
  · have noBalloon : copies (fun b => (s.balloon b).entry) i = 0 :=
      copies_eq_zero.mpr untouched.balloons
    have noSyncer : copies (fun k => (s.core.syncer k).owes) i = 0 := by
      refine copies_eq_zero.mpr fun k owed => untouched.syncers k ?_
      cases pc : s.core.syncer k with
      | nextQueue idx n | enqueue idx c n =>
        rw [pc] at owed
        exact owed
      | _ =>
        rw [pc] at owed
        cases owed
    have queued : 0 < copies (contents s.core.cleanQueue) i := by
      unfold entries queueEntries at entry
      omega
    exact copies_pos.mp queued
  · exact absurd (CallPc.holds_of_upcoming will) (untouched.calls w p points)

end Derive

/-- A CLEAN inode that nobody works on has an entry in a clean queue, in every run in which a
trylock on its node fails only because of a call that is about to make it DIRTY, and a balloon
thread frees no inode another one has found CLEAN. -/
theorem clean_entries (C : CuckoohashMap) (N S : Nat) [NeZero S] (s : CallState C Unit N S)
    (reach : (calls C Unit N S).ReachableBy EntriesKept s) (i : InodeIdx N)
    (clean : s.core.state i = .clean) (untouched : Untouched s i) : HasEntry s i :=
  hasEntry_of_reclaimable (reclaimable_of_reachable reach).2 clean untouched

def balloonAtRest {N : Nat} : BalloonPc N → Bool
  | .idle => true
  | _ => false

def threadsAtRest {N S : Nat} (s : CallState functionMap Unit N S) : Bool :=
  atRest (s.call ()) &&
    (List.finRange S).all (fun k => match s.core.syncer k with
      | .idle => true
      | _ => false) &&
    (List.finRange defaultNumBalloon).all fun b => balloonAtRest (s.balloon b)

theorem untouched_of_rest {N S : Nat} {s : CallState functionMap Unit N S}
    (rest : threadsAtRest s = true) (i : InodeIdx N) : Untouched s i := by
  obtain ⟨front, balloons⟩ := Bool.and_eq_true_iff.mp rest
  obtain ⟨call, syncers⟩ := Bool.and_eq_true_iff.mp front
  constructor
  · intro w p _
    rw [idle_of_atRest call]
    exact List.not_mem_nil
  · intro k member
    have idle := List.all_eq_true.mp syncers k (List.mem_finRange k)
    cases pc : s.core.syncer k <;> rw [pc] at idle member <;>
      first
        | exact absurd idle Bool.false_ne_true
        | cases member
  · intro b member
    have idle := List.all_eq_true.mp balloons b (List.mem_finRange b)
    cases pc : s.balloon b <;> rw [pc] at idle member <;>
      first
        | exact absurd idle Bool.false_ne_true
        | cases member

/-- A call that has the node under `p` locked and has not come to its block. -/
def beforeBlock {N : Nat} (p : NodePtr) : CallPc N → Bool
  | .recheck _ q | .readInode _ q => q = p
  | _ => false

theorem upcoming_of_beforeBlock {N : Nat} {p : NodePtr} {pc : CallPc N} {writer : WriterPc N}
    (check : beforeBlock p pc = true) : pc.Upcoming writer p := by
  cases pc with
  | recheck c q | readInode c q => exact of_decide_eq_true (p := q = p) check
  | _ => cases check

/-- What `EntriesKept` asks of a balloon thread, to be evaluated. -/
def keepsCheck {N : Nat} (s : CallState functionMap Unit N 2) : CallEvent Unit 2 → Bool
  | .balloon b =>
    match s.balloon b with
    | .tryLock _ p => !(s.node p).mutex || beforeBlock p (s.call ())
    | .storeFree _ _ =>
      (List.finRange defaultNumBalloon).all fun c => c = b || balloonAtRest (s.balloon c)
    | _ => true
  | _ => true

theorem entriesKept_of_check {N : Nat} (small : N ≤ 2 ^ 26) (s : CallState functionMap Unit N 2)
    (e : CallEvent Unit 2) (check : keepsCheck s e = true) : EntriesKept s e := by
  cases e with
  | call w c => exact ⟨narrowInode_of_small small s _, trivial, trivial⟩
  | flusher | syncer => exact ⟨trivial, trivial, trivial⟩
  | balloon b =>
    refine ⟨trivial, fun idx p freeing c other => ?_, fun idx p at_ locked _ => ?_⟩
    · rw [keepsCheck, freeing] at check
      have still := List.all_eq_true.mp check c (List.mem_finRange c)
      simp only [other, decide_false, Bool.false_or] at still
      refine ⟨fun searching => ?_, fun q locking => ?_⟩
      · rw [searching] at still
        cases still
      · rw [locking] at still
        cases still
    · simp only [keepsCheck, at_, locked, Bool.not_true, Bool.false_or] at check
      exact Or.inl ⟨(), upcoming_of_beforeBlock check⟩

/-- After a round of writes, flush and syncs the writer locks the node of inode `0` again. One
balloon thread takes its entry and drops it, another one takes that of inode `4` and frees it. -/
def dropAndFree : List (CallEvent Unit 2) :=
  cleanRound ++ callSteps () 0 4 ++ List.replicate 4 (.balloon 0) ++
    List.replicate 11 (.balloon 2) ++ callSteps () 0 10

theorem clean_entries_taken : ∃ s : CallState functionMap Unit 112 2,
    s.core.state 0 = .dirty ∧ (∀ b, 0 ∉ (s.core.cleanQueue b).values) ∧ s.core.state 4 = .free ∧
      s.core.state 1 = .clean ∧ HasEntry s 1 := by
  have runs : ((calls functionMap Unit 112 2).runBy (fun s e => keepsCheck s e = true)
      (blankCalls Unit 112 2) dropAndFree).any (fun s => threadsAtRest s &&
        decide (s.core.state 0 = .dirty ∧ (∀ b, 0 ∉ (s.core.cleanQueue b).values) ∧
          s.core.state 4 = .free ∧ s.core.state 1 = .clean)) = true := by decide +kernel
  obtain ⟨s, steps, holds⟩ := (Option.any_eq_true _ _).mp runs
  obtain ⟨rest, found⟩ := Bool.and_eq_true_iff.mp holds
  obtain ⟨isDirty, dropped, isFree, isClean⟩ := of_decide_eq_true found
  have reach : (calls functionMap Unit 112 2).ReachableBy EntriesKept s :=
    Machine.ReachableBy.of_test (I := fun _ => True) (fun _ _ _ _ _ _ => trivial)
      (fun u e _ check => entriesKept_of_check (by decide) u e check) (.init blankCalls_start)
      trivial steps
  exact ⟨s, isDirty, dropped, isFree, isClean,
    clean_entries _ _ _ s reach 1 isClean (untouched_of_rest rest 1)⟩

/-- The writer has stored DIRTY, written and unlocked inode 0 a second time, but still
holds its node, while the inode is flushed and synced and a balloon thread takes
its only entry. -/
def dropEntry : List (CallEvent Unit 2) :=
  (List.range 12).flatMap (fun lbn => callSteps () lbn 19) ++ callSteps () 0 12 ++
    List.replicate 71 (.flusher 0) ++ List.replicate 33 (.syncer 0) ++
    List.replicate 28 (.syncer 1) ++ List.replicate 4 (.balloon 0) ++ callSteps () 0 1

theorem clean_entries_dropped : ¬ ∀ s : CallState functionMap Unit 112 2,
    (calls functionMap Unit 112 2).Reachable s → ∀ i, s.core.state i = .clean → Untouched s i →
      HasEntry s i := by
  intro holds
  have runs : ((calls functionMap Unit 112 2).run (blankCalls Unit 112 2) dropEntry).any
      (fun s => decide (s.core.state 0 = .clean) && threadsAtRest s &&
        decide (∀ b, (0 : InodeIdx 112) ∉ (s.core.cleanQueue b).values)) = true := by
    decide +kernel
  obtain ⟨s, steps, found⟩ := (Option.any_eq_true _ _).mp runs
  obtain ⟨front, dropped⟩ := Bool.and_eq_true_iff.mp found
  obtain ⟨isClean, rest⟩ := Bool.and_eq_true_iff.mp front
  obtain ⟨b, member⟩ := holds s (.run (.init blankCalls_start) steps) 0 (of_decide_eq_true isClean)
    (untouched_of_rest rest 0)
  exact of_decide_eq_true dropped b member

end BurstBuffer.Guarantees
