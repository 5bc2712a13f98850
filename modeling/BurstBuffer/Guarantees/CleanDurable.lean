import BurstBuffer.Invariants.CleanDurable
import BurstBuffer.Invariants.WideIndex

/-!
# SYNC blocks stand still, CLEAN blocks are on disk
-/
namespace BurstBuffer.Guarantees

open Library Source

variable {W : Type} {N S : Nat} [DecidableEq W] [NeZero S]

structure CleanIsDurable (guard : ThreadState W N S → ThreadEvent W N S → Prop) (a : Assignment N)
    (s : ThreadState W N S) : Prop where
  /-- No step out of the state changes the bytes of a SYNC inode. -/
  syncKept : ∀ i, s.state i = .sync → ∀ e t, guard s e → threadNext a s e = some t →
    t.blockOf i = s.blockOf i
  cleanDurable : ∀ i, s.state i = .clean → (∀ w, i ∉ (s.writer w).locked) →
    readAt blockSize (s.durable (a.volume i)) (blockSize * a.lbn i) = s.blockOf i

/-- Only a writer changes bytes, those of the inode it has locked and made DIRTY. -/
theorem blockOf_of_sync [Fintype W] {a : Assignment N} {s t : ThreadState W N S}
    (hand : HandOff s) (ok : Durability a s) {i : InodeIdx N} (isSync : s.state i = .sync)
    {e : ThreadEvent W N S} (step : threadNext a s e = some t) : t.blockOf i = s.blockOf i := by
  cases e with
  | writer w request =>
    have knows := hand.knows w
    have narrow := hand.narrow w
    simp only [threadNext, writerNext] at step
    split at step
    case h_6 r oldState pc =>
      rw [pc] at knows narrow
      cases step
      have dirty : s.state r.inode = .dirty := knows
      have other : i ≠ r.inode := by
        rintro rfl
        cases dirty.symm.trans isSync
      rw [inodeIdxOfPointer_of_lt (narrow r rfl)]
      exact Durability.blockOf_writeThreadData ok.owned other r.buf r.localCount
    case h_8 =>
      obtain ⟨_, _, rfl⟩ := Option.map_eq_some_iff.mp step
      rfl
    case h_1 | h_2 | h_3 | h_7 =>
      split at step <;> cases step <;> rfl
    all_goals
      cases step
      rfl
  | flusher v =>
    simp only [threadNext, flusherNext] at step
    split at step
    case h_2 =>
      split at step
      · obtain ⟨_, _, rfl⟩ := Option.map_eq_some_iff.mp step
        rfl
      · cases step
        rfl
    case h_3 =>
      split at step <;> cases step <;> rfl
    case h_4 | h_11 =>
      obtain ⟨_, _, rfl⟩ := Option.map_eq_some_iff.mp step
      rfl
    all_goals
      cases step
      rfl
  | syncer k =>
    simp only [threadNext, syncerNext] at step
    split at step
    case h_4 | h_7 =>
      obtain ⟨_, _, rfl⟩ := Option.map_eq_some_iff.mp step
      rfl
    all_goals
      cases step
      rfl

/-- For any number of writers and sync threads, in every run of narrow requests. -/
theorem clean_is_durable (W : Type) [Fintype W] [DecidableEq W] (N S : Nat) [NeZero S]
    (a : Assignment N) (low : ∀ i, a.lbn i < 2 ^ 32 - 1) (s : ThreadState W N S)
    (reach : (threads W S a).ReachableBy NarrowRequest s) : CleanIsDurable NarrowRequest a s := by
  obtain ⟨hand, ok⟩ := Durability.of_reachable low reach
  exact ⟨fun i isSync _ _ _ step => blockOf_of_sync hand ok isSync step,
    fun i isClean _ => ok.clean i isClean⟩

/-- A block written, flushed and synced, with a second one behind it in the dirty queue. -/
theorem clean_is_durable_one : ∃ s : ThreadState Unit 2 1,
    s.state 0 = .clean ∧ CleanIsDurable NarrowRequest (oneVolume 2 zeroVolume) s := by
  obtain ⟨s, steps, isClean⟩ : ∃ s,
      (threads Unit 1 (oneVolume 2 zeroVolume)).run (blankThreads Unit 2 1)
        (oneWrite ⟨0, fun _ => 0, blockSize⟩ ++ oneWrite ⟨1, fun _ => 0, blockSize⟩ ++
          List.replicate 9 (.flusher zeroVolume) ++ List.replicate 4 (.syncer 0)) = some s ∧
      s.state 0 = .clean := ⟨_, rfl, rfl⟩
  exact ⟨s, isClean, clean_is_durable Unit 2 1 (oneVolume 2 zeroVolume) (fun i => by
    have small := i.isLt
    change i.val < 2 ^ 32 - 1
    omega) s
    (.run (.init blankThreads_start) (fun e _ u => narrowRequest_of_small (by decide) u e) steps)⟩

/-- The inode whose index wraps to `0`. -/
abbrev wideInode : InodeIdx wideN := ⟨2 ^ 26, by decide⟩

/-- Inodes `0` and `1` written, and inode `0` set to SYNC by the flusher. Then the
writer goes on with inode `2^26`, up to its copy. -/
def upToWideCopy : List (ThreadEvent Unit wideN 1) :=
  oneWrite ⟨⟨0, by decide⟩, fun _ => 0, blockSize⟩ ++
    oneWrite ⟨⟨1, by decide⟩, fun _ => 0, blockSize⟩ ++
    List.replicate 7 (.flusher zeroVolume) ++
    List.replicate 5 (.writer () ⟨wideInode, fun _ => 1, blockSize⟩)

/-- With `2^27` inodes, a write to inode `2^26` stores into the block of inode `0`
while that is SYNC. -/
theorem clean_is_durable_wide : ¬ ∀ s : ThreadState Unit wideN 1,
    (threads Unit 1 (oneVolume wideN zeroVolume)).Reachable s →
      CleanIsDurable (fun _ _ => True) (oneVolume wideN zeroVolume) s := by
  intro holds
  obtain ⟨s, t, steps, isSync, step, before, after⟩ : ∃ s t,
      (threads Unit 1 (oneVolume wideN zeroVolume)).run (blankThreads Unit wideN 1)
        upToWideCopy = some s ∧
      s.state ⟨0, by decide⟩ = .sync ∧
      threadNext (oneVolume wideN zeroVolume) s
        (.writer () ⟨wideInode, fun _ => 1, blockSize⟩) = some t ∧
      s.blockOf ⟨0, by decide⟩ ⟨0, by decide⟩ = 0 ∧
      t.blockOf ⟨0, by decide⟩ ⟨0, by decide⟩ = 1 := ⟨_, _, rfl, rfl, rfl, rfl, rfl⟩
  have kept := (holds s (.run (.init blankThreads_start) steps)).syncKept _ isSync _ t trivial step
  rw [kept, before] at after
  exact absurd after (by decide)

end BurstBuffer.Guarantees
