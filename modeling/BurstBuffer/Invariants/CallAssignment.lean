import Mathlib.Logic.Equiv.Basic
import BurstBuffer.Invariants.CleanDurable
import BurstBuffer.Invariants.CallSteps
import BurstBuffer.Source.CallCrashes

/-!
# The keys of the inodes in use

Calls and balloon threads give the inodes new keys. At each moment the keys of the inodes in
use are those of some assignment of keys to all inodes, and the flushers and the calls in
their blocks take the steps of Threads under it. When a call makes a FREE inode DIRTY, the
inode that had its key is FREE and takes the other key in exchange.
-/
namespace BurstBuffer.Source

open Library

section Keys

variable {N : Nat}

namespace Assignment

def key (a : Assignment N) (i : InodeIdx N) : VolumeIdx × Nat := (a.volume i, a.lbn i)

theorem key_injective (a : Assignment N) : Function.Injective a.key := by
  intro i j same
  obtain ⟨volume, lbn⟩ := Prod.mk.inj same
  exact a.distinct i j volume lbn

/-- Inode `i` gets a key, in exchange for its own. -/
def rebind (a : Assignment N) (i : InodeIdx N) (key : VolumeIdx × Nat) : Assignment N where
  volume j := (Equiv.swap (a.key i) key (a.key j)).1
  lbn j := (Equiv.swap (a.key i) key (a.key j)).2
  distinct _ _ volume lbn := a.key_injective ((Equiv.swap _ _).injective (Prod.ext volume lbn))

variable {a : Assignment N} {i j : InodeIdx N} {key : VolumeIdx × Nat}

theorem rebind_key : (a.rebind i key).key j = Equiv.swap (a.key i) key (a.key j) := rfl

theorem rebind_self : (a.rebind i key).key i = key := by
  rw [rebind_key, Equiv.swap_apply_left]

theorem rebind_other (other : j ≠ i) (apart : a.key j ≠ key) :
    (a.rebind i key).key j = a.key j := by
  rw [rebind_key, Equiv.swap_apply_of_ne_of_ne (fun same => other (a.key_injective same)) apart]

theorem rebind_low {limit : Nat} (low : ∀ j, a.lbn j < limit) (fits : key.2 < limit)
    (j : InodeIdx N) : (a.rebind i key).lbn j < limit := by
  change ((a.rebind i key).key j).2 < limit
  rw [rebind_key, Equiv.swap_apply_def]
  split
  · exact fits
  · split
    · exact low i
    · exact low j

end Assignment

theorem lookAhead_congr {lbn lbn' : InodeIdx N → Nat} {l : List (InodeIdx N)}
    (same : ∀ i ∈ l, lbn i = lbn' i) (currLbn : Nat) :
    lookAhead lbn currLbn l = lookAhead lbn' currLbn l := by
  induction l generalizing currLbn with
  | nil => rfl
  | cons i l ih =>
    simp only [lookAhead, same i List.mem_cons_self]
    rw [ih fun j later => same j (List.mem_cons_of_mem i later)]

end Keys

section Cores

variable {W : Type} {N S : Nat} {a : Assignment N} {s t : ThreadState W N S}

/-- A flusher whose inodes carry the keys of an assignment takes a step of Threads. -/
theorem drainNext_eq [NeZero S] {lbn : InodeIdx N → Nat}
    {volume : InodeIdx N → Option VolumeIdx} {v : VolumeIdx}
    (carried : ∀ i ∈ (s.flusher v).dirties, volume i = some (a.volume i) ∧ lbn i = a.lbn i) :
    drainNext lbn volume v s = flusherNext a v s := by
  cases pc : s.flusher v with
  | write rest =>
    cases rest with
    | nil => simp only [drainNext, flusherNext, pc]
    | cons start rest =>
      rw [pc] at carried
      obtain ⟨home, first⟩ := carried start List.mem_cons_self
      have ahead := lookAhead_congr (l := rest)
        (fun i later => (carried i (List.mem_cons_of_mem start later)).2) (a.lbn start)
      simp only [drainNext, flusherNext, pc, home, first, ahead, Option.map_some, pwritevThread]
  | handOff batch rest => cases batch <;> simp only [drainNext, flusherNext, pc]
  | _ => simp only [drainNext, flusherNext, pc]

/-- So does a call in the block of its inode. -/
theorem blockNext_eq [DecidableEq W] {volume : InodeIdx N → Option VolumeIdx} {v : VolumeIdx}
    {w : W} {r : Request N} (asked : (s.writer w).request = some r) (low : r.inode.val < 2 ^ 26)
    (carried : volume r.inode = some v) (home : a.volume r.inode = v)
    (step : blockNext volume v w s = some t) : writerNext a w r s = some t := by
  cases pc : s.writer w with
  | idle | lockNode | unlockNode =>
    simp only [blockNext, pc] at step
    cases step
  | writeData q oldState =>
    rw [pc] at asked
    cases asked
    simp only [blockNext, pc] at step
    obtain ⟨u, owner, done⟩ := Option.map_eq_some_iff.mp step
    have same : v = u := by
      rw [inodeIdxOfPointer_of_lt low, carried] at owner
      exact Option.some.inj owner
    subst same
    rw [← done]
    simp only [writerNext, pc, writeThreadData, blocksOf, inodeIdxOfPointer_of_lt low, home]
  | enqueue q =>
    rw [pc] at asked
    cases asked
    rw [← step]
    simp only [blockNext, writerNext, pc, blocksOf, home]
  | lockInode | readState | storeDirty | countDirty | unlockInode =>
    rw [← step]
    simp only [blockNext, writerNext, pc]

/-- Only the keys of the inodes in use matter. -/
theorem Durability.reassign [Fintype W] {b : Assignment N} (ok : Durability a s) (hand : HandOff s)
    (same : ∀ i, s.state i ≠ .free → b.key i = a.key i) : Durability b s := by
  have dirty : ∀ v i, i ∈ (s.dirtyQueue v).values ∨ i ∈ (s.flusher v).dequeued ++
      (s.flusher v).dirties → s.state i = .dirty := by
    intro v i member
    have tokens := hand.dirty i
    have present : 0 < dirtyTokens s i := by
      rw [dirtyTokens]
      rcases member with queued | held
      · have waiting : 0 < copies (contents s.dirtyQueue) i := copies_pos.mpr ⟨v, queued⟩
        omega
      · rcases List.mem_append.mp held with dequeued | locked
        · have mine : 0 < copies (fun v => (s.flusher v).dequeued) i := copies_pos.mpr ⟨v, dequeued⟩
          omega
        · have mine : 0 < copies (fun v => (s.flusher v).dirties) i := copies_pos.mpr ⟨v, locked⟩
          omega
    by_contra other
    rw [if_neg other] at tokens
    omega
  have used : ∀ {i state}, s.state i = state → state ≠ .free → b.volume i = a.volume i ∧
      b.lbn i = a.lbn i := by
    rintro i state rfl notFree
    exact Prod.mk.inj (same i notFree)
  have written : ∀ {i state}, s.state i = state → state ≠ .free → Written a s i →
      Written b s i := by
    intro i state isState notFree before
    rw [Written, (used isState notFree).1, (used isState notFree).2]
    exact before
  have durable : ∀ {i state}, s.state i = state → state ≠ .free → Durable a s i →
      Durable b s i := by
    intro i state isState notFree before
    rw [Durable, (used isState notFree).1, (used isState notFree).2]
    exact before
  refine ⟨ok.owned, fun v i member => ?_, fun v i member => ?_, fun v i member => ?_,
    fun i settled => ?_, fun i clean => ?_, ok.rounds, fun k i member => ?_⟩
  · rw [(used (dirty v i (.inl member)) (by decide)).1]
    exact ok.queued v i member
  · rw [(used (dirty v i (.inr member)) (by decide)).1]
    exact ok.hands v i member
  · exact written (dirty v i (.inr (List.mem_append_right _ (FlusherPc.dirties_of_written member))))
      (by decide) (ok.batch v i member)
  · rcases settled with sync | clean
    · exact written sync (by decide) (ok.written i (.inl sync))
    · exact written clean (by decide) (ok.written i (.inr clean))
  · exact durable clean (by decide) (ok.clean i clean)
  · have sync : s.state i = .sync := by
      refine Durability.syncs_sync hand (k := k) ?_
      rcases List.mem_append.mp member with mine | queued
      · exact List.mem_append_left _ mine
      · exact List.mem_append_right _ (List.mem_of_mem_take queued)
    exact durable sync (by decide) (ok.synced k i member)

/-- Writing back bytes of files takes nothing away from what is durable. -/
theorem Durability.writeBack [Fintype W] (ok : Durability a s) (hand : HandOff s)
    (written : VolumeIdx → Nat → Bool) :
    Durability a { s with durable := Source.writeBack written s.cache s.durable } := by
  have both : ∀ i, Written a s i → Durable a s i →
      Durable a { s with durable := Source.writeBack written s.cache s.durable } i := by
    intro i cached onDisk
    funext k
    have cached' := congrFun cached k
    have onDisk' := congrFun onDisk k
    simp only [readBlock, readAt, Source.writeBack] at cached' onDisk' ⊢
    rw [cached', onDisk', ite_self]
    rfl
  refine ⟨ok.owned, ok.queued, ok.hands, ok.batch, ok.written, fun i clean => ?_, ok.rounds,
    fun k i member => ?_⟩
  · exact both i (ok.written i (.inr clean)) (ok.clean i clean)
  · refine both i (ok.written i (.inl (Durability.syncs_sync hand (k := k) ?_)))
      (ok.synced k i member)
    rcases List.mem_append.mp member with mine | queued
    · exact List.mem_append_left _ mine
    · exact List.mem_append_right _ (List.mem_of_mem_take queued)

end Cores

end BurstBuffer.Source
