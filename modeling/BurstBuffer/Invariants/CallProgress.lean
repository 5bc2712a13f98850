import BurstBuffer.Invariants.CallBlocks
import BurstBuffer.Invariants.CallRuns
import BurstBuffer.Invariants.Pace
import BurstBuffer.Invariants.Reservation

/-!
# Where threads wait

A flusher never waits, and a balloon thread only for an entry to begin with. A sync thread
waits at a full queue, a call at the mutex of a node and at the lock of an inode.
-/
namespace BurstBuffer.Source

open Library

/-- Queues that have each inode at most once have room for one that they lack. -/
theorem enqueue_elsewhere {κ : Type} [Fintype κ] {N : Nat} {queues : κ → LfQueue (InodeIdx N) N}
    {i : InodeIdx N} (single : ∀ j, copies (contents queues) j ≤ 1)
    (elsewhere : copies (contents queues) i = 0) (k : κ) :
    ∃ q, (queues k).enqueue i = some q := by
  have absent : i ∉ (queues k).values := copies_eq_zero.mp elsewhere k
  have once : ∀ j, (queues k).values.count j ≤ 1 := fun j =>
    Nat.le_trans (count_le_copies (contents queues) k j) (single j)
  have distinct : (i :: (queues k).values).Nodup :=
    List.nodup_cons.mpr ⟨absent, List.nodup_iff_count_le_one.mpr once⟩
  have bound := distinct.length_le_card
  rw [List.length_cons, Fintype.card_fin] at bound
  obtain ⟨q, pushed, _⟩ := LfQueue.enqueue_isSome i bound
  exact ⟨q, pushed⟩

section Rooms

variable {W : Type} {N S : Nat} [Fintype W] {s : ThreadState W N S}

theorem HandOff.dirtyTokens_le (ok : HandOff s) (i : InodeIdx N) : dirtyTokens s i ≤ 1 := by
  rw [ok.dirty]
  split <;> omega

theorem HandOff.syncTokens_le (ok : HandOff s) (i : InodeIdx N) : syncTokens s i ≤ 1 := by
  rw [ok.sync]
  split <;> omega

/-- A dirty queue has room for an inode whose token is elsewhere. -/
theorem HandOff.dirty_room (ok : HandOff s) {i : InodeIdx N} (v : VolumeIdx)
    (elsewhere : 0 < copies (fun v => (s.flusher v).dequeued) i +
      copies (fun w => (s.writer w).owes) i) : ∃ q, (s.dirtyQueue v).enqueue i = some q := by
  refine enqueue_elsewhere (fun j => ?_) ?_ v
  · have few := ok.dirtyTokens_le j
    rw [dirtyTokens] at few
    omega
  · have few := ok.dirtyTokens_le i
    rw [dirtyTokens] at few
    omega

theorem HandOff.sync_room (ok : HandOff s) {i : InodeIdx N} {v : VolumeIdx} (k : Fin S)
    (mine : i ∈ (s.flusher v).syncs) : ∃ q, (s.syncQueue k).enqueue i = some q := by
  have token : 0 < copies (fun v => (s.flusher v).syncs) i := copies_pos.mpr ⟨v, mine⟩
  refine enqueue_elsewhere (fun j => ?_) ?_ k
  · have few := ok.syncTokens_le j
    rw [syncTokens] at few
    omega
  · have few := ok.syncTokens_le i
    rw [syncTokens] at few
    omega

/-- Who holds the lock of an inode. -/
theorem HandOff.lock_holder (ok : HandOff s) {i : InodeIdx N} (locked : s.lock i = true) :
    (∃ w, i ∈ (s.writer w).locked) ∨ (∃ v, i ∈ (s.flusher v).dirties ++ (s.flusher v).syncs) ∨
      (∃ k, i ∈ (s.syncQueue k).values) ∨
        ∃ k, i ∈ (s.syncer k).syncs ++ (s.syncer k).cleans := by
  have token := ok.lock i
  rw [if_pos locked, lockTokens, syncTokens] at token
  by_contra nobody
  simp only [not_or, not_exists, List.mem_append] at nobody
  obtain ⟨writers, flushers, queues, syncers⟩ := nobody
  have noWriter : copies (fun w => (s.writer w).locked) i = 0 := copies_eq_zero.mpr writers
  have noDirty : copies (fun v => (s.flusher v).dirties) i = 0 :=
    copies_eq_zero.mpr fun v => (flushers v).1
  have noSync : copies (fun v => (s.flusher v).syncs) i = 0 :=
    copies_eq_zero.mpr fun v => (flushers v).2
  have noQueue : copies (contents s.syncQueue) i = 0 := copies_eq_zero.mpr queues
  have noSyncer : copies (fun k => (s.syncer k).syncs) i = 0 :=
    copies_eq_zero.mpr fun k => (syncers k).1
  have noClean : copies (fun k => (s.syncer k).cleans) i = 0 :=
    copies_eq_zero.mpr fun k => (syncers k).2
  omega

omit [Fintype W] in
/-- A sync thread can go on but at a full queue. -/
theorem Paced.syncer_returns (paced : Paced s) (k : Fin S) :
    (∃ t, syncerNext k s = some t) ∨
      ∃ idx c n, s.syncer k = .enqueue idx c n ∧ (s.cleanQueue c).values.length = N := by
  have rounds := paced.syncer k
  cases pc : s.syncer k with
  | idle | sync | storeClean | nextQueue | unlock =>
    simp only [syncerNext, pc]
    exact .inl ⟨_, rfl⟩
  | loop n =>
    cases n with
    | zero =>
      simp only [syncerNext, pc]
      exact .inl ⟨_, rfl⟩
    | succ n =>
      rw [pc] at rounds
      have nonempty := List.ne_nil_of_length_pos (Nat.lt_of_lt_of_le (Nat.succ_pos n) rounds)
      obtain ⟨idx, queue, popped⟩ := LfQueue.dequeue_isSome nonempty
      simp only [syncerNext, pc, popped, Option.map_some]
      exact .inl ⟨_, rfl⟩
  | enqueue idx c n =>
    by_cases room : (s.cleanQueue c).values.length < N
    · obtain ⟨queue, pushed, _⟩ := LfQueue.enqueue_isSome idx room
      simp only [syncerNext, pc, pushed, Option.map_some]
      exact .inl ⟨_, rfl⟩
    · have fits := (s.cleanQueue c).fits
      exact .inr ⟨idx, c, n, rfl, by omega⟩

end Rooms

variable {C : CuckoohashMap} {W : Type} {N S : Nat} [Fintype W] {s t : CallState C W N S}

namespace CallsOk

/-- Who holds the mutex of a node. -/
theorem mutex_holder (ok : CallsOk s) {p : NodePtr} (locked : (s.node p).mutex = true) :
    (∃ w, p ∈ (s.call w).holds) ∨ ∃ b, p ∈ (s.balloon b).holds := by
  have token := ok.mutex p
  rw [if_pos locked, nodeTokens] at token
  by_contra nobody
  simp only [not_or, not_exists] at nobody
  have noCall : copies (fun w => (s.call w).holds) p = 0 := copies_eq_zero.mpr nobody.1
  have noBalloon : copies (fun b => (s.balloon b).holds) p = 0 := copies_eq_zero.mpr nobody.2
  omega

theorem freeTokens_le (ok : CallsOk s) (i : InodeIdx N) : freeTokens s i ≤ 1 := by
  by_cases bound : ∃ p, s.view.inode p = some i
  · obtain ⟨p, points⟩ := bound
    rw [ok.bound p i points]
    exact Nat.zero_le _
  · rw [ok.unbound i fun p points => bound ⟨p, points⟩]

theorem free_room (ok : CallsOk s) {i : InodeIdx N} {b : Fin defaultNumBalloon}
    (k : Fin defaultNumFree) (mine : i ∈ (s.balloon b).freed) :
    ∃ q, (s.freeQueue k).enqueue i = some q := by
  have token : 0 < copies (fun b => (s.balloon b).freed) i := copies_pos.mpr ⟨b, mine⟩
  refine enqueue_elsewhere (fun j => ?_) ?_ k
  · have few := ok.freeTokens_le j
    rw [freeTokens] at few
    omega
  · have few := ok.freeTokens_le i
    rw [freeTokens] at few
    omega

/-- An inode in use has a volume. -/
theorem volume_of_used (ok : CallsOk s) {i : InodeIdx N} (used : s.core.state i ≠ .free) :
    ∃ v, s.volume i = some v := by
  by_cases bound : ∃ p, s.view.inode p = some i
  · obtain ⟨p, points⟩ := bound
    obtain ⟨v, volume, _⟩ := ok.heap.bound p i points
    exact ⟨v, volume⟩
  · rcases ok.free i fun p points => bound ⟨p, points⟩ with isFree | ⟨b, p, storing⟩
    · exact absurd isFree used
    · have knows := ok.balloon b
      rw [storing] at knows
      obtain ⟨⟨v, volume, _⟩, _⟩ := knows
      exact ⟨v, volume⟩

theorem flusher_returns [NeZero S] (ok : CallsOk s) (paced : Paced s.core) (v : VolumeIdx) :
    ∃ core, drainNext s.lbn s.volume v s.core = some core := by
  have covered := paced.flusher v
  have dirties := fun i mine => (ok.handOff.dirties_alone (v := v) (i := i) mine).1
  cases pc : s.core.flusher v with
  | idle =>
    simp only [drainNext, pc, flusherNext]
    exact ⟨_, rfl⟩
  | collect iIdxs numDirtyInodes writeSize =>
    rw [pc] at covered
    obtain ⟨_, size, counted⟩ := covered
    simp only [drainNext, pc, flusherNext]
    split
    · have nonempty : (s.core.dirtyQueue v).values ≠ [] := by
        intro empty
        rw [empty, List.length_nil] at counted
        omega
      obtain ⟨idx, queue, popped⟩ := LfQueue.dequeue_isSome nonempty
      rw [popped]
      exact ⟨_, rfl⟩
    · exact ⟨_, rfl⟩
  | tryLock iIdxs numDirtyInodes writeSize idx =>
    simp only [drainNext, pc, flusherNext]
    split <;> exact ⟨_, rfl⟩
  | enqueueAgain iIdxs numDirtyInodes writeSize idx =>
    have mine : 0 < copies (fun v => (s.core.flusher v).dequeued) idx :=
      copies_pos.mpr ⟨v, by rw [pc]; exact List.mem_singleton_self idx⟩
    obtain ⟨queue, pushed⟩ := ok.handOff.dirty_room v (Nat.add_pos_left mine _)
    simp only [drainNext, pc, flusherNext, pushed, Option.map_some]
    exact ⟨_, rfl⟩
  | write rest =>
    cases rest with
    | nil =>
      simp only [drainNext, pc, flusherNext]
      exact ⟨_, rfl⟩
    | cons start rest =>
      have isDirty := dirties start (by rw [pc]; exact List.mem_cons_self)
      obtain ⟨u, volume⟩ := ok.volume_of_used (i := start) (by rw [isDirty]; decide)
      simp only [drainNext, pc, volume, Option.map_some]
      exact ⟨_, rfl⟩
  | handOff batch rest =>
    cases batch with
    | nil | cons =>
      simp only [drainNext, pc, flusherNext]
      exact ⟨_, rfl⟩
  | storeSync idx batch rest | nextQueue idx batch rest =>
    simp only [drainNext, pc, flusherNext]
    exact ⟨_, rfl⟩
  | enqueue idx k batch rest =>
    obtain ⟨queue, pushed⟩ := ok.handOff.sync_room (i := idx) k
      (by rw [pc]; exact List.mem_singleton_self idx)
    simp only [drainNext, pc, flusherNext, pushed, Option.map_some]
    exact ⟨_, rfl⟩

theorem balloon_returns (ok : CallsOk s) {b : Fin defaultNumBalloon}
    (begun : s.balloon b = .idle → (s.core.cleanQueue b).values ≠ []) :
    ∃ t, balloonNext b s = some t := by
  have knows := ok.balloon b
  cases pc : s.balloon b with
  | idle =>
    obtain ⟨idx, queue, popped⟩ := LfQueue.dequeue_isSome (begun pc)
    simp only [balloonNext, pc, popped, Option.map_some]
    exact ⟨_, rfl⟩
  | test | giveUp | storeFree | count | nextQueue | unlock =>
    simp only [balloonNext, pc]
    exact ⟨_, rfl⟩
  | search idx =>
    rw [pc] at knows
    obtain ⟨p, ⟨v, volume, found⟩, _⟩ := knows
    have volume' : s.volume idx = some v := volume
    have found' : s.nodeAt v (s.lbn idx) = some p := found
    simp only [balloonNext, pc, volume', found', Option.bind_eq_bind, Option.bind_some]
    exact ⟨_, rfl⟩
  | tryLock idx p =>
    simp only [balloonNext, pc]
    split <;> exact ⟨_, rfl⟩
  | retest idx p =>
    rw [pc] at knows
    have points : (s.node p).inode = some idx := knows
    simp only [balloonNext, pc, points, Option.map_some]
    exact ⟨_, rfl⟩
  | delete idx p =>
    rw [pc] at knows
    obtain ⟨v, volume, _⟩ := ok.heap.bound p idx knows.1
    have volume' : s.volume idx = some v := volume
    simp only [balloonNext, pc, volume', Option.map_some]
    exact ⟨_, rfl⟩
  | enqueue idx p k =>
    obtain ⟨queue, pushed⟩ := ok.free_room (i := idx) k
      (by rw [pc]; exact List.mem_singleton_self idx)
    simp only [balloonNext, pc, pushed, Option.map_some]
    exact ⟨_, rfl⟩

/-- A call can go on but at a locked node and at a locked inode. -/
theorem call_returns [DecidableEq W] (ok : CallsOk s) (paced : Paced s.core) {w : W}
    (request : Call) (begun : s.call w ≠ .idle)
    (inode : ∀ c found k, s.call w = .dequeue c found k → (s.freeQueue k).values ≠ []) :
    (∃ t, callNext w request s = some t) ∨
      (∃ c p fresh, s.call w = .lockNode c p fresh ∧ (s.node p).mutex = true) ∨
        ∃ c p r, s.call w = .inBlock c p ∧ s.core.writer w = .lockInode r ∧
          s.core.lock r.inode = true := by
  have knows := ok.call w
  cases pc : s.call w with
  | idle => exact absurd pc begun
  | search | nextFree | storeKey | uncount | recheck | release =>
    simp only [callNext, pc]
    exact .inl ⟨_, rfl⟩
  | isValid c found =>
    cases found with
    | none =>
      simp only [callNext, pc]
      exact .inl ⟨_, rfl⟩
    | some p =>
      simp only [callNext, pc]
      split <;> exact .inl ⟨_, rfl⟩
  | isEnough c found =>
    simp only [callNext, pc]
    split <;> exact .inl ⟨_, rfl⟩
  | dequeue c found k =>
    obtain ⟨idx, queue, popped⟩ := LfQueue.dequeue_isSome (inode c found k pc)
    simp only [callNext, pc, popped, Option.map_some]
    exact .inl ⟨_, rfl⟩
  | publish c found idx =>
    cases found with
    | none =>
      simp only [callNext, pc]
      exact .inl ⟨_, rfl⟩
    | some p =>
      simp only [callNext, pc]
      split <;> exact .inl ⟨_, rfl⟩
  | lockNode c p fresh =>
    cases locked : (s.node p).mutex with
    | true => exact .inr (.inl ⟨c, p, fresh, rfl, locked⟩)
    | false =>
      simp only [callNext, pc, locked, Bool.false_eq_true, if_false]
      exact .inl ⟨_, rfl⟩
  | readInode c p =>
    rw [pc] at knows
    obtain ⟨i, points⟩ := Option.isSome_iff_exists.mp knows.2
    have points' : (s.node p).inode = some i := points
    simp only [callNext, pc, points', Option.map_some]
    exact .inl ⟨_, rfl⟩
  | inBlock c p =>
    rw [pc] at knows
    obtain ⟨place, r, asked, points⟩ := knows
    have outside := paced.writer w
    cases at_ : s.core.writer w with
    | idle =>
      rw [at_] at asked
      cases asked
    | lockNode q =>
      rw [at_] at outside
      cases outside
    | lockInode q =>
      cases locked : s.core.lock q.inode with
      | true => exact .inr (.inr ⟨c, p, q, rfl, rfl, locked⟩)
      | false =>
        simp only [callNext, pc, at_, blockNext, writerNext, locked, Bool.false_eq_true, if_false]
        exact .inl ⟨_, rfl⟩
    | readState | storeDirty | unlockInode | unlockNode =>
      simp only [callNext, pc, at_, blockNext, writerNext]
      exact .inl ⟨_, rfl⟩
    | writeData q old =>
      rw [at_] at asked
      cases asked
      have volume : s.volume (inodeIdxOfPointer r.inode) = some c.volume := by
        rw [inodeIdxOfPointer_of_lt (ok.handOff.narrow w r (by rw [at_]; rfl))]
        exact (ok.heap.key place points).1
      simp only [callNext, pc, at_, blockNext, volume, Option.map_some]
      exact .inl ⟨_, rfl⟩
    | countDirty q old =>
      simp only [callNext, pc, at_, blockNext, writerNext]
      split <;> exact .inl ⟨_, rfl⟩
    | enqueue q =>
      have owed : 0 < copies (fun w => (s.core.writer w).owes) q.inode :=
        copies_pos.mpr ⟨w, by rw [at_]; exact List.mem_singleton_self q.inode⟩
      obtain ⟨queue, pushed⟩ := ok.handOff.dirty_room c.volume (Nat.add_pos_right _ owed)
      rw [← inodeIdxOfPointer_of_lt (ok.handOff.narrow w q (by rw [at_]; rfl))] at pushed
      simp only [callNext, pc, at_, blockNext, writerNext, blocksOf, pushed, Option.map_some]
      exact .inl ⟨_, rfl⟩

end CallsOk

variable [DecidableEq W] [NeZero S]

theorem Paced.next (paced : Paced s.core) (ok : CallsOk s) {e : CallEvent W S}
    (step : callsNext s e = some t) : Paced t.core := by
  cases e with
  | call w c =>
    rcases ok.call_move step with ⟨_, core, _, _⟩ | ⟨_, _, _, _, core, _, _⟩ | ⟨_, _, core, _, _⟩ |
      ⟨_, _, core, _, next, rfl⟩
    · rw [core]
      exact paced
    · rw [core]
      exact paced.of_writer rfl ⟨rfl, rfl, rfl, rfl⟩ fun _ => Nat.le_refl _
    · rw [core]
      exact paced.of_writer rfl ⟨rfl, rfl, rfl, rfl⟩ fun _ => Nat.le_refl _
    · exact paced.block_step next
  | flusher v =>
    obtain ⟨core, next, rfl⟩ := Option.map_eq_some_iff.mp step
    exact paced.drain_step next
  | syncer k =>
    obtain ⟨core, next, rfl⟩ := Option.map_eq_some_iff.mp step
    exact paced.syncer_step next
  | balloon b =>
    obtain ⟨_, _, _, ⟨_, core⟩ | ⟨_, _, _, core⟩⟩ := balloonNext_core step
    · rw [core]
      exact paced.of_writers paced.writer ⟨rfl, rfl, rfl⟩ fun _ => Nat.le_refl _
    · rw [core]
      exact paced.of_writers paced.writer ⟨rfl, rfl, rfl⟩ fun _ => Nat.le_refl _

end BurstBuffer.Source
