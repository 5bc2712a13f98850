import BurstBuffer.Invariants.BlockStep
import BurstBuffer.Invariants.Start
import BurstBuffer.Library.RoundRobin
import BurstBuffer.Source.FreeQueues

/-!
# The balance of the free queues

Both counters go round the two queues, so a queue's size follows from how often each of
them has come by.
-/
namespace BurstBuffer.Source

open Library

variable {C : CuckoohashMap} {N : Nat}

def freeSize (s : State C N) (k : Fin defaultNumFree) : Nat := (s.inodeFreeLfqueue k).values.length

/-- The sizes in terms of the two counters, and the taken inodes as their difference. -/
structure FreeBalance (p : State C N × List (InodeIdx N)) : Prop where
  rotates : Rotates (freeSize p.1) N p.1.freeDequeueIdx p.1.freeEnqueueIdx
  taken : p.2.length + p.1.freeEnqueueIdx = p.1.freeDequeueIdx
  count : p.1.inodeFreeCount + p.1.freeDequeueIdx = N + p.1.freeEnqueueIdx

theorem roundRobin_eq_iff {counter : Nat} {k : Fin defaultNumFree} :
    counter % defaultNumFree = k ↔ roundRobin defaultNumFree counter = k := by
  rw [Fin.ext_iff]
  rfl

theorem initialFree_length (N : Nat) (k : Fin defaultNumFree) :
    (initialFree k (List.finRange N)).length = turns defaultNumFree k N := by
  rw [initialFree, ← List.countP_eq_length_filter, ← countP_finRange]
  congr 1
  funext i
  exact decide_eq_decide.mpr roundRobin_eq_iff.symm

section Balance

variable {s t : State C N} {held : List (InodeIdx N)}

theorem FreeBalance.start {r : State C N} (fresh : Fresh r s) : FreeBalance (s, []) := by
  have counters : s.freeDequeueIdx = 0 ∧ s.freeEnqueueIdx = 0 ∧ s.inodeFreeCount = N := by
    rw [fresh.frame]
    exact ⟨rfl, rfl, rfl⟩
  obtain ⟨dequeued, enqueued, count⟩ := counters
  constructor
  · intro k
    rw [dequeued, enqueued, freeSize, fresh.free, initialFree_length, turns_zero]
  · rw [dequeued, enqueued]
    rfl
  · rw [dequeued, enqueued, count]

theorem FreeBalance.total (balance : FreeBalance (s, held)) :
    s.inodeFreeCount = freeSize s 0 + freeSize s 1 := by
  have total := balance.rotates.total
  rw [Fin.sum_univ_two] at total
  have count := balance.count
  dsimp only at total count
  omega

/-- With enough free inodes the queue that is next has one. -/
theorem FreeBalance.nonempty (balance : FreeBalance (s, held)) (enough : isFreeLFQueueEnough s)
    (k : Fin defaultNumFree) : 0 < freeSize s k := by
  have many : 100 ≤ s.inodeFreeCount := by simpa [isFreeLFQueueEnough] using enough
  have total := balance.total
  have left := balance.rotates.close 0 k
  have right := balance.rotates.close 1 k
  dsimp only at left right
  omega

theorem FreeBalance.getFreeInode (balance : FreeBalance (s, held)) {v : VolumeIdx} {lbn : Nat}
    {idx : InodeIdx N} (enough : isFreeLFQueueEnough s)
    (got : getFreeInodeFromFreeLFQueue v lbn s = some (idx, t)) :
    FreeBalance (t, idx :: held) := by
  have many : 100 ≤ s.inodeFreeCount := by simpa [isFreeLFQueueEnough] using enough
  obtain ⟨⟨rest, head, queues⟩, _, count, dequeued, frame⟩ := getFreeInode_spec got
  have enqueued : t.freeEnqueueIdx = s.freeEnqueueIdx := by rw [frame]
  have taken := balance.taken
  have counted := balance.count
  dsimp only at taken counted
  constructor
  · intro k
    have before := balance.rotates k
    dsimp only at before ⊢
    rw [dequeued, enqueued, turns_succ, freeSize, queues]
    by_cases here : k = roundRobin defaultNumFree s.freeDequeueIdx
    · subst k
      rw [freeSize, LfQueue.dequeue_eq_some.mp head, List.length_cons] at before
      rw [Function.update_self, if_pos (roundRobin_eq_iff.mpr rfl)]
      omega
    · rw [Function.update_of_ne here, if_neg fun turn => here (roundRobin_eq_iff.mp turn).symm]
      exact before
  · dsimp only
    rw [List.length_cons, dequeued, enqueued]
    omega
  · dsimp only
    rw [count, dequeued, enqueued]
    omega

theorem releaseInode_spec {idx : InodeIdx N} (released : releaseInode idx s = some t) :
    (∃ q, (s.inodeFreeLfqueue (roundRobin defaultNumFree s.freeEnqueueIdx)).enqueue idx = some q ∧
      t.inodeFreeLfqueue =
        Function.update s.inodeFreeLfqueue (roundRobin defaultNumFree s.freeEnqueueIdx) q) ∧
      t.inodeFreeCount = s.inodeFreeCount + 1 ∧ t.freeEnqueueIdx = s.freeEnqueueIdx + 1 ∧
      t.freeDequeueIdx = s.freeDequeueIdx := by
  obtain ⟨q, queued, stored⟩ := Option.bind_eq_some_iff.mp released
  cases stored
  exact ⟨⟨q, queued, rfl⟩, rfl, rfl, rfl⟩

theorem FreeBalance.releaseInode (balance : FreeBalance (s, held)) {idx : InodeIdx N}
    (member : idx ∈ held) (released : releaseInode idx s = some t) :
    FreeBalance (t, held.erase idx) := by
  obtain ⟨⟨q, queued, queues⟩, count, enqueued, dequeued⟩ := releaseInode_spec released
  have taken := balance.taken
  have counted := balance.count
  have some := List.length_pos_of_mem member
  dsimp only at taken counted
  constructor
  · intro k
    have before := balance.rotates k
    dsimp only at before ⊢
    rw [dequeued, enqueued, turns_succ, freeSize, queues]
    by_cases here : k = roundRobin defaultNumFree s.freeEnqueueIdx
    · subst k
      rw [freeSize] at before
      rw [Function.update_self, if_pos (roundRobin_eq_iff.mpr rfl),
        LfQueue.enqueue_eq_some.mp queued, List.length_append, List.length_singleton]
      omega
    · rw [Function.update_of_ne here, if_neg fun turn => here (roundRobin_eq_iff.mp turn).symm]
      exact before
  · dsimp only
    rw [List.length_erase_of_mem member, dequeued, enqueued]
    omega
  · dsimp only
    rw [count, dequeued, enqueued]
    omega

/-- A queue has room for an inode that has been taken. -/
theorem FreeBalance.release_returns (balance : FreeBalance (s, held)) {idx : InodeIdx N}
    (member : idx ∈ held) : ∃ t, Source.releaseInode idx s = some t := by
  have taken := balance.taken
  have counted := balance.count
  have total := balance.total
  have some := List.length_pos_of_mem member
  have part : ∀ k, freeSize s k ≤ freeSize s 0 + freeSize s 1 := by
    intro k
    match k with
    | 0 => exact Nat.le_add_right _ _
    | 1 => exact Nat.le_add_left _ _
  have room := part (roundRobin defaultNumFree s.freeEnqueueIdx)
  dsimp only at taken counted
  obtain ⟨q, queued, _⟩ := LfQueue.enqueue_isSome
    (q := s.inodeFreeLfqueue (roundRobin defaultNumFree s.freeEnqueueIdx)) idx
    (by unfold freeSize at *; omega)
  apply Option.isSome_iff_exists.mp
  simp [Source.releaseInode, queued]

theorem FreeBalance.get_returns (balance : FreeBalance (s, held)) (enough : isFreeLFQueueEnough s)
    (v : VolumeIdx) (lbn : Nat) : ∃ p, getFreeInodeFromFreeLFQueue v lbn s = some p := by
  have filled := balance.nonempty enough (roundRobin defaultNumFree s.freeDequeueIdx)
  cases queue : (s.inodeFreeLfqueue (roundRobin defaultNumFree s.freeDequeueIdx)).values with
  | nil =>
    rw [freeSize, queue] at filled
    cases filled
  | cons idx rest =>
    have fits := (s.inodeFreeLfqueue (roundRobin defaultNumFree s.freeDequeueIdx)).fits
    rw [queue, List.length_cons] at fits
    have popped : (s.inodeFreeLfqueue (roundRobin defaultNumFree s.freeDequeueIdx)).dequeue =
        some (idx, ⟨rest, Nat.le_of_succ_le fits⟩) := LfQueue.dequeue_eq_some.mpr queue
    apply Option.isSome_iff_exists.mp
    simp [getFreeInodeFromFreeLFQueue, popped]

end Balance

theorem FreeBalance.of_reachable {cwd : String} {p : State C N × List (InodeIdx N)}
    (reach : (freeQueues C N cwd).Reachable p) : FreeBalance p := by
  apply reach.invariant
  · intro p ⟨⟨memory, started⟩, empty⟩
    obtain ⟨r, recovered, _⟩ := Option.bind_eq_some_iff.mp started
    obtain ⟨t, started', fresh⟩ := nvmSystemInit_spec recovered
    cases started.symm.trans started'
    have start := FreeBalance.start fresh
    rw [← empty] at start
    exact start
  · intro p e q _ balance step
    cases e with
    | getFreeInode v lbn =>
      unfold freeQueues freeNext at step
      dsimp only at step
      split at step
      · rename_i enough
        obtain ⟨⟨idx, t⟩, got, rfl⟩ := Option.map_eq_some_iff.mp step
        exact balance.getFreeInode enough got
      · cases step
    | releaseInode idx =>
      unfold freeQueues freeNext at step
      dsimp only at step
      split at step
      · rename_i member
        obtain ⟨t, released, rfl⟩ := Option.map_eq_some_iff.mp step
        exact balance.releaseInode member released
      · cases step

end BurstBuffer.Source
