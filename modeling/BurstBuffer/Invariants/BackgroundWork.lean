import BurstBuffer.Source.BackgroundLoops
import BurstBuffer.Invariants.FlushBatches
import BurstBuffer.Invariants.FlushCollection
import BurstBuffer.Invariants.FreeQueues
import BurstBuffer.Invariants.Progress
import BurstBuffer.Invariants.StoredBlocks

/-!
# The work of the background threads

Each operation moves entries on: a flush from the dirty to the sync queues, a sync to the
clean queues, a balloon takes them out. A writer that waits does not add any, so the work
comes to an end.
-/
namespace BurstBuffer.Source

open Library

variable {C : CuckoohashMap} {N : Nat}

/-- Each entry with the number of queues that are still before it. -/
def pendingWork (s : State C N) : Nat :=
  3 * poolSize (contents s.inodeDirtyLfqueue) + 2 * poolSize (contents s.inodeSyncLfqueue) +
    poolSize (contents s.inodeCleanLfqueue)

section Works

variable {s : State C N}

theorem works_flush {v : VolumeIdx} : works s (.flush v) = true ↔
    kFlushLwm N ≤ s.inodeDirtyCount ∧ v ∈ s.volumeInuseLfqueue.values ∧
      1 < (s.inodeDirtyLfqueue v).getSize := by
  simp [works, and_assoc]

theorem works_sync {index : Fin defaultNumSyncer} :
    works s (.sync index) = true ↔ (s.inodeSyncLfqueue index).values ≠ [] := by
  simp [works, LfQueue.getSize, defaultSyncLwm, Nat.succ_le_iff, List.length_pos_iff]

theorem works_balloon {index : Fin defaultNumBalloon} :
    works s (.balloon index) = true ↔ (s.inodeCleanLfqueue index).values ≠ [] := by
  simp [works, LfQueue.isEmpty, LfQueue.getSize]

end Works

section Flush

variable {s t : State C N}

theorem handOffs_work {batch : List (InodeIdx N)}
    (handed : batch.foldlM (fun s idx => handOff idx s) s = some t) :
    pendingWork t = pendingWork s + 2 * batch.length := by
  induction batch generalizing s with
  | nil =>
    cases handed
    simp
  | cons i batch ih =>
    obtain ⟨u, one, rest⟩ := Option.bind_eq_some_iff.mp handed
    obtain ⟨q, queued, queues, _, _, frame⟩ := handOff_eq_some one
    have size := poolSize_enqueue queued
    rw [← queues] at size
    have others : u.inodeDirtyLfqueue = s.inodeDirtyLfqueue ∧
        u.inodeCleanLfqueue = s.inodeCleanLfqueue := by
      rw [frame]
      exact ⟨rfl, rfl⟩
    rw [ih rest, pendingWork, pendingWork, others.1, others.2, size, List.length_cons]
    omega

theorem writeBatches_work {fuel : Nat} {iIdxs : List (InodeIdx N)}
    (written : writeBatches fuel iIdxs s = some t) :
    pendingWork t = pendingWork s + 2 * iIdxs.length := by
  induction fuel generalizing s iIdxs with
  | zero =>
    cases iIdxs with
    | nil =>
      cases written
      simp
    | cons start rest => cases written
  | succ fuel ih =>
    cases iIdxs with
    | nil =>
      cases written
      simp
    | cons start rest =>
      obtain ⟨u, write, afterWrite⟩ := Option.bind_eq_some_iff.mp written
      obtain ⟨x, hand, looped⟩ := Option.bind_eq_some_iff.mp afterWrite
      obtain ⟨_, _, _, _, filed⟩ := pwritevBatch_eq_some write
      have same : pendingWork u = pendingWork s := by rw [filed]; rfl
      rw [ih looped, handOffs_work hand, same, Nat.add_assoc, ← Nat.mul_add, ← List.length_append,
        List.take_append_drop]

/-- A flush makes SYNC what it has collected, and queues it for sync. -/
theorem handOffs_moved {batch : List (InodeIdx N)}
    (handed : batch.foldlM (fun s idx => handOff idx s) s = some t) :
    (∀ j, t.inodeTable j =
      if j ∈ batch then { s.inodeTable j with state := .sync } else s.inodeTable j) ∧
      (∀ j, copies (contents t.inodeSyncLfqueue) j =
        copies (contents s.inodeSyncLfqueue) j + batch.count j) ∧
      t.inodeDirtyCount = s.inodeDirtyCount - batch.length := by
  induction batch generalizing s with
  | nil =>
    cases handed
    exact ⟨fun j => by simp, fun j => by simp, by simp⟩
  | cons i batch ih =>
    obtain ⟨u, first, others⟩ := Option.bind_eq_some_iff.mp handed
    obtain ⟨q, queued, queues, entries, count, _⟩ := handOff_eq_some first
    obtain ⟨states, entered, counted⟩ := ih others
    have pushed := copies_enqueue queued
    rw [← queues] at pushed
    refine ⟨fun j => ?_, fun j => ?_, ?_⟩
    · rw [states, entries]
      by_cases same : j = i
      · subst j
        simp
      · simp [same]
    · rw [entered, pushed, List.count_cons]
      simp only [beq_iff_eq]
      omega
    · rw [counted, count, List.length_cons]
      omega

theorem writeBatches_moved {fuel : Nat} {iIdxs : List (InodeIdx N)}
    (written : writeBatches fuel iIdxs s = some t) :
    (∀ j, t.inodeTable j =
      if j ∈ iIdxs then { s.inodeTable j with state := .sync } else s.inodeTable j) ∧
      (∀ j, copies (contents t.inodeSyncLfqueue) j =
        copies (contents s.inodeSyncLfqueue) j + iIdxs.count j) ∧
      t.inodeDirtyCount = s.inodeDirtyCount - iIdxs.length := by
  induction fuel generalizing s iIdxs with
  | zero =>
    cases iIdxs with
    | nil =>
      cases written
      exact ⟨fun j => by simp, fun j => by simp, by simp⟩
    | cons start rest => cases written
  | succ fuel ih =>
    cases iIdxs with
    | nil =>
      cases written
      exact ⟨fun j => by simp, fun j => by simp, by simp⟩
    | cons start rest =>
      obtain ⟨u, write, afterWrite⟩ := Option.bind_eq_some_iff.mp written
      obtain ⟨x, hand, looped⟩ := Option.bind_eq_some_iff.mp afterWrite
      obtain ⟨_, _, _, _, filed⟩ := pwritevBatch_eq_some write
      have same : u.inodeTable = s.inodeTable ∧ u.inodeSyncLfqueue = s.inodeSyncLfqueue ∧
          u.inodeDirtyCount = s.inodeDirtyCount := by
        rw [filed]
        exact ⟨rfl, rfl, rfl⟩
      obtain ⟨states, entered, counted⟩ := handOffs_moved hand
      obtain ⟨states', entered', counted'⟩ := ih looped
      revert states entered counted states' entered' counted'
      generalize lookAhead (fun i => (s.inodeTable i).lbn) (s.inodeTable start).lbn rest + 1 = n
      intro states entered counted states' entered' counted'
      have whole := List.take_append_drop n (start :: rest)
      refine ⟨fun j => ?_, fun j => ?_, ?_⟩
      · rw [states', states, same.1]
        have member : j ∈ start :: rest ↔
            j ∈ (start :: rest).take n ∨ j ∈ (start :: rest).drop n := by
          rw [← List.mem_append, whole]
        by_cases early : j ∈ (start :: rest).take n <;> by_cases late : j ∈ (start :: rest).drop n
        all_goals simp only [member, early, late, or_true, or_false, if_true, if_false]
      · have split := congrArg (List.count j) whole
        rw [List.count_append] at split
        rw [entered', entered, same.2.1]
        omega
      · have split := congrArg List.length whole
        rw [List.length_append] at split
        rw [counted', counted, same.2.2]
        omega

/-- The loop that collects takes out what it holds in the end. -/
theorem collectDirty_work {v : VolumeIdx} {fuel : Nat} {iIdxs r : List (InodeIdx N)}
    {numDirtyInodes writeSize w : Int}
    (collected : collectDirty v fuel iIdxs numDirtyInodes writeSize s = some (r, w, t)) :
    pendingWork t + 3 * r.length = pendingWork s + 3 * iIdxs.length := by
  induction fuel generalizing s iIdxs numDirtyInodes writeSize with
  | zero => cases collected
  | succ fuel ih =>
    unfold collectDirty at collected
    split at collected
    · obtain ⟨⟨i, q⟩, head, afterHead⟩ := Option.bind_eq_some_iff.mp collected
      have popped := poolSize_dequeue head
      dsimp only at afterHead
      split at afterHead
      · rename_i x lock
        obtain ⟨_, rfl⟩ := lockInode_eq_some.mp lock
        have rest := ih afterHead
        rw [List.length_append, List.length_singleton] at rest
        simp only [pendingWork, State.setInode_inodeDirtyLfqueue, State.setInode_inodeSyncLfqueue,
          State.setInode_inodeCleanLfqueue] at rest ⊢
        omega
      · obtain ⟨q', pushed, again⟩ := Option.bind_eq_some_iff.mp afterHead
        have rest := ih again
        have back := poolSize_enqueue pushed
        simp only [pendingWork] at rest ⊢
        omega
    · cases collected
      rfl

end Flush

/-- The sizes of the free queues follow from the two counters. -/
def FreeTurns (s : State C N) : Prop :=
  Rotates (freeSize s) N s.freeDequeueIdx s.freeEnqueueIdx

namespace FreeTurns

variable {s t : State C N}

theorem congr (turns : FreeTurns s) (queues : t.inodeFreeLfqueue = s.inodeFreeLfqueue)
    (out : t.freeDequeueIdx = s.freeDequeueIdx) (back : t.freeEnqueueIdx = s.freeEnqueueIdx) :
    FreeTurns t := by
  intro k
  have before := turns k
  rwa [freeSize, queues, out, back]

theorem taken (turns : FreeTurns s) {i : InodeIdx N} {rest : LfQueue (InodeIdx N) N}
    (head : (s.inodeFreeLfqueue (roundRobin defaultNumFree s.freeDequeueIdx)).dequeue =
      some (i, rest))
    (queues : t.inodeFreeLfqueue =
      Function.update s.inodeFreeLfqueue (roundRobin defaultNumFree s.freeDequeueIdx) rest)
    (out : t.freeDequeueIdx = s.freeDequeueIdx + 1) (back : t.freeEnqueueIdx = s.freeEnqueueIdx) :
    FreeTurns t := by
  intro k
  have before := turns k
  rw [out, back, turns_succ, freeSize, queues]
  by_cases here : k = roundRobin defaultNumFree s.freeDequeueIdx
  · subst k
    rw [freeSize, LfQueue.dequeue_eq_some.mp head, List.length_cons] at before
    rw [Function.update_self, if_pos (roundRobin_eq_iff.mpr rfl)]
    omega
  · rw [Function.update_of_ne here, if_neg fun turn => here (roundRobin_eq_iff.mp turn).symm]
    exact before

theorem released (turns : FreeTurns s) {i : InodeIdx N} (gave : releaseInode i s = some t) :
    FreeTurns t := by
  obtain ⟨⟨q, queued, queues⟩, _, back, out⟩ := releaseInode_spec gave
  intro k
  have before := turns k
  rw [out, back, turns_succ, freeSize, queues]
  by_cases here : k = roundRobin defaultNumFree s.freeEnqueueIdx
  · subst k
    rw [Function.update_self, LfQueue.enqueue_eq_some.mp queued, List.length_append,
      List.length_singleton, if_pos (roundRobin_eq_iff.mpr rfl)]
    rw [freeSize] at before
    omega
  · rw [Function.update_of_ne here, if_neg fun turn => here (roundRobin_eq_iff.mp turn).symm]
    exact before

theorem written (turns : FreeTurns s) {v : VolumeIdx} {lbn count : Nat} {buf : Nat → UInt8}
    {i : InodeIdx N} (step : BlockWritten s t v lbn buf count i) : FreeTurns t := by
  have back : t.freeEnqueueIdx = s.freeEnqueueIdx := by rw [step.frame]
  cases step.source with
  | bound _ queues _ out => exact turns.congr queues out back
  | taken _ _ rest head queues _ out => exact turns.taken head queues out back

theorem passed (turns : FreeTurns s) {index : Fin defaultNumBalloon}
    (passed : fillFreeInodesPass index s = some t) : FreeTurns t := by
  obtain ⟨⟨i, q⟩, _, pass⟩ := Option.bind_eq_some_iff.mp passed
  dsimp only at pass
  split at pass
  · cases pass
    exact turns.congr rfl rfl rfl
  · obtain ⟨v, _, afterOwner⟩ := Option.bind_eq_some_iff.mp pass
    obtain ⟨table, _, afterTable⟩ := Option.bind_eq_some_iff.mp afterOwner
    obtain ⟨p, _, afterSearch⟩ := Option.bind_eq_some_iff.mp afterTable
    obtain ⟨⟨taken, u⟩, tried, afterTry⟩ := Option.bind_eq_some_iff.mp afterSearch
    have lockFrame := tryLockHashNode_frame tried
    have middle : FreeTurns u :=
      turns.congr (by rw [lockFrame]) (by rw [lockFrame]) (by rw [lockFrame])
    split at afterTry
    · cases afterTry
      exact middle
    · obtain ⟨x, deleted, afterDelete⟩ := Option.bind_eq_some_iff.mp afterTry
      obtain ⟨y, gave, done⟩ := Option.bind_eq_some_iff.mp afterDelete
      have frame := logicalDeleteHashNode_frame deleted
      cases done
      have before : FreeTurns x :=
        middle.congr (by rw [frame]) (by rw [frame]) (by rw [frame])
      exact (before.released gave).congr rfl rfl rfl

theorem fresh {r : State C N} (fresh : Fresh r t) : FreeTurns t := by
  have counters : t.freeDequeueIdx = 0 ∧ t.freeEnqueueIdx = 0 := by
    rw [fresh.frame]
    exact ⟨rfl, rfl⟩
  intro k
  rw [counters.1, counters.2, freeSize, fresh.free, initialFree_length, turns_zero]

theorem init {cwd : String} {limit : Nat} (initial : (system C N cwd limit).init s) :
    FreeTurns s := by
  obtain ⟨memory, started⟩ := initial
  obtain ⟨t, started', after⟩ := nvmSystemInit_spec
    (recoveryStart_of_written cwd (s := nvmStructureBuild memory) fun _ => rfl)
  cases started.symm.trans started'
  exact .fresh after

theorem next {cwd : String} {limit : Nat} {e : Event} (turns : FreeTurns s)
    (ok : SystemOk limit s) (narrow : NarrowStep s e) (step : next cwd limit s e = some t) :
    FreeTurns t := by
  cases e with
  | openVolume vid =>
    obtain ⟨⟨v, u⟩, got, rfl⟩ := Option.map_eq_some_iff.mp step
    rcases getVolumeEntryIdx_cases got with ⟨rfl, _⟩ | opened
    · exact turns
    · exact turns.congr (by rw [opened.frame]) (by rw [opened.frame]) (by rw [opened.frame])
  | writeBlock v lbn localOffset buf localCount =>
    simp only [Source.next] at step
    split at step
    · obtain ⟨⟨n, u⟩, wrote, rfl⟩ := Option.map_eq_some_iff.mp step
      obtain ⟨_, i, effect⟩ := writeBlock_spec ok.cycle.nodes (ok.cycle.keyOk v lbn) narrow wrote
      exact turns.written effect
    · cases step
  | flush v =>
    have frame := nvmFlush_frame step
    exact turns.congr (by rw [frame]) (by rw [frame]) (by rw [frame])
  | sync index =>
    have frame := syncLoop_frame step
    exact turns.congr (by rw [frame]) (by rw [frame]) (by rw [frame])
  | balloon index => exact turns.passed step
  | restart =>
    obtain ⟨u, _, _, fresh⟩ := restart_spec step
    exact .fresh fresh

/-- With enough free inodes, each of the queues has one. -/
theorem nonempty (turns : FreeTurns s) (cycle : LifeCycle s [])
    (enough : defaultFreeMinCount ≤ s.inodeFreeCount) (k : Fin defaultNumFree) :
    0 < freeSize s k := by
  have total : freeSize s 0 + freeSize s 1 = s.inodeFreeCount := by
    rw [cycle.freeCount, ← Fin.sum_univ_two (f := freeSize s)]
    change poolSize (contents s.inodeFreeLfqueue) = _
    rw [← sum_copies, tally, Finset.card_filter]
    exact Finset.sum_congr rfl fun i _ => (cycle.inode i).free
  have left := turns.close 0 k
  have right := turns.close 1 k
  have many : 100 ≤ s.inodeFreeCount := enough
  omega

/-- So a block step then finds the inode it needs. -/
theorem chosen (turns : FreeTurns s) (cycle : LifeCycle s [])
    (enough : defaultFreeMinCount ≤ s.inodeFreeCount) (v : VolumeIdx) (lbn : Nat) :
    ∃ i, blockInode s v lbn = some i := by
  unfold blockInode
  cases validInode s v lbn with
  | some i => exact ⟨i, rfl⟩
  | none =>
    have filled := turns.nonempty cycle enough (roundRobin defaultNumFree s.freeDequeueIdx)
    obtain ⟨i, rest, values⟩ := List.exists_cons_of_length_pos filled
    have fits := (s.inodeFreeLfqueue (roundRobin defaultNumFree s.freeDequeueIdx)).fits
    rw [values, List.length_cons] at fits
    have head : (s.inodeFreeLfqueue (roundRobin defaultNumFree s.freeDequeueIdx)).dequeue =
        some (i, ⟨rest, by omega⟩) := LfQueue.dequeue_eq_some.mpr values
    exact ⟨i, by rw [head]; rfl⟩

end FreeTurns

section Progress

variable {s t : State C N}

/-- The loop of a flush that collects, on inodes nobody has locked. -/
theorem collectDirty_front {v : VolumeIdx} {fuel : Nat} {batch rest : List (InodeIdx N)}
    (iIdxs : List (InodeIdx N)) (numDirtyInodes : Int) (enough : batch.length < fuel)
    (queue : (s.inodeDirtyLfqueue v).values = batch ++ rest) (distinct : batch.Nodup)
    (unlocked : ∀ i ∈ batch, (s.inodeTable i).lock = false) :
    ∃ t, collectDirty v fuel iIdxs numDirtyInodes ((iIdxs.length + batch.length : Nat) : Int) s =
        some (iIdxs ++ batch, ((iIdxs.length + batch.length : Nat) : Int), t) ∧
      (t.inodeDirtyLfqueue v).values = rest ∧
      (∀ j, t.inodeTable j =
        if j ∈ batch then { s.inodeTable j with lock := true } else s.inodeTable j) ∧
      t = { s with inodeTable := t.inodeTable, inodeDirtyLfqueue := t.inodeDirtyLfqueue } := by
  induction fuel generalizing s iIdxs batch with
  | zero => exact absurd enough (Nat.not_lt_zero _)
  | succ fuel ih =>
    unfold collectDirty
    cases batch with
    | nil => exact ⟨s, by simp, by simpa using queue, fun j => by simp, rfl⟩
    | cons i batch =>
      have again : (iIdxs.length : Int) < (iIdxs.length + (i :: batch).length : Nat) := by
        rw [List.length_cons]
        omega
      have fits := (s.inodeDirtyLfqueue v).fits
      rw [queue, List.cons_append, List.length_cons] at fits
      have head : (s.inodeDirtyLfqueue v).dequeue = some (i, ⟨batch ++ rest, by omega⟩) :=
        LfQueue.dequeue_eq_some.mpr queue
      let x : State C N := { s with
        inodeDirtyLfqueue := Function.update s.inodeDirtyLfqueue v ⟨batch ++ rest, by omega⟩ }
      have lock : lockInode i x = some (x.setInode i { x.inodeTable i with lock := true }) :=
        lockInode_eq_some.mpr ⟨unlocked i List.mem_cons_self, rfl⟩
      obtain ⟨fresh, distinct⟩ := List.nodup_cons.mp distinct
      obtain ⟨t, collected, left, entries, frame⟩ :=
        ih (s := x.setInode i { x.inodeTable i with lock := true }) (iIdxs ++ [i])
          (Nat.lt_of_succ_lt_succ enough) (by simp [x]) distinct (fun j member => by
            have other : j ≠ i := fun same => fresh (same ▸ member)
            simpa [x, other] using unlocked j (List.mem_cons_of_mem i member))
      refine ⟨t, ?_, left, fun j => ?_, frame⟩
      · rw [List.length_append, List.length_singleton, Nat.add_assoc, Nat.add_comm 1,
          List.append_assoc] at collected
        rw [if_pos again, head]
        simp only [Option.bind_eq_bind, Option.bind_some]
        rw [lock]
        exact collected
      · rw [entries]
        by_cases same : j = i
        · subst j
          simp [fresh, x]
        · simp [same, x]

theorem writeSizeOf_several {size : Nat} (several : 1 < size) (small : size ≤ 2 ^ 31) :
    ∃ more, 0 < more ∧ more < size ∧ writeSizeOf (numDirtyInodesOf size) = (more : Nat) := by
  rw [Collecting.numDirtyInodesOf_small several small, writeSizeOf]
  split
  · exact ⟨flushBatchSize, by decide, by omega, rfl⟩
  · exact ⟨size - 1, by omega, by omega, by omega⟩

/-- A flush of an open volume with several dirty inodes completes, and moves some on. -/
theorem nvmFlush_returns {limit : Nat} (ok : SystemOk limit s) (low : limit ≤ 2 ^ 32)
    (small : N ≤ 2 ^ 31) {v : VolumeIdx} (table : (s.volumeTable v).hashTable.isSome)
    (several : 1 < (s.inodeDirtyLfqueue v).getSize) :
    ∃ t, nvmFlush v s = some t ∧ pendingWork t < pendingWork s ∧
      ∃ i, (t.inodeTable i).state = .sync := by
  have fits : (s.inodeDirtyLfqueue v).getSize ≤ N := (s.inodeDirtyLfqueue v).fits
  obtain ⟨more, positive, below, writeSize⟩ :=
    writeSizeOf_several several (Nat.le_trans fits small)
  have size : (s.inodeDirtyLfqueue v).values.length = (s.inodeDirtyLfqueue v).getSize := rfl
  set r := (s.inodeDirtyLfqueue v).values.take more with hr
  have length : r.length = more := by
    rw [hr, List.length_take]
    omega
  have last : r.length < (s.inodeDirtyLfqueue v).getSize + 1 := by omega
  obtain ⟨u, collected, _⟩ := collectDirty_front []
    (numDirtyInodesOf (s.inodeDirtyLfqueue v).getSize) last (List.take_append_drop more _).symm
    ((ok.cycle.dirty_nodup v).sublist (List.take_sublist more _))
    fun i member => ok.cycle.unlocked_of_queued (List.mem_of_mem_take member)
  rw [List.length_nil, Nat.zero_add, length, List.nil_append] at collected
  obtain ⟨holding, owner, _, quiet, _⟩ :=
    ok.cycle.collectDirty (by simp) (Nat.zero_le _) collected
  have fd : (u.volumeTable v).fd = some (getFilename (s.volumeTable v).vid) := by
    rw [quiet.kept.fd, ok.volumes.opened v table]
  have lows : ∀ i ∈ r, (u.inodeTable i).lbn < 2 ^ 32 := by
    intro i member
    have used : (u.inodeTable i).state ≠ .free := by
      rw [(holding.inode i).heldDirty member]
      decide
    have bound := holding.validInode_self used (owner i member)
    rw [quiet.bound] at bound
    exact Nat.lt_of_lt_of_le (ok.keys v _ i bound) low
  obtain ⟨t, written, _⟩ := writeBatches_returns (Nat.le_refl r.length) owner fd lows
    holding.syncRoom
  have whole : r.take more = r := List.take_of_length_le (Nat.le_of_eq length)
  refine ⟨t, ?_, ?_, ?_⟩
  · rw [nvmFlush_eq, writeSize, collected, Option.bind_some, Int.toNat_natCast, whole, written]
  · have before := collectDirty_work collected
    have after := writeBatches_work written
    rw [List.length_nil] at before
    omega
  · obtain ⟨i, member⟩ := List.exists_mem_of_length_pos (length.symm ▸ positive)
    exact ⟨i, by rw [(writeBatches_moved written).1, if_pos member]⟩

theorem syncOne_work {index : Fin defaultNumSyncer} (synced : syncOne index s = some t) :
    pendingWork t + 1 = pendingWork s := by
  obtain ⟨i, q, r, head, queued, syncs, cleans, _, frame⟩ := syncOne_eq_some synced
  have dirties : t.inodeDirtyLfqueue = s.inodeDirtyLfqueue := by rw [frame]
  have popped := poolSize_dequeue head
  have pushed := poolSize_enqueue queued
  rw [pendingWork, pendingWork, dirties, syncs, cleans]
  omega

theorem syncLoop_work {index : Fin defaultNumSyncer} {n : Nat}
    (synced : syncLoop index n s = some t) : pendingWork t + n = pendingWork s := by
  induction n generalizing s with
  | zero =>
    cases synced
    exact Nat.add_zero _
  | succ n ih =>
    obtain ⟨u, one, rest⟩ := Option.bind_eq_some_iff.mp synced
    have first := syncOne_work one
    have later := ih rest
    omega

/-- A sync makes CLEAN what it takes out, and queues it for the balloon threads. -/
theorem syncLoop_moved {index : Fin defaultNumSyncer} {n : Nat}
    (synced : syncLoop index n s = some t) :
    ∃ moved, (s.inodeSyncLfqueue index).values = moved ++ (t.inodeSyncLfqueue index).values ∧
      moved.length = n ∧ (∀ k, k ≠ index → t.inodeSyncLfqueue k = s.inodeSyncLfqueue k) ∧
      (∀ j, t.inodeTable j = if j ∈ moved then
        { s.inodeTable j with state := .clean, lock := false } else s.inodeTable j) ∧
      ∀ j, copies (contents t.inodeCleanLfqueue) j =
        copies (contents s.inodeCleanLfqueue) j + moved.count j := by
  induction n generalizing s with
  | zero =>
    cases synced
    exact ⟨[], rfl, rfl, fun _ _ => rfl, fun j => by simp, fun j => by simp⟩
  | succ n ih =>
    obtain ⟨u, one, rest⟩ := Option.bind_eq_some_iff.mp synced
    obtain ⟨i, q, r, head, queued, syncs, cleans, entries, _⟩ := syncOne_eq_some one
    obtain ⟨moved, values, length, others, states, entered⟩ := ih rest
    have pushed := copies_enqueue queued
    rw [← cleans] at pushed
    rw [syncs, Function.update_self] at values
    refine ⟨i :: moved, ?_, by rw [List.length_cons, length], fun k other => ?_, fun j => ?_,
      fun j => ?_⟩
    · rw [LfQueue.dequeue_eq_some.mp head, values]
      rfl
    · rw [others k other, syncs, Function.update_of_ne other]
    · rw [states, entries]
      by_cases same : j = i
      · subst j
        simp
      · simp [same]
    · rw [entered, pushed, List.count_cons]
      simp only [beq_iff_eq]
      omega

/-- nvm_sync takes out all that its queue holds. -/
theorem nvmSync_moved {index : Fin defaultNumSyncer} (synced : nvmSync index s = some t) :
    (t.inodeSyncLfqueue index).values = [] ∧
      (∀ k, k ≠ index → t.inodeSyncLfqueue k = s.inodeSyncLfqueue k) ∧
      (∀ j, t.inodeTable j = if j ∈ (s.inodeSyncLfqueue index).values then
        { s.inodeTable j with state := .clean, lock := false } else s.inodeTable j) ∧
      ∀ j, copies (contents t.inodeCleanLfqueue) j = copies (contents s.inodeCleanLfqueue) j +
        (s.inodeSyncLfqueue index).values.count j := by
  obtain ⟨moved, values, length, others, states, entered⟩ := syncLoop_moved synced
  have empty : (t.inodeSyncLfqueue index).values = [] := by
    have sizes := congrArg List.length values
    rw [List.length_append, length] at sizes
    simp only [LfQueue.getSize] at sizes
    exact List.eq_nil_of_length_eq_zero (by omega)
  rw [empty, List.append_nil] at values
  rw [values]
  exact ⟨empty, others, states, entered⟩

/-- A sync completes while no clean queue fills up. -/
theorem syncLoop_returns {index : Fin defaultNumSyncer} {n : Nat}
    (queued : n ≤ (s.inodeSyncLfqueue index).getSize)
    (room : ∀ k, (s.inodeCleanLfqueue k).getSize + n ≤ N) :
    ∃ t, syncLoop index n s = some t := by
  induction n generalizing s with
  | zero => exact ⟨s, rfl⟩
  | succ n ih =>
    have some : (s.inodeSyncLfqueue index).values ≠ [] := by
      intro empty
      rw [LfQueue.getSize, empty] at queued
      cases queued
    obtain ⟨i, rest, values⟩ := List.exists_cons_of_ne_nil some
    have fits := (s.inodeSyncLfqueue index).fits
    rw [values, List.length_cons] at fits
    have head : (s.inodeSyncLfqueue index).dequeue = Option.some (i, ⟨rest, by omega⟩) :=
      LfQueue.dequeue_eq_some.mpr values
    have space := room (roundRobin defaultNumBalloon s.cleanQueueIdx)
    rw [LfQueue.getSize] at space
    obtain ⟨r, pushed, appended⟩ := LfQueue.enqueue_isSome
      (q := s.inodeCleanLfqueue (roundRobin defaultNumBalloon s.cleanQueueIdx)) i (by omega)
    obtain ⟨u, one⟩ : ∃ u, syncOne index s = Option.some u :=
      ⟨_, by simp [syncOne, head, pushed]; rfl⟩
    obtain ⟨i', q', r', head', pushed', syncs, cleans, _, _⟩ := syncOne_eq_some one
    cases head.symm.trans head'
    cases pushed.symm.trans pushed'
    have left : n ≤ (u.inodeSyncLfqueue index).getSize := by
      rw [LfQueue.getSize, values, List.length_cons] at queued
      rw [syncs, Function.update_self]
      exact Nat.le_of_succ_le_succ queued
    have room' : ∀ k, (u.inodeCleanLfqueue k).getSize + n ≤ N := by
      intro k
      have before := room k
      rw [cleans]
      by_cases here : k = roundRobin defaultNumBalloon s.cleanQueueIdx
      · subst k
        rw [Function.update_self, LfQueue.getSize, appended, List.length_append,
          List.length_singleton]
        omega
      · rw [Function.update_of_ne here]
        omega
    obtain ⟨t, looped⟩ := ih left room'
    exact ⟨t, by rw [syncLoop, one]; exact looped⟩

theorem pass_work {index : Fin defaultNumBalloon} (cycle : LifeCycle s [])
    (passed : fillFreeInodesPass index s = some t) : pendingWork t + 1 = pendingWork s := by
  obtain ⟨i, q, head, cleans, cases⟩ := cycle.pass_cases passed
  have popped := poolSize_dequeue head
  have others : t.inodeDirtyLfqueue = s.inodeDirtyLfqueue ∧
      t.inodeSyncLfqueue = s.inodeSyncLfqueue := by
    rcases cases with ⟨_, frame⟩ | ⟨_, v, freed⟩
    · rw [frame]
      exact ⟨rfl, rfl⟩
    · rw [freed.frame]
      exact ⟨rfl, rfl⟩
  rw [pendingWork, pendingWork, others.1, others.2, cleans]
  omega

/-- A free queue has room for an inode that is not free. -/
theorem LifeCycle.free_room (cycle : LifeCycle s []) {i : InodeIdx N}
    (other : (s.inodeTable i).state ≠ .free) (k : Fin defaultNumFree) :
    (s.inodeFreeLfqueue k).values.length < N := by
  have distinct : (i :: (s.inodeFreeLfqueue k).values).Nodup := by
    rw [List.nodup_cons, List.nodup_iff_count_le_one]
    refine ⟨fun member => other (cycle.free_of_queued member), fun j => ?_⟩
    have part := count_le_copies (contents s.inodeFreeLfqueue) k j
    rw [(cycle.inode j).free] at part
    refine Nat.le_trans part ?_
    split <;> omega
  have bound := distinct.length_le_card
  rw [List.length_cons, Fintype.card_fin] at bound
  exact bound

/-- A pass frees a CLEAN inode that the node of its block points to. -/
theorem pass_frees {index : Fin defaultNumBalloon} {i : InodeIdx N} {q : LfQueue (InodeIdx N) N}
    {v : VolumeIdx} (nodes : NodesOk s) (head : (s.inodeCleanLfqueue index).dequeue = some (i, q))
    (clean : (s.inodeTable i).state = .clean) (owner : (s.inodeTable i).volume = some v)
    (valid : validInode s v (s.inodeTable i).lbn = some i)
    (room : ∀ k, (s.inodeFreeLfqueue k).values.length < N) :
    ∃ t, fillFreeInodesPass index s = some t ∧
      t.inodeCleanLfqueue = Function.update s.inodeCleanLfqueue index q ∧ Freed s t i v := by
  set x : State C N := { s with
    inodeCleanLfqueue := Function.update s.inodeCleanLfqueue index q } with hx
  have nodes' : NodesOk x := (nodes_same (s := s) (t := x) rfl rfl rfl nodes).1
  have valid' : validInode x v (x.inodeTable i).lbn = some i := valid
  obtain ⟨p, found, _⟩ := nodeAt_of_validInode valid'
  obtain ⟨table, opened, searched⟩ := Option.bind_eq_some_iff.mp found
  have inode : (x.hashNodes p).inode = some i := by
    rw [← validInode_eq_inode nodes' found, valid']
  have unlocked := nodes'.unlocked found
  obtain ⟨u, locked⟩ := lockHashNode_returns unlocked
  obtain ⟨y, deleted, _, _, _, frame⟩ := logicalDeleteHashNode_spec nodes' found locked
  have space : ∀ k, (y.inodeFreeLfqueue k).values.length < N := by
    rw [frame]
    exact room
  obtain ⟨r, pushed, _⟩ := LfQueue.enqueue_isSome i (space (roundRobin defaultNumFree
    y.freeEnqueueIdx))
  obtain ⟨z, released⟩ : ∃ z, releaseInode i y = some z := ⟨_, by
    simp [releaseInode, pushed]
    rfl⟩
  have tried := tryLockHashNode_eq unlocked inode clean
  obtain ⟨freed, cleans⟩ := freed_of_deleted nodes' owner found locked
    (Option.bind_eq_some_iff.mpr ⟨y, deleted, released⟩) rfl
  obtain ⟨_, lockedState⟩ := lockHashNode_eq_some.mp locked
  refine ⟨unlockHashNode p z, ?_, cleans, freed.owner, freed.entries, freed.queues, freed.count,
    freed.nodes, freed.bound, freed.identity, freed.volumeBlock, ?_⟩
  · simp only [fillFreeInodesPass, head, Option.bind_eq_bind, Option.bind_some, ← hx]
    rw [if_neg (by simpa [hx] using clean)]
    have opened' : (s.volumeTable v).hashTable = some table := opened
    have searched' : searchHashNode table (s.inodeTable i).lbn = some p := searched
    simp only [owner, opened', Option.bind_some, searched', tried, ← lockedState, deleted,
      released, Bool.not_true, Bool.false_eq_true, if_false]
  · rw [freed.frame]

/-- A pass drops an entry whose inode is not CLEAN, or not the CLEAN one of its block. -/
theorem pass_drops {index : Fin defaultNumBalloon} {i : InodeIdx N} {q : LfQueue (InodeIdx N) N}
    (nodes : NodesOk s) (head : (s.inodeCleanLfqueue index).dequeue = some (i, q))
    (stale : (s.inodeTable i).state = .clean → ∃ v j, (s.inodeTable i).volume = some v ∧
      validInode s v (s.inodeTable i).lbn = some j ∧ (s.inodeTable j).state ≠ .clean) :
    fillFreeInodesPass index s = some { s with
      inodeCleanLfqueue := Function.update s.inodeCleanLfqueue index q } := by
  set x : State C N := { s with
    inodeCleanLfqueue := Function.update s.inodeCleanLfqueue index q } with hx
  by_cases clean : (s.inodeTable i).state = .clean
  · obtain ⟨v, j, owner, valid, other⟩ := stale clean
    have nodes' : NodesOk x := (nodes_same (s := s) (t := x) rfl rfl rfl nodes).1
    have valid' : validInode x v (x.inodeTable i).lbn = some j := valid
    obtain ⟨p, found, _, inode⟩ := nodeAt_of_validInode valid'
    obtain ⟨table, opened, searched⟩ := Option.bind_eq_some_iff.mp found
    have unlocked := nodes'.unlocked found
    obtain ⟨u, locked⟩ := lockHashNode_returns unlocked
    obtain ⟨_, lockedState⟩ := lockHashNode_eq_some.mp locked
    have inode' : (u.hashNodes p).inode = some j := by
      rw [lockedState, State.setNode_hashNodes, Function.update_self]
      exact inode
    have back : unlockHashNode p u = x := by
      have whole : unlockHashNode p u = { x with hashNodes := (unlockHashNode p u).hashNodes } := by
        rw [lockedState]
        rfl
      rw [whole, lockedState, relock_hashNodes unlocked]
    have different : (u.inodeTable j).state ≠ .clean := by
      rw [lockedState]
      exact other
    have tried : tryLockHashNode p x = some (false, x) := by
      simp only [tryLockHashNode, locked, inode', Option.bind_eq_bind, Option.bind_some]
      rw [if_pos different, back]
    simp only [fillFreeInodesPass, head, Option.bind_eq_bind, Option.bind_some, ← hx]
    rw [if_neg (by simpa [hx] using clean)]
    have opened' : (s.volumeTable v).hashTable = some table := opened
    have searched' : searchHashNode table (s.inodeTable i).lbn = some p := searched
    simp only [owner, opened', Option.bind_some, searched', tried, Bool.not_false, if_true]
  · simp [fillFreeInodesPass, head, clean, hx]

/-- A pass of fill_free_inodes completes: no lock is held, and there is room. -/
theorem pass_returns {index : Fin defaultNumBalloon} (cycle : LifeCycle s [])
    (more : (s.inodeCleanLfqueue index).values ≠ []) :
    ∃ t, fillFreeInodesPass index s = some t := by
  obtain ⟨i, q, head⟩ := LfQueue.dequeue_isSome more
  by_cases clean : (s.inodeTable i).state = .clean
  · have used : (s.inodeTable i).state ≠ .free := by
      rw [clean]
      decide
    obtain ⟨v, owner⟩ := Option.isSome_iff_exists.mp ((cycle.inode i).owned used)
    obtain ⟨t, passed, _⟩ := pass_frees cycle.nodes head clean owner
      (cycle.validInode_self used owner) (cycle.free_room used)
    exact ⟨t, passed⟩
  · exact ⟨_, pass_drops cycle.nodes head fun isClean => absurd isClean clean⟩

end Progress

end BurstBuffer.Source
