import BurstBuffer.Invariants.FlushStep

/-!
# The effect of nvm_sync and of a pass of fill_free_inodes
-/
namespace BurstBuffer.Source

open Library

variable {C : CuckoohashMap} {N : Nat}

theorem syncOne_eq_some {s t : State C N} {index : Fin defaultNumSyncer}
    (synced : syncOne index s = some t) :
    ∃ i q r, (s.inodeSyncLfqueue index).dequeue = some (i, q) ∧
      (s.inodeCleanLfqueue (roundRobin defaultNumBalloon s.cleanQueueIdx)).enqueue i = some r ∧
      t.inodeSyncLfqueue = Function.update s.inodeSyncLfqueue index q ∧
      t.inodeCleanLfqueue =
        Function.update s.inodeCleanLfqueue (roundRobin defaultNumBalloon s.cleanQueueIdx) r ∧
      t.inodeTable =
        Function.update s.inodeTable i { s.inodeTable i with state := .clean, lock := false } ∧
      t = { s with
        inodeTable := t.inodeTable, inodeSyncLfqueue := t.inodeSyncLfqueue
        inodeCleanLfqueue := t.inodeCleanLfqueue, cleanQueueIdx := t.cleanQueueIdx } := by
  obtain ⟨⟨i, q⟩, head, afterHead⟩ := Option.bind_eq_some_iff.mp synced
  obtain ⟨r, queued, done⟩ := Option.bind_eq_some_iff.mp afterHead
  cases done
  exact ⟨i, q, r, head, queued, rfl, rfl, by simp [unlockInode], rfl⟩

namespace LifeCycle

variable {s t : State C N} {held : List (InodeIdx N)}

theorem syncOne {index : Fin defaultNumSyncer} (cycle : LifeCycle s [])
    (synced : syncOne index s = some t) : LifeCycle t [] ∧ Background s t := by
  obtain ⟨i, q, r, head, queued, syncs, cleans, entries, frame⟩ := syncOne_eq_some synced
  have isSync : (s.inodeTable i).state = .sync :=
    cycle.sync_of_queued (by rw [LfQueue.dequeue_eq_some.mp head]; exact List.mem_cons_self)
  have popped := copies_dequeue head
  have pushed := copies_enqueue queued
  rw [← syncs] at popped
  rw [← cleans] at pushed
  have frees : t.inodeFreeLfqueue = s.inodeFreeLfqueue := by rw [frame]
  have dirties : t.inodeDirtyLfqueue = s.inodeDirtyLfqueue := by rw [frame]
  obtain ⟨nodes, bound⟩ := nodes_same (t := t) (by rw [frame]) (by rw [frame]) (by rw [frame])
    cycle.nodes
  have entry : t.inodeTable i = { s.inodeTable i with state := .clean, lock := false } := by
    rw [entries, Function.update_self]
  have ok := cycle.inode i
  have here : InodeOk t [] i := by
    refine ⟨?_, fun w => ?_, ?_, ?_, ?_, ?_, ?_, ?_⟩
    · rw [frees, ok.free, isSync, entry]
      simp
    · rw [dirties, ok.dirty, isSync, entry]
      simp
    · have now := popped i
      rw [ok.sync, if_pos isSync, if_pos rfl] at now
      rw [entry]
      simp
      omega
    · intro _
      rw [pushed, if_pos rfl]
      omega
    · intro w l
      rw [bound, ok.bound, isSync, entry]
      simp
    · rw [entry]
      exact fun _ => ok.owned (by rw [isSync]; decide)
    · rw [entry]
      simp
    · simp
  have kept : Kept s t := Kept.of_entry (by rw [frame]) (by rw [frame])
    (by rw [frame]; exact ⟨rfl, rfl⟩) entries rfl rfl rfl
  refine ⟨?_, Background.of_quiet ⟨kept, by rw [frame], bound⟩ ?_⟩
  · refine cycle.move entries here (fun j other => ?_) (fun j _ w l => by rw [bound])
      (fun _ _ => Iff.rfl) nodes ?_ ?_ List.nodup_nil
    · refine ⟨by rw [frees], fun w => by rw [dirties], ?_, ?_⟩
      · have now := popped j
        rw [if_neg other.symm] at now
        omega
      · rw [pushed, if_neg other.symm, Nat.add_zero]
    · rw [isSync, frame]
      rfl
    · rw [isSync, frame]
      rfl
  · intro j state settled
    apply settled j
    by_cases same : j = i
    · subst j
      exact Or.inl isSync
    · rwa [entries, Function.update_of_ne same] at state

theorem nvmSync {index : Fin defaultNumSyncer} (cycle : LifeCycle s [])
    (synced : nvmSync index s = some t) : LifeCycle t [] ∧ Background s t := by
  have loop : ∀ n (s : State C N), LifeCycle s [] → syncLoop index n s = some t →
      LifeCycle t [] ∧ Background s t := by
    intro n
    induction n with
    | zero =>
      intro s cycle done
      cases done
      exact ⟨cycle, .refl t⟩
    | succ n ih =>
      intro s cycle looped
      obtain ⟨u, one, rest⟩ := Option.bind_eq_some_iff.mp looped
      obtain ⟨middle, first⟩ := cycle.syncOne one
      obtain ⟨last, others⟩ := ih u middle rest
      exact ⟨last, first.trans others⟩
  exact loop _ s cycle synced

end LifeCycle

theorem tryLockHashNode_eq {s : State C N} {p : NodePtr} {i : InodeIdx N}
    (unlocked : (s.hashNodes p).mutex = false) (inode : (s.hashNodes p).inode = some i)
    (clean : (s.inodeTable i).state = .clean) :
    tryLockHashNode p s = some (true, s.setNode p { s.hashNodes p with mutex := true }) := by
  simp [tryLockHashNode, lockHashNode, unlocked, inode, clean]

theorem releaseInode_eq_some {s t : State C N} {i : InodeIdx N}
    (freed : releaseInode i s = some t) :
    (∃ r, (s.inodeFreeLfqueue (roundRobin defaultNumFree s.freeEnqueueIdx)).enqueue i = some r ∧
        t.inodeFreeLfqueue =
          Function.update s.inodeFreeLfqueue (roundRobin defaultNumFree s.freeEnqueueIdx) r) ∧
      t.inodeTable = Function.update s.inodeTable i { s.inodeTable i with state := .free } ∧
      t.inodeFreeCount = s.inodeFreeCount + 1 ∧
      t = { s with
        inodeTable := t.inodeTable, inodeFreeLfqueue := t.inodeFreeLfqueue
        inodeFreeCount := t.inodeFreeCount, freeEnqueueIdx := t.freeEnqueueIdx } := by
  obtain ⟨r, queued, done⟩ := Option.bind_eq_some_iff.mp freed
  cases done
  exact ⟨⟨r, queued, rfl⟩, rfl, rfl, rfl⟩

/-- What a pass does when the inode it dequeues is CLEAN. -/
structure Freed (s t : State C N) (i : InodeIdx N) (v : VolumeIdx) : Prop where
  owner : (s.inodeTable i).volume = some v
  entries : t.inodeTable = Function.update s.inodeTable i { s.inodeTable i with state := .free }
  queues : ∃ r, (s.inodeFreeLfqueue (roundRobin defaultNumFree s.freeEnqueueIdx)).enqueue i =
      some r ∧ t.inodeFreeLfqueue =
        Function.update s.inodeFreeLfqueue (roundRobin defaultNumFree s.freeEnqueueIdx) r
  count : t.inodeFreeCount = s.inodeFreeCount + 1
  nodes : NodesOk t
  bound : ∀ w l, validInode t w l =
    if w = v ∧ l = (s.inodeTable i).lbn then none else validInode s w l
  identity : ∀ w, volumeIdentity t w = volumeIdentity s w
  volumeBlock : ∀ w, (t.volumeTable w).blockIndex = (s.volumeTable w).blockIndex
  frame : t = { s with
    inodeTable := t.inodeTable, volumeTable := t.volumeTable, hashNodes := t.hashNodes
    inodeFreeLfqueue := t.inodeFreeLfqueue, inodeFreeCount := t.inodeFreeCount
    freeEnqueueIdx := t.freeEnqueueIdx, inodeCleanLfqueue := t.inodeCleanLfqueue }

/-- The part of a pass after the node of a CLEAN inode has been locked. -/
theorem freed_of_deleted {s u x t : State C N} (nodes : NodesOk s) {v : VolumeIdx} {i : InodeIdx N}
    (owner : (s.inodeTable i).volume = some v) {p : NodePtr}
    (found : nodeAt s v (s.inodeTable i).lbn = some p) (locked : lockHashNode p s = some u)
    (deleted : (logicalDeleteHashNode v p u).bind (releaseInode i) = some x)
    (unlocked : unlockHashNode p x = t) :
    Freed s t i v ∧ t.inodeCleanLfqueue = s.inodeCleanLfqueue := by
  obtain ⟨y, delete, released⟩ := Option.bind_eq_some_iff.mp deleted
  obtain ⟨y', delete', after, bound, identity, frame⟩ :=
    logicalDeleteHashNode_spec nodes found locked
  cases delete.symm.trans delete'
  obtain ⟨⟨r, queued, queues⟩, entries, count, xFrame⟩ := releaseInode_eq_some released
  have yEntries : y.inodeTable = s.inodeTable := by rw [frame]
  have yQueues : y.inodeFreeLfqueue = s.inodeFreeLfqueue := by rw [frame]
  have yTurn : y.freeEnqueueIdx = s.freeEnqueueIdx := by rw [frame]
  have yCount : y.inodeFreeCount = s.inodeFreeCount := by rw [frame]
  have xVolumes : x.volumeTable = y.volumeTable := by rw [xFrame]
  have xHeap : x.hashNodes = y.hashNodes := by rw [xFrame]
  have xNext : x.nextNode = y.nextNode := by rw [xFrame]
  rw [yEntries] at entries
  rw [yQueues, yTurn] at queued queues
  rw [yCount] at count
  subst unlocked
  have settled := nodes_same (s := unlockHashNode p y) (t := unlockHashNode p x) xVolumes
    (by simp [unlockHashNode, xHeap]) xNext after
  refine ⟨⟨owner, entries, ⟨r, queued, queues⟩, count, settled.1, ?_, ?_, ?_, ?_⟩, ?_⟩
  · intro w l
    rw [settled.2, bound]
  · intro w
    have same := identity w
    simp only [Prod.mk.injEq] at same
    simp [volumeIdentity, unlockHashNode, xVolumes, same]
  · intro w
    have same := identity w
    simp only [Prod.mk.injEq] at same
    simp [unlockHashNode, xVolumes, same]
  · rw [xFrame, frame]
    rfl
  · rw [xFrame, frame]
    rfl

/-- A pass drops a stale entry or frees the CLEAN inode it dequeues: the node of
such an inode is found and never locked. -/
theorem LifeCycle.pass_cases {s t : State C N} {index : Fin defaultNumBalloon}
    (cycle : LifeCycle s []) (passed : fillFreeInodesPass index s = some t) :
    ∃ i q, (s.inodeCleanLfqueue index).dequeue = some (i, q) ∧
      t.inodeCleanLfqueue = Function.update s.inodeCleanLfqueue index q ∧
      ((s.inodeTable i).state ≠ .clean ∧
          t = { s with inodeCleanLfqueue := t.inodeCleanLfqueue } ∨
        (s.inodeTable i).state = .clean ∧ ∃ v, Freed s t i v) := by
  obtain ⟨⟨i, q⟩, head, pass⟩ := Option.bind_eq_some_iff.mp passed
  refine ⟨i, q, head, ?_⟩
  dsimp only at pass
  split at pass
  · rename_i stale
    cases pass
    exact ⟨rfl, Or.inl ⟨stale, rfl⟩⟩
  · rename_i notStale
    have clean : (s.inodeTable i).state = .clean := not_not.mp notStale
    set s₁ : State C N :=
      { s with inodeCleanLfqueue := Function.update s.inodeCleanLfqueue index q } with hs₁
    obtain ⟨v, owner, afterOwner⟩ := Option.bind_eq_some_iff.mp pass
    obtain ⟨table, opened, afterTable⟩ := Option.bind_eq_some_iff.mp afterOwner
    obtain ⟨p, search, afterSearch⟩ := Option.bind_eq_some_iff.mp afterTable
    obtain ⟨⟨taken, u⟩, tried, afterTry⟩ := Option.bind_eq_some_iff.mp afterSearch
    have nodes : NodesOk s₁ := (nodes_same (s := s) (t := s₁) rfl rfl rfl cycle.nodes).1
    have found : nodeAt s₁ v (s₁.inodeTable i).lbn = some p := by
      rw [nodeAt, show (s₁.volumeTable v).hashTable = some table from opened]
      exact search
    have valid : validInode s₁ v (s₁.inodeTable i).lbn = some i :=
      cycle.validInode_self (by rw [clean]; decide) owner
    have inode : (s₁.hashNodes p).inode = some i := by
      rw [← validInode_eq_inode nodes found, valid]
    have unlocked := nodes.unlocked found
    rw [tryLockHashNode_eq unlocked inode clean, Option.some.injEq, Prod.mk.injEq] at tried
    obtain ⟨rfl, rfl⟩ := tried
    simp only [Bool.not_true, Bool.false_eq_true, if_false] at afterTry
    obtain ⟨x, deleted, afterDelete⟩ := Option.bind_eq_some_iff.mp afterTry
    obtain ⟨y, released, done⟩ := Option.bind_eq_some_iff.mp afterDelete
    obtain ⟨freed, cleans⟩ := freed_of_deleted nodes owner found
      (lockHashNode_eq_some.mpr ⟨unlocked, rfl⟩)
      (Option.bind_eq_some_iff.mpr ⟨x, deleted, released⟩) (Option.some.inj done)
    refine ⟨cleans, Or.inr ⟨clean, v, freed.owner, freed.entries, freed.queues, freed.count,
      freed.nodes, freed.bound, freed.identity, freed.volumeBlock, ?_⟩⟩
    rw [freed.frame]

namespace LifeCycle

variable {s t : State C N}

/-- The pass dropped a stale entry. -/
theorem dropStale (cycle : LifeCycle s []) {index : Fin defaultNumBalloon} {i : InodeIdx N}
    {q : LfQueue (InodeIdx N) N} (head : (s.inodeCleanLfqueue index).dequeue = some (i, q))
    (queues : t.inodeCleanLfqueue = Function.update s.inodeCleanLfqueue index q)
    (stale : (s.inodeTable i).state ≠ .clean)
    (frame : t = { s with inodeCleanLfqueue := t.inodeCleanLfqueue }) :
    LifeCycle t [] ∧ Background s t := by
  have popped := copies_dequeue head
  rw [← queues] at popped
  have entries : t.inodeTable = Function.update s.inodeTable i (s.inodeTable i) := by
    rw [Function.update_eq_self, frame]
  have sameEntries : t.inodeTable = s.inodeTable := by rw [frame]
  have frees : t.inodeFreeLfqueue = s.inodeFreeLfqueue := by rw [frame]
  have dirties : t.inodeDirtyLfqueue = s.inodeDirtyLfqueue := by rw [frame]
  have syncs : t.inodeSyncLfqueue = s.inodeSyncLfqueue := by rw [frame]
  obtain ⟨nodes, bound⟩ := nodes_same (t := t) (by rw [frame]) (by rw [frame]) (by rw [frame])
    cycle.nodes
  have ok := cycle.inode i
  have here : InodeOk t [] i := by
    refine ⟨?_, fun w => ?_, ?_, ?_, fun w l => ?_, ?_, ?_, ?_⟩
    · rw [frees, sameEntries]
      exact ok.free
    · rw [dirties, sameEntries]
      exact ok.dirty w
    · rw [syncs, sameEntries]
      exact ok.sync
    · rw [sameEntries]
      exact fun clean => absurd clean stale
    · rw [bound, sameEntries]
      exact ok.bound w l
    · rw [sameEntries]
      exact ok.owned
    · rw [sameEntries]
      exact ok.locked
    · simp
  constructor
  · refine cycle.move entries here (fun j other => ?_) (fun j _ w l => by rw [bound])
      (fun _ _ => Iff.rfl) nodes (by rw [frame]) (by rw [frame]) List.nodup_nil
    refine ⟨by rw [frees], fun w => by rw [dirties], by rw [syncs], ?_⟩
    have now := popped j
    rw [if_neg other.symm] at now
    exact now.symm
  · have kept : Kept s t := Kept.of_entry (by rw [frame]) (by rw [frame])
      (by rw [frame]; exact ⟨rfl, rfl⟩) entries rfl rfl rfl
    refine Background.of_quiet ⟨kept, by rw [frame], bound⟩ fun j state settled => ?_
    rw [sameEntries] at state
    exact settled j state

/-- The pass freed a CLEAN inode: the file shows the image its block had. -/
theorem free_clean (cycle : LifeCycle s []) {index : Fin defaultNumBalloon} {i : InodeIdx N}
    {v : VolumeIdx} {q : LfQueue (InodeIdx N) N}
    (head : (s.inodeCleanLfqueue index).dequeue = some (i, q))
    (cleans : t.inodeCleanLfqueue = Function.update s.inodeCleanLfqueue index q)
    (clean : (s.inodeTable i).state = .clean) (freed : Freed s t i v) :
    LifeCycle t [] ∧ Background s t := by
  have popped := copies_dequeue head
  rw [← cleans] at popped
  obtain ⟨r, queued, queues⟩ := freed.queues
  have pushed := copies_enqueue queued
  rw [← queues] at pushed
  have dirties : t.inodeDirtyLfqueue = s.inodeDirtyLfqueue := by rw [freed.frame]
  have syncs : t.inodeSyncLfqueue = s.inodeSyncLfqueue := by rw [freed.frame]
  have sameFiles : t.files = s.files := by rw [freed.frame]
  have entry : t.inodeTable i = { s.inodeTable i with state := .free } := by
    rw [freed.entries, Function.update_self]
  have ok := cycle.inode i
  have valid := cycle.validInode_self (by rw [clean]; decide) freed.owner
  have unbound : ∀ w l, validInode t w l ≠ some i := by
    intro w l bound
    rw [freed.bound] at bound
    split at bound
    · cases bound
    · rename_i other
      obtain ⟨_, volume, key⟩ := (ok.bound w l).mp bound
      exact other ⟨Option.some.inj (volume.symm.trans freed.owner), key.symm⟩
  have here : InodeOk t [] i := by
    refine ⟨?_, fun w => ?_, ?_, ?_, fun w l => ?_, ?_, ?_, ?_⟩
    · rw [pushed, ok.free, clean, entry]
      simp
    · rw [dirties, ok.dirty, clean, entry]
      simp
    · rw [syncs, ok.sync, clean, entry]
      simp
    · rw [entry]
      intro state
      cases state
    · rw [entry]
      simp [unbound w l]
    · rw [entry]
      exact fun used => absurd rfl used
    · rw [entry]
      simpa [clean] using ok.locked
    · simp
  have kept : Kept s t := by
    have same := Kept.of_entry (s := s) (t := { s with inodeTable := t.inodeTable }) rfl rfl
      ⟨rfl, rfl⟩
      freed.entries
      rfl rfl rfl
    exact ⟨by rw [freed.frame], same.lbn, same.volume, same.blockIndex, freed.identity,
      freed.volumeBlock, by rw [freed.frame], by rw [freed.frame]⟩
  refine ⟨?_, kept, fun w l j bound => ?_, fun low files settled => ⟨fun j state => ?_, ?_⟩⟩
  · refine cycle.move freed.entries here (fun j other => ?_) (fun j other w l => ?_)
      (fun _ _ => Iff.rfl) freed.nodes ?_ ?_ List.nodup_nil
    · refine ⟨by rw [pushed, if_neg other.symm, Nat.add_zero], fun w => by rw [dirties],
        by rw [syncs], ?_⟩
      have now := popped j
      rw [if_neg other.symm] at now
      exact now.symm
    · rw [freed.bound]
      split
      · rename_i key
        rw [key.1, key.2, valid]
        constructor
        · intro none
          cases none
        · intro same
          exact absurd (Option.some.inj same).symm other
      · rfl
    · rw [clean, freed.count]
      rfl
    · rw [clean, freed.frame]
      rfl
  · rw [freed.bound] at bound
    split at bound
    · cases bound
    · exact bound
  · apply kept.onFile sameFiles
    apply settled
    by_cases same : j = i
    · subst j
      exact Or.inr clean
    · rwa [freed.entries, Function.update_of_ne same] at state
  · intro w l
    by_cases key : w = v ∧ l = (s.inodeTable i).lbn
    · obtain ⟨rfl, rfl⟩ := key
      obtain ⟨file, opened⟩ := files.of_validInode valid
      rw [visibleImage_of_onFile valid freed.owner rfl (settled i (Or.inr clean)) opened]
      unfold visibleImage
      rw [freed.bound, if_pos ⟨rfl, rfl⟩, kept.fd, opened, sameFiles]
      rfl
    · apply kept.visibleImage sameFiles
      rw [freed.bound, if_neg key]

/-- A pass of fill_free_inodes -/
theorem fillFreeInodesPass {index : Fin defaultNumBalloon} (cycle : LifeCycle s [])
    (passed : fillFreeInodesPass index s = some t) : LifeCycle t [] ∧ Background s t := by
  obtain ⟨i, q, head, queues, ⟨stale, frame⟩ | ⟨clean, v, freed⟩⟩ := cycle.pass_cases passed
  · exact cycle.dropStale head queues stale frame
  · exact cycle.free_clean head queues clean freed

end LifeCycle

end BurstBuffer.Source
