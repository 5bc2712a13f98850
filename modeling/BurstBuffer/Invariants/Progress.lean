import BurstBuffer.Invariants.Run

/-!
# Block steps return

A block step of an open volume completes unless its inode is being synced or
free inodes run short: no queue is full and no other lock is taken.
-/
namespace BurstBuffer.Source

open Library

variable {C : CuckoohashMap} {N : Nat} {s t u : State C N}

/-- A block step needs an open volume. -/
theorem writeBlock_open {v : VolumeIdx} {lbn offset count : Nat}
    {buf : Nat → UInt8} {r : Nat × State C N}
    (written : writeBlock v lbn offset buf count s = some r) :
    (s.volumeTable v).hashTable.isSome := by
  obtain ⟨_, located, _⟩ := Option.bind_eq_some_iff.mp written
  obtain ⟨table, opened, _⟩ := Option.bind_eq_some_iff.mp located
  rw [opened]
  rfl

/-- Every block of an open volume has an image. -/
theorem visibleImage_of_open (volumes : VolumesOk s) {v : VolumeIdx}
    (table : (s.volumeTable v).hashTable.isSome) (lbn : Nat) :
    ∃ image, visibleImage s v lbn = some image := by
  unfold visibleImage
  cases validInode s v lbn with
  | some i => exact ⟨_, rfl⟩
  | none =>
    rw [volumes.opened v table]
    exact ⟨_, rfl⟩

theorem lockHashNode_returns {p : NodePtr} (unlocked : (s.hashNodes p).mutex = false) :
    ∃ t, lockHashNode p s = some t :=
  ⟨_, lockHashNode_eq_some.mpr ⟨unlocked, rfl⟩⟩

/-- Where no node or an invalid one is stored, one is put in place, unlocked. -/
theorem placeHashNode_returns (nodes : NodesOk s) {v : VolumeIdx} (lbn : Nat) (i : InodeIdx N)
    (table : (s.volumeTable v).hashTable.isSome) :
    ∃ p t, placeHashNode v (nodeAt s v lbn) i s = some (p, t) ∧ (t.hashNodes p).mutex = false := by
  cases found : nodeAt s v lbn with
  | none =>
    obtain ⟨map, opened⟩ := Option.isSome_iff_exists.mp table
    refine ⟨s.nextNode, _, by simp [placeHashNode, newHashNode, insertHashNode, opened]; rfl, ?_⟩
    simp
  | some p =>
    exact ⟨p, _, rfl, by simp [validateHashNode, nodes.unlocked found]⟩

theorem getHashNodeWithLock_returns (nodes : NodesOk s) {v : VolumeIdx} {lbn : Nat}
    {i : InodeIdx N} (table : (s.volumeTable v).hashTable.isSome)
    (chosen : blockInode s v lbn = some i)
    (enough : validInode s v lbn = none → defaultFreeMinCount ≤ s.inodeFreeCount) :
    ∃ p t, getHashNodeWithLock v lbn s = some (p, t) := by
  obtain ⟨map, opened⟩ := Option.isSome_iff_exists.mp table
  have search : searchHashNode map lbn = nodeAt s v lbn := by simp [nodeAt, opened]
  have valid := isValidNode_eq s v lbn nodes
  cases bound : validInode s v lbn with
  | some j =>
    obtain ⟨p, found, _⟩ := nodeAt_of_validInode bound
    obtain ⟨t, locked⟩ := lockHashNode_returns (nodes.unlocked found)
    rw [bound, found] at valid
    exact ⟨p, t, by simp [getHashNodeWithLock, opened, search, found, valid, locked]⟩
  | none =>
    simp only [blockInode, bound, Option.map_eq_some_iff] at chosen
    obtain ⟨⟨j, rest⟩, head, rfl⟩ := chosen
    obtain ⟨x, taken⟩ : ∃ x, getFreeInodeFromFreeLFQueue v lbn s = some (j, x) :=
      ⟨_, by simp [getFreeInodeFromFreeLFQueue, head]; rfl⟩
    obtain ⟨_, _, _, _, frame⟩ := getFreeInode_spec taken
    have volumes : x.volumeTable = s.volumeTable := by rw [frame]
    have after := (nodes_same (t := x) volumes (by rw [frame]) (by rw [frame]) nodes).1
    have same : nodeAt x v lbn = nodeAt s v lbn := by rw [nodeAt, volumes]; rfl
    obtain ⟨p, y, placed, unlocked⟩ :=
      placeHashNode_returns after (v := v) lbn j (by rw [volumes]; exact table)
    rw [same] at placed
    obtain ⟨z, locked⟩ := lockHashNode_returns unlocked
    have room : isFreeLFQueueEnough s = true := by
      simpa [isFreeLFQueueEnough] using enough bound
    rw [bound] at valid
    refine ⟨p, z, ?_⟩
    simp [getHashNodeWithLock, opened, search, valid, room, taken, placed, locked]

theorem enqueueDirty_returns (old : InodeState) {v : VolumeIdx} {i : InodeIdx N}
    (room : old ≠ .dirty → (s.inodeDirtyLfqueue v).values.length < N) :
    ∃ t, enqueueDirty old v i s = some t := by
  unfold enqueueDirty
  split
  · rename_i other
    obtain ⟨q, queued, _⟩ := LfQueue.enqueue_isSome i (room other)
    exact ⟨_, by rw [queued]; rfl⟩
  · exact ⟨s, rfl⟩

theorem storeInBlock_returns {p : NodePtr} {i : InodeIdx N} (idx : InodeIdx N) {v w : VolumeIdx}
    (offset count : Nat) (buf : Nat → UInt8) (unlocked : (s.inodeTable i).lock = false)
    (owner : (s.inodeTable idx).volume = some w)
    (room : (s.inodeTable i).state ≠ .dirty → (s.inodeDirtyLfqueue v).values.length < N) :
    ∃ t, storeInBlock p i idx v offset buf count s = some (count, t) := by
  have lock : lockInode i s = some (s.setInode i { s.inodeTable i with lock := true }) :=
    lockInode_eq_some.mpr ⟨unlocked, rfl⟩
  set x := s.setInode i { s.inodeTable i with lock := true } with hx
  set y := x.setInode i { x.inodeTable i with state := .dirty } with hy
  have kept : (y.inodeTable idx).volume = some w := by
    by_cases same : idx = i
    · subst idx
      simp [hy, hx, owner]
    · simp [hy, hx, same, owner]
  obtain ⟨z, written⟩ : ∃ z, writeDataToNvmBlock idx offset buf count y = some (count, z) :=
    ⟨_, by simp [writeDataToNvmBlock, kept]; rfl⟩
  obtain ⟨_, _, _, _, frame⟩ := writeData_spec kept written
  obtain ⟨r, marked⟩ := enqueueDirty_returns (s := z) (x.inodeTable i).state (v := v)
    (i := idx) (by
      rw [frame]
      simpa [hy, hx] using room)
  refine ⟨unlockHashNode p (unlockInode i r), ?_⟩
  simp only [storeInBlock, lock, Option.bind_eq_bind, Option.bind_some, ← hy, written, marked]

/-- A block step, when the inode found under the computed index belongs to the same volume. -/
theorem writeBlock_through (nodes : NodesOk s) {v : VolumeIdx} {lbn : Nat} (keys : KeyOk s v lbn)
    {i : InodeIdx N} (offset count : Nat) (buf : Nat → UInt8)
    (table : (s.volumeTable v).hashTable.isSome) (chosen : blockInode s v lbn = some i)
    (enough : validInode s v lbn = none → defaultFreeMinCount ≤ s.inodeFreeCount)
    (unlocked : (s.inodeTable i).lock = false)
    (owner : inodeIdxOfPointer i ≠ i → (s.inodeTable (inodeIdxOfPointer i)).volume = some v)
    (room : (s.inodeTable i).state ≠ .dirty → (s.inodeDirtyLfqueue v).values.length < N) :
    ∃ p u t, writeBlock v lbn offset buf count s = some (count, t) ∧ NodeLocked s u v lbn p i ∧
      Stored u t p i (inodeIdxOfPointer i) v v buf count := by
  obtain ⟨p, u, located⟩ := getHashNodeWithLock_returns nodes table chosen enough
  obtain ⟨j, node⟩ := getHashNodeWithLock_spec nodes keys located
  cases chosen.symm.trans node.source.blockInode
  have entry : u.inodeTable i = { s.inodeTable i with lbn := lbn, volume := some v } := by
    rw [node.entries, Function.update_self]
  have owner' : (u.inodeTable (inodeIdxOfPointer i)).volume = some v := by
    by_cases same : inodeIdxOfPointer i = i
    · rw [same, entry]
    · rw [node.entries, Function.update_of_ne same]
      exact owner same
  have queues : u.inodeDirtyLfqueue = s.inodeDirtyLfqueue := by rw [node.frame]
  obtain ⟨t, stores⟩ := storeInBlock_returns (s := u) (p := p) (i := i) (inodeIdxOfPointer i)
    (v := v) (w := v) offset count buf (by rw [entry]; exact unlocked) owner'
    (by
      rw [entry, queues]
      exact room)
  have written : writeBlock v lbn offset buf count s = some (count, t) := by
    rw [writeBlock_eq located node.inode, stores]
  exact ⟨p, u, t, written, node, (storeInBlock_spec owner' stores).2⟩

/-- A dirty queue has room for an inode that is not dirty. -/
theorem LifeCycle.dirty_room (cycle : LifeCycle s []) {i : InodeIdx N}
    (other : (s.inodeTable i).state ≠ .dirty) (v : VolumeIdx) :
    (s.inodeDirtyLfqueue v).values.length < N := by
  have distinct : (i :: (s.inodeDirtyLfqueue v).values).Nodup := by
    rw [List.nodup_cons, List.nodup_iff_count_le_one]
    refine ⟨fun member => other (cycle.dirty_of_queued member).1, fun j => ?_⟩
    rw [(cycle.inode j).dirty]
    split <;> omega
  have bound := distinct.length_le_card
  rw [List.length_cons, Fintype.card_fin] at bound
  exact bound

/-- A block step with the inode it needs at hand returns the bytes it copied. -/
theorem writeBlock_returns (cycle : LifeCycle s []) {v : VolumeIdx} {lbn : Nat} {i : InodeIdx N}
    (offset count : Nat) (buf : Nat → UInt8) (table : (s.volumeTable v).hashTable.isSome)
    (chosen : blockInode s v lbn = some i) (narrow : i.val < 2 ^ 26)
    (notSync : (s.inodeTable i).state ≠ .sync)
    (enough : validInode s v lbn = none → defaultFreeMinCount ≤ s.inodeFreeCount) :
    ∃ t, writeBlock v lbn offset buf count s = some (count, t) ∧
      BlockWritten s t v lbn buf count i := by
  have unlocked : (s.inodeTable i).lock = false := by
    rw [← Bool.not_eq_true, (cycle.inode i).locked]
    simp [notSync]
  obtain ⟨_, _, t, written, _⟩ := writeBlock_through cycle.nodes (cycle.keyOk v lbn) offset count
    buf table chosen enough unlocked (fun apart => absurd (inodeIdxOfPointer_of_lt narrow) apart)
    fun other => cycle.dirty_room other v
  obtain ⟨_, k, effect⟩ := writeBlock_spec cycle.nodes (cycle.keyOk v lbn)
    (fun j same => Option.some.inj (chosen.symm.trans same) ▸ narrow) written
  cases chosen.symm.trans effect.source.blockInode
  exact ⟨t, written, effect⟩

end BurstBuffer.Source
