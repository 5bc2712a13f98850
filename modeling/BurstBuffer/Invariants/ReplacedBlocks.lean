import BurstBuffer.Invariants.BlockOwners
import BurstBuffer.Invariants.DurableWrite

/-!
# The same state with other bytes in its blocks

No branch of a call depends on the bytes of a block. So a call on the same tables
with other blocks does the same to the tables, and a flush writes the same bytes if
the inodes it writes show the same bytes.
-/
namespace BurstBuffer.Source

open Library

variable {C : CuckoohashMap} {N : Nat}

def State.withBlocks (s : State C N) (blocks : BlockIdx N → Block) : State C N :=
  { s with blockTable := blocks }

@[simp] theorem State.withBlocks_inodeTable (s : State C N) (blocks : BlockIdx N → Block) :
    (s.withBlocks blocks).inodeTable = s.inodeTable := rfl

@[simp] theorem State.withBlocks_volumeTable (s : State C N) (blocks : BlockIdx N → Block) :
    (s.withBlocks blocks).volumeTable = s.volumeTable := rfl

@[simp] theorem State.withBlocks_blockTable (s : State C N) (blocks : BlockIdx N → Block) :
    (s.withBlocks blocks).blockTable = blocks := rfl

/-- The invariants of runs that are about the tables hold of other blocks too. -/
theorem SystemOk.withBlocks {s : State C N} (ok : SystemOk (2 ^ 32) s)
    (blocks : BlockIdx N → Block) : SystemOk (2 ^ 32) (s.withBlocks blocks) where
  cycle :=
    { inode := fun i => (ok.cycle.inode i).congr rfl rfl (fun _ => rfl) rfl rfl
        (fun _ _ => Iff.rfl) Iff.rfl
      nodes := (nodes_same (s := s) (t := s.withBlocks blocks) rfl rfl rfl ok.cycle.nodes).1
      freeCount := ok.cycle.freeCount
      dirtyCount := ok.cycle.dirtyCount
      distinct := ok.cycle.distinct }
  volumes := ok.volumes.congr (fun _ => rfl) rfl rfl
  keys := ok.keys
  owned := ok.owned
  settled low := absurd low (by decide)

section Write

variable {s t : State C N} (blocks : BlockIdx N → Block)

theorem allocVolumeEntryIdx_withBlocks (vid : Nat) : allocVolumeEntryIdx vid (s.withBlocks blocks) =
    (allocVolumeEntryIdx vid s).map fun (v, t) => (v, t.withBlocks blocks) := by
  unfold allocVolumeEntryIdx
  cases head : s.volumeFreeLfqueue.dequeue with
  | none => simp [State.withBlocks, head]
  | some x =>
    cases queued : s.volumeInuseLfqueue.enqueue x.1 with
    | none => simp [State.withBlocks, State.setVolume, head, queued]
    | some q => simp [State.withBlocks, State.setVolume, head, queued]

theorem getVolumeEntryIdx_withBlocks (vid : Nat) : getVolumeEntryIdx vid (s.withBlocks blocks) =
    (getVolumeEntryIdx vid s).map fun (v, t) => (v, t.withBlocks blocks) := by
  unfold getVolumeEntryIdx
  rw [State.withBlocks_volumeTable]
  cases (List.finRange maxVolumeEntry).find? fun v => (s.volumeTable v).vid = vid with
  | none => exact allocVolumeEntryIdx_withBlocks blocks vid
  | some v => rfl

theorem getFreeInode_withBlocks (v : VolumeIdx) (lbn : Nat) :
    getFreeInodeFromFreeLFQueue v lbn (s.withBlocks blocks) =
      (getFreeInodeFromFreeLFQueue v lbn s).map fun (i, t) => (i, t.withBlocks blocks) := by
  unfold getFreeInodeFromFreeLFQueue
  dsimp only
  cases head : (s.inodeFreeLfqueue (roundRobin defaultNumFree s.freeDequeueIdx)).dequeue with
  | none => simp [State.withBlocks, head]
  | some x => simp [State.withBlocks, State.setInode, head]

theorem placeHashNode_withBlocks (v : VolumeIdx) (found : Option NodePtr) (i : InodeIdx N) :
    placeHashNode v found i (s.withBlocks blocks) =
      (placeHashNode v found i s).map fun (p, t) => (p, t.withBlocks blocks) := by
  cases found with
  | some p => rfl
  | none =>
    unfold placeHashNode insertHashNode newHashNode
    cases opened : (s.volumeTable v).hashTable with
    | none => simp [State.withBlocks, opened]
    | some table => simp [State.withBlocks, State.setNode, State.setVolume, opened]

theorem lockHashNode_withBlocks (p : NodePtr) : lockHashNode p (s.withBlocks blocks) =
    (lockHashNode p s).map fun t => t.withBlocks blocks := by
  unfold lockHashNode
  cases locked : (s.hashNodes p).mutex <;> simp [State.withBlocks, State.setNode, locked]

theorem getHashNodeWithLock_withBlocks (v : VolumeIdx) (lbn : Nat) :
    getHashNodeWithLock v lbn (s.withBlocks blocks) =
      (getHashNodeWithLock v lbn s).map fun (p, t) => (p, t.withBlocks blocks) := by
  unfold getHashNodeWithLock
  rw [State.withBlocks_volumeTable]
  cases opened : (s.volumeTable v).hashTable with
  | none => rfl
  | some table =>
    have valid : isValidNode (searchHashNode table lbn) (s.withBlocks blocks) =
        isValidNode (searchHashNode table lbn) s := by
      cases searchHashNode table lbn <;> rfl
    have enough : isFreeLFQueueEnough (s.withBlocks blocks) = isFreeLFQueueEnough s := rfl
    simp only [Option.bind_eq_bind, Option.bind_some]
    rw [valid, enough]
    split
    · split
      · rfl
      · rw [getFreeInode_withBlocks]
        cases getFreeInodeFromFreeLFQueue v lbn s with
        | none => rfl
        | some x =>
          simp only [Option.map_some, Option.bind_some]
          rw [placeHashNode_withBlocks]
          cases placeHashNode v (searchHashNode table lbn) x.1 x.2 with
          | none => rfl
          | some y =>
            simp only [Option.map_some, Option.bind_some]
            rw [lockHashNode_withBlocks]
            cases lockHashNode y.1 y.2 <;> rfl
    · cases searchHashNode table lbn with
      | none => rfl
      | some p =>
        simp only [Option.bind_some]
        rw [lockHashNode_withBlocks]
        cases lockHashNode p s <;> rfl

theorem lockInode_withBlocks (i : InodeIdx N) : lockInode i (s.withBlocks blocks) =
    (lockInode i s).map fun t => t.withBlocks blocks := by
  unfold lockInode
  cases locked : (s.inodeTable i).lock <;> simp [State.withBlocks, State.setInode, locked]

theorem enqueueDirty_withBlocks (old : InodeState) (v : VolumeIdx) (i : InodeIdx N) :
    enqueueDirty old v i (s.withBlocks blocks) =
      (enqueueDirty old v i s).map fun t => t.withBlocks blocks := by
  unfold enqueueDirty
  split
  · cases queued : (s.inodeDirtyLfqueue v).enqueue i <;> simp [State.withBlocks, queued]
  · rfl

/-- Only the copy looks into a block. -/
theorem writeData_withBlocks {idx : InodeIdx N} {offset count n : Nat} {buf : Nat → UInt8}
    (written : writeDataToNvmBlock idx offset buf count s = some (n, t)) :
    ∃ blocks', writeDataToNvmBlock idx offset buf count (s.withBlocks blocks) =
      some (n, t.withBlocks blocks') := by
  obtain ⟨w, owner, copied⟩ := Option.bind_eq_some_iff.mp written
  cases copied
  refine ⟨Function.update blocks (s.volumeTable w).blockIndex
    (memcpy (blocks (s.volumeTable w).blockIndex) buf count), ?_⟩
  unfold writeDataToNvmBlock
  simp [State.withBlocks, State.setInode, State.setVolume, owner]

theorem storeInBlock_withBlocks {p : NodePtr} {i idx : InodeIdx N} {v : VolumeIdx}
    {offset count n : Nat} {buf : Nat → UInt8}
    (stored : storeInBlock p i idx v offset buf count s = some (n, t)) :
    ∃ blocks', storeInBlock p i idx v offset buf count (s.withBlocks blocks) =
      some (n, t.withBlocks blocks') := by
  obtain ⟨x, lock, afterLock⟩ := Option.bind_eq_some_iff.mp stored
  obtain ⟨⟨m, y⟩, written, afterWrite⟩ := Option.bind_eq_some_iff.mp afterLock
  obtain ⟨z, queued, done⟩ := Option.bind_eq_some_iff.mp afterWrite
  cases done
  obtain ⟨blocks', written'⟩ := writeData_withBlocks blocks written
  refine ⟨blocks', ?_⟩
  unfold storeInBlock
  rw [lockInode_withBlocks, lock]
  simp only [Option.map_some, Option.bind_eq_bind, Option.bind_some]
  have marked : ((x.withBlocks blocks).setInode i { (x.withBlocks blocks).inodeTable i with
      state := .dirty }) =
      (x.setInode i { x.inodeTable i with state := .dirty }).withBlocks blocks :=
    rfl
  rw [marked, written']
  simp only [Option.bind_some]
  rw [State.withBlocks_inodeTable, enqueueDirty_withBlocks, queued]
  rfl

theorem writeBlock_withBlocks {v : VolumeIdx} {lbn offset count n : Nat} {buf : Nat → UInt8}
    (written : writeBlock v lbn offset buf count s = some (n, t)) :
    ∃ blocks', writeBlock v lbn offset buf count (s.withBlocks blocks) =
      some (n, t.withBlocks blocks') := by
  obtain ⟨⟨p, u⟩, located, rest⟩ := Option.bind_eq_some_iff.mp written
  obtain ⟨_, index, _⟩ := Option.bind_eq_some_iff.mp rest
  obtain ⟨i, inode, _⟩ := Option.map_eq_some_iff.mp index
  have located' : getHashNodeWithLock v lbn (s.withBlocks blocks) =
      some (p, u.withBlocks blocks) := by
    rw [getHashNodeWithLock_withBlocks, located]
    rfl
  rw [writeBlock_eq located inode] at written
  rw [writeBlock_eq located' inode]
  exact storeInBlock_withBlocks blocks written

theorem writeLoop_withBlocks {v : VolumeIdx} {buf : Nat → UInt8}
    {lbnEnd fuel lbn localOffset localCount count bytesWritten n : Nat}
    (looped : writeLoop v buf lbnEnd fuel lbn localOffset localCount count bytesWritten s =
      some (n, t)) :
    ∃ blocks', writeLoop v buf lbnEnd fuel lbn localOffset localCount count bytesWritten
      (s.withBlocks blocks) = some (n, t.withBlocks blocks') := by
  induction fuel generalizing s blocks lbn localOffset localCount count bytesWritten with
  | zero => cases looped
  | succ fuel ih =>
    unfold writeLoop at looped ⊢
    obtain ⟨⟨m, u⟩, written, rest⟩ := Option.bind_eq_some_iff.mp looped
    obtain ⟨blocks', written'⟩ := writeBlock_withBlocks blocks written
    rw [written']
    simp only [Option.bind_eq_bind, Option.bind_some] at rest ⊢
    split at rest
    · rename_i more
      rw [if_pos more]
      exact ih blocks' rest
    · rename_i last
      rw [if_neg last]
      cases rest
      exact ⟨blocks', rfl⟩

/-- A call on the same tables with other blocks does the same to the tables. -/
theorem nvmDurableWrite_withBlocks {fuel vid offset count n : Nat} {buf : Nat → UInt8}
    (returned : nvmDurableWrite fuel vid offset buf count s = some (n, t)) :
    ∃ blocks', nvmDurableWrite fuel vid offset buf count (s.withBlocks blocks) =
      some (n, t.withBlocks blocks') := by
  obtain ⟨⟨v, u⟩, found, looped⟩ := Option.bind_eq_some_iff.mp returned
  obtain ⟨blocks', looped'⟩ := writeLoop_withBlocks blocks looped
  refine ⟨blocks', ?_⟩
  unfold nvmDurableWrite
  rw [getVolumeEntryIdx_withBlocks, found]
  exact looped'

end Write

section Flush

variable {s t : State C N} {blocks : BlockIdx N → Block}

/-- The other blocks show the same bytes for an inode. -/
def SameBytes (s : State C N) (blocks : BlockIdx N → Block) (i : InodeIdx N) : Prop :=
  blocks (s.inodeTable i).blockIndex = s.blockOf i

/-- The other blocks show the same bytes for all inodes in use by volume `v`. -/
def AgreesOn (s : State C N) (v : VolumeIdx) (blocks : BlockIdx N → Block) : Prop :=
  ∀ i, (s.inodeTable i).state ≠ .free → (s.inodeTable i).volume = some v → SameBytes s blocks i

theorem SameBytes.of_owners {i : InodeIdx N} (same : SameBytes s blocks i)
    (owners : owners t = owners s) (bytes : t.blockTable = s.blockTable) :
    SameBytes t blocks i := by
  have block : (t.inodeTable i).blockIndex = (s.inodeTable i).blockIndex :=
    congrFun owners (Sum.inl i)
  unfold SameBytes State.blockOf at same ⊢
  rw [block, bytes]
  exact same

variable (blocks) in
theorem collectDirty_withBlocks {v : VolumeIdx} {fuel : Nat} {iIdxs r : List (InodeIdx N)}
    {numDirtyInodes writeSize size : Int}
    (collected : collectDirty v fuel iIdxs numDirtyInodes writeSize s = some (r, size, t)) :
    collectDirty v fuel iIdxs numDirtyInodes writeSize (s.withBlocks blocks) =
      some (r, size, t.withBlocks blocks) := by
  induction fuel generalizing s iIdxs numDirtyInodes writeSize with
  | zero => cases collected
  | succ fuel ih =>
    unfold collectDirty at collected ⊢
    split at collected
    · rename_i more
      rw [if_pos more]
      obtain ⟨⟨i, q⟩, head, looped⟩ := Option.bind_eq_some_iff.mp collected
      have head' : ((s.withBlocks blocks).inodeDirtyLfqueue v).dequeue = some (i, q) := head
      have lock := lockInode_withBlocks (s := { s with
        inodeDirtyLfqueue := Function.update s.inodeDirtyLfqueue v q }) blocks i
      have lock' : lockInode i { s.withBlocks blocks with
          inodeDirtyLfqueue := Function.update (s.withBlocks blocks).inodeDirtyLfqueue v q } = _ :=
        lock
      rw [head']
      simp only [Option.bind_eq_bind, Option.bind_some] at looped ⊢
      rw [lock']
      split at looped
      · rename_i x locked
        rw [locked]
        exact ih looped
      · rename_i held
        rw [held]
        obtain ⟨q', queued, again⟩ := Option.bind_eq_some_iff.mp looped
        have queued' : (Function.update (s.withBlocks blocks).inodeDirtyLfqueue v q v).enqueue i =
            some q' := queued
        simp only [Option.map_none]
        rw [queued']
        exact ih again
    · rename_i done
      rw [if_neg done]
      cases collected
      rfl

variable (blocks) in
theorem pwritevBatch_withBlocks {start : InodeIdx N} {batch : List (InodeIdx N)}
    (same : ∀ i ∈ batch, SameBytes s blocks i) (written : pwritevBatch start batch s = some t) :
    pwritevBatch start batch (s.withBlocks blocks) = some (t.withBlocks blocks) := by
  obtain ⟨v, file, owner, opened, rfl⟩ := pwritevBatch_eq_some written
  have bytes : batch.map (s.withBlocks blocks).blockOf = batch.map s.blockOf :=
    List.map_congr_left same
  unfold pwritevBatch
  rw [State.withBlocks_inodeTable, State.withBlocks_volumeTable, owner, bytes]
  simp only [Option.bind_eq_bind, Option.bind_some]
  rw [opened]
  rfl

theorem handOff_withBlocks {i : InodeIdx N} (handed : handOff i s = some t) :
    handOff i (s.withBlocks blocks) = some (t.withBlocks blocks) := by
  obtain ⟨q, queued, done⟩ := Option.bind_eq_some_iff.mp handed
  cases done
  have queued' : ((s.withBlocks blocks).inodeSyncLfqueue
      (roundRobin defaultNumSyncer (s.withBlocks blocks).syncQueueIdx)).enqueue i = some q := queued
  unfold handOff
  dsimp only
  rw [State.setInode_inodeSyncLfqueue, State.setInode_syncQueueIdx, queued']
  rfl

theorem handOffs_withBlocks {batch : List (InodeIdx N)}
    (handed : batch.foldlM (fun s idx => handOff idx s) s = some t) :
    batch.foldlM (fun s idx => handOff idx s) (s.withBlocks blocks) =
      some (t.withBlocks blocks) := by
  induction batch generalizing s with
  | nil =>
    cases handed
    rfl
  | cons i batch ih =>
    obtain ⟨u, first, others⟩ := Option.bind_eq_some_iff.mp handed
    rw [List.foldlM_cons, handOff_withBlocks first]
    exact ih others

/-- The batches written are the same if the inodes show the same bytes. -/
theorem writeBatches_withBlocks {fuel : Nat} {iIdxs : List (InodeIdx N)}
    (same : ∀ i ∈ iIdxs, SameBytes s blocks i) (written : writeBatches fuel iIdxs s = some t) :
    writeBatches fuel iIdxs (s.withBlocks blocks) = some (t.withBlocks blocks) := by
  induction fuel generalizing s iIdxs with
  | zero =>
    cases iIdxs with
    | nil =>
      cases written
      rfl
    | cons start rest => cases written
  | succ fuel ih =>
    cases iIdxs with
    | nil =>
      cases written
      rfl
    | cons start rest =>
      unfold writeBatches at written ⊢
      obtain ⟨u, write, afterWrite⟩ := Option.bind_eq_some_iff.mp written
      obtain ⟨x, hand, looped⟩ := Option.bind_eq_some_iff.mp afterWrite
      have write' := pwritevBatch_withBlocks blocks
        (fun i member => same i (List.mem_of_mem_take member)) write
      have kept := ((pwritevBatch_unmoved write).trans (handOffs_unmoved hand)).kept
      rw [State.withBlocks_inodeTable]
      dsimp only
      rw [write']
      simp only [Option.bind_eq_bind, Option.bind_some]
      rw [handOffs_withBlocks hand]
      refine ih (fun i member => ?_) looped
      exact (same i (List.mem_of_mem_drop member)).of_owners kept.owners kept.blocks

/-- A flush writes the same bytes if the inodes of its volume show the same bytes. -/
theorem nvmFlush_withBlocks {v : VolumeIdx} (cycle : LifeCycle s []) (agrees : AgreesOn s v blocks)
    (flushed : nvmFlush v s = some t) :
    nvmFlush v (s.withBlocks blocks) = some (t.withBlocks blocks) := by
  rw [nvmFlush_eq] at flushed
  obtain ⟨⟨iIdxs, writeSize, u⟩, collected, written⟩ := Option.bind_eq_some_iff.mp flushed
  obtain ⟨holding, owner, short, quiet, states⟩ :=
    cycle.collectDirty (by simp) (Nat.zero_le _) collected
  have same : ∀ i ∈ iIdxs, SameBytes u blocks i := by
    intro i member
    have isDirty := (holding.inode i).heldDirty member
    rw [states] at isDirty
    have home := owner i member
    rw [quiet.kept.volume] at home
    exact (agrees i (by rw [isDirty]; decide) home).of_owners quiet.kept.owners quiet.kept.blocks
  have collected' := collectDirty_withBlocks blocks collected
  have size : ((s.withBlocks blocks).inodeDirtyLfqueue v).getSize =
      (s.inodeDirtyLfqueue v).getSize := rfl
  rw [nvmFlush_eq, size, collected', Option.bind_some]
  exact writeBatches_withBlocks (fun i member => same i (List.mem_of_mem_take member)) written

/-- The bytes `v` shows are the same exactly if its inodes show the same bytes. -/
theorem visibleImage_withBlocks {v : VolumeIdx} (cycle : LifeCycle s []) :
    (∀ lbn, visibleImage (s.withBlocks blocks) v lbn = visibleImage s v lbn) ↔
      AgreesOn s v blocks := by
  constructor
  · intro shown i inUse owner
    have bound := cycle.validInode_self inUse owner
    have bound' : validInode (s.withBlocks blocks) v (s.inodeTable i).lbn = some i := bound
    have image := shown (s.inodeTable i).lbn
    unfold visibleImage at image
    rw [bound, bound'] at image
    exact Option.some.inj image
  · intro agrees lbn
    cases bound : validInode s v lbn with
    | none =>
      have bound' : validInode (s.withBlocks blocks) v lbn = none := bound
      unfold visibleImage
      rw [bound, bound']
      rfl
    | some i =>
      have bound' : validInode (s.withBlocks blocks) v lbn = some i := bound
      obtain ⟨inUse, owner, _⟩ := ((cycle.inode i).bound v lbn).mp bound
      unfold visibleImage
      rw [bound, bound']
      exact congrArg some (agrees i inUse owner)

end Flush

end BurstBuffer.Source
