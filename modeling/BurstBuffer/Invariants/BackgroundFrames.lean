import BurstBuffer.Library.Machine
import BurstBuffer.Invariants.SyncStep

/-!
# What the background threads leave alone

Each of their operations works on the inode entries, the queues it moves inodes between,
the hash nodes or the files; everything else is as before.
-/
namespace BurstBuffer.Source

open Library

variable {C : CuckoohashMap} {N : Nat} {s t : State C N}

theorem collectDirty_frame {v : VolumeIdx} {fuel : Nat} {iIdxs r : List (InodeIdx N)}
    {numDirtyInodes writeSize w : Int}
    (collected : collectDirty v fuel iIdxs numDirtyInodes writeSize s = some (r, w, t)) :
    t = { s with inodeTable := t.inodeTable, inodeDirtyLfqueue := t.inodeDirtyLfqueue } := by
  induction fuel generalizing s iIdxs numDirtyInodes writeSize with
  | zero => cases collected
  | succ fuel ih =>
    unfold collectDirty at collected
    split at collected
    · obtain ⟨⟨i, q⟩, _, afterHead⟩ := Option.bind_eq_some_iff.mp collected
      dsimp only at afterHead
      split at afterHead
      · rename_i x lock
        obtain ⟨_, rfl⟩ := lockInode_eq_some.mp lock
        have rest := ih afterHead
        exact rest
      · obtain ⟨q', _, again⟩ := Option.bind_eq_some_iff.mp afterHead
        have rest := ih again
        exact rest
    · cases collected
      rfl

theorem handOffs_frame {batch : List (InodeIdx N)}
    (handed : batch.foldlM (fun s idx => handOff idx s) s = some t) :
    t = { s with
      inodeTable := t.inodeTable, inodeSyncLfqueue := t.inodeSyncLfqueue
      inodeDirtyCount := t.inodeDirtyCount, syncQueueIdx := t.syncQueueIdx } := by
  refine foldlM_invariant (I := fun _ y => y = { s with
    inodeTable := y.inodeTable, inodeSyncLfqueue := y.inodeSyncLfqueue
    inodeDirtyCount := y.inodeDirtyCount, syncQueueIdx := y.syncQueueIdx }) ?_ rfl handed
  intro i rest y z before one
  obtain ⟨_, _, _, _, _, frame⟩ := handOff_eq_some one
  rw [frame, before]

theorem writeBatches_frame {fuel : Nat} {iIdxs : List (InodeIdx N)}
    (written : writeBatches fuel iIdxs s = some t) :
    t = { s with
      inodeTable := t.inodeTable, inodeSyncLfqueue := t.inodeSyncLfqueue
      inodeDirtyCount := t.inodeDirtyCount, syncQueueIdx := t.syncQueueIdx
      files := t.files } := by
  induction fuel generalizing s iIdxs with
  | zero =>
    cases iIdxs with
    | nil =>
      cases written
      rfl
    | cons start rest => cases written
  | succ fuel ih =>
    cases iIdxs with
    | nil =>
      cases written
      rfl
    | cons start rest =>
      obtain ⟨u, write, afterWrite⟩ := Option.bind_eq_some_iff.mp written
      obtain ⟨x, hand, looped⟩ := Option.bind_eq_some_iff.mp afterWrite
      obtain ⟨_, _, _, _, filed⟩ := pwritevBatch_eq_some write
      rw [ih looped, handOffs_frame hand, filed]
      rfl

/-- A flush touches no free and no clean queue. -/
theorem nvmFlush_frame {v : VolumeIdx} (flushed : nvmFlush v s = some t) :
    t = { s with
      inodeTable := t.inodeTable, inodeDirtyLfqueue := t.inodeDirtyLfqueue
      inodeSyncLfqueue := t.inodeSyncLfqueue, inodeDirtyCount := t.inodeDirtyCount
      syncQueueIdx := t.syncQueueIdx, files := t.files } := by
  obtain ⟨_, _, _, _, u, collected, written⟩ := nvmFlush_eq_some flushed
  rw [writeBatches_frame written, collectDirty_frame collected]

theorem syncLoop_frame {index : Fin defaultNumSyncer} {n : Nat}
    (synced : syncLoop index n s = some t) :
    t = { s with
      inodeTable := t.inodeTable, inodeSyncLfqueue := t.inodeSyncLfqueue
      inodeCleanLfqueue := t.inodeCleanLfqueue, cleanQueueIdx := t.cleanQueueIdx } := by
  induction n generalizing s with
  | zero =>
    cases synced
    rfl
  | succ n ih =>
    obtain ⟨u, one, rest⟩ := Option.bind_eq_some_iff.mp synced
    obtain ⟨_, _, _, _, _, _, _, _, frame⟩ := syncOne_eq_some one
    rw [ih rest, frame]

theorem tryLockHashNode_frame {p : NodePtr} {locked : Bool}
    (tried : tryLockHashNode p s = some (locked, t)) : t = { s with hashNodes := t.hashNodes } := by
  unfold tryLockHashNode at tried
  split at tried
  · cases tried
    rfl
  · rename_i u lock
    obtain ⟨_, rfl⟩ := lockHashNode_eq_some.mp lock
    obtain ⟨i, _, tested⟩ := Option.bind_eq_some_iff.mp tried
    split at tested
    · cases tested
      rfl
    · cases tested
      rfl

theorem logicalDeleteHashNode_frame {v : VolumeIdx} {p : NodePtr}
    (deleted : logicalDeleteHashNode v p s = some t) :
    t = { s with volumeTable := t.volumeTable, hashNodes := t.hashNodes } := by
  obtain ⟨table, _, done⟩ := Option.bind_eq_some_iff.mp deleted
  cases done
  rfl

end BurstBuffer.Source
