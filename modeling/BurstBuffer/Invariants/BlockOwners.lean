import BurstBuffer.Invariants.CrashPoints
import BurstBuffer.Invariants.Run

/-!
# Block owners in every run

No operation moves a block from its owner except the swap of a block step, and
that exchanges the blocks of an inode and a volume whatever inode it is. So the
block indices stay a permutation in every run, also where a block step has
computed the index of another inode than the one it holds.
-/
namespace BurstBuffer.Source

open Library

variable {C : CuckoohashMap} {N : Nat}

/-- What nvm_flush and nvm_sync leave as it is, in any state. -/
structure Unmoved (s t : State C N) : Prop where
  kept : Kept s t
  volumes : t.volumeTable = s.volumeTable
  heap : t.hashNodes = s.hashNodes
  next : t.nextNode = s.nextNode

theorem Unmoved.refl (s : State C N) : Unmoved s s := ⟨.refl s, rfl, rfl, rfl⟩

theorem Unmoved.trans {s t u : State C N} (first : Unmoved s t) (second : Unmoved t u) :
    Unmoved s u where
  kept := first.kept.trans second.kept
  volumes := second.volumes.trans first.volumes
  heap := second.heap.trans first.heap
  next := second.next.trans first.next

section Frames

variable {s t u : State C N}

theorem owners_setInode (i : InodeIdx N) {entry : InodeEntry N}
    (same : entry.blockIndex = (s.inodeTable i).blockIndex) :
    owners (s.setInode i entry) = owners s := by
  funext o
  cases o with
  | inl j =>
    by_cases here : j = i
    · subst j
      simpa [owners] using same
    · simp [owners, here]
  | inr v => rfl

theorem owners_setVolume (v : VolumeIdx) {entry : VolumeEntry C N}
    (same : entry.blockIndex = (s.volumeTable v).blockIndex) :
    owners (s.setVolume v entry) = owners s := by
  funext o
  cases o with
  | inl j => rfl
  | inr w =>
    by_cases here : w = v
    · subst w
      simpa [owners] using same
    · simp [owners, here]

/-- What get_hash_node_with_lock does to NVM: it may give a free inode the key. -/
structure Located (s u : State C N) (v : VolumeIdx) (lbn : Nat) (i : InodeIdx N) : Prop where
  chosen : blockInode s v lbn = some i
  entries : u.inodeTable = if (validInode s v lbn).isNone then
    Function.update s.inodeTable i { s.inodeTable i with lbn := lbn, volume := some v }
    else s.inodeTable
  volumes : ∀ w, (u.volumeTable w).vid = (s.volumeTable w).vid ∧
    (u.volumeTable w).blockIndex = (s.volumeTable w).blockIndex
  blocks : u.blockTable = s.blockTable
  files : u.files = s.files

/-- A node is put under the key: only the heap and the tables of the nodes change. -/
theorem placeHashNode_nvm {v : VolumeIdx} {found : Option NodePtr} {i : InodeIdx N} {p : NodePtr}
    (placed : placeHashNode v found i s = some (p, t)) : (t.hashNodes p).inode = some i ∧
      t.inodeTable = s.inodeTable ∧ (∀ w, (t.volumeTable w).vid = (s.volumeTable w).vid ∧
        (t.volumeTable w).blockIndex = (s.volumeTable w).blockIndex) ∧
      t.blockTable = s.blockTable ∧ t.files = s.files := by
  cases found with
  | none =>
    obtain ⟨x, inserted, same⟩ := Option.map_eq_some_iff.mp placed
    cases same
    obtain ⟨table, _, rest⟩ := Option.bind_eq_some_iff.mp inserted
    obtain ⟨j, _, done⟩ := Option.bind_eq_some_iff.mp rest
    cases done
    refine ⟨by simp, rfl, fun w => ?_, rfl, rfl⟩
    by_cases here : w = v
    · subst w
      simp
    · simp [here]
  | some q =>
    cases placed
    exact ⟨by simp [validateHashNode], rfl, fun _ => ⟨rfl, rfl⟩, rfl, rfl⟩

theorem validInode_of_invalid {v : VolumeIdx} {lbn : Nat} {table : HashTable C}
    (opened : (s.volumeTable v).hashTable = some table)
    (invalid : isValidNode (searchHashNode table lbn) s = false) : validInode s v lbn = none := by
  unfold validInode nodeAt
  rw [opened, Option.bind_some]
  cases found : searchHashNode table lbn with
  | none => rfl
  | some q =>
    rw [found] at invalid
    simp only [Option.bind_some]
    rw [if_neg (by simpa [isValidNode] using invalid)]

theorem getHashNodeWithLock_nvm {v : VolumeIdx} {lbn : Nat} {p : NodePtr} {i : InodeIdx N}
    (located : getHashNodeWithLock v lbn s = some (p, u)) (inode : (u.hashNodes p).inode = some i) :
    Located s u v lbn i := by
  obtain ⟨table, opened, rest⟩ := Option.bind_eq_some_iff.mp located
  dsimp only at rest
  split at rest
  · rename_i invalid
    have unbound := validInode_of_invalid opened (by simpa using invalid)
    split at rest
    · cases rest
    obtain ⟨⟨j, x⟩, taken, rest⟩ := Option.bind_eq_some_iff.mp rest
    obtain ⟨⟨q, y⟩, placed, rest⟩ := Option.bind_eq_some_iff.mp rest
    obtain ⟨z, locked, rest⟩ := Option.bind_eq_some_iff.mp rest
    cases rest
    obtain ⟨⟨queue, head, _⟩, entries, _, _, frame⟩ := getFreeInode_spec taken
    obtain ⟨node, inodes, volumes, blocks, files⟩ := placeHashNode_nvm placed
    obtain ⟨_, rfl⟩ := lockHashNode_eq_some.mp locked
    have mine : j = i := by
      simpa [node] using inode
    subst j
    have xVolumes : x.volumeTable = s.volumeTable := by rw [frame]
    refine ⟨?_, ?_, fun w => ?_, ?_, ?_⟩
    · rw [blockInode, unbound, head]
      rfl
    · rw [unbound, State.setNode_inodeTable, inodes, entries]
      rfl
    · rw [State.setNode_volumeTable, ← xVolumes]
      exact volumes w
    · rw [State.setNode_blockTable, blocks, frame]
    · rw [State.setNode_files, files, frame]
  · rename_i valid
    obtain ⟨q, found, rest⟩ := Option.bind_eq_some_iff.mp rest
    obtain ⟨x, locked, rest⟩ := Option.bind_eq_some_iff.mp rest
    cases rest
    obtain ⟨_, rfl⟩ := lockHashNode_eq_some.mp locked
    have isValid : (s.hashNodes p).isValid = true := by
      simpa [found, isValidNode] using valid
    have bound : validInode s v lbn = some i := by
      unfold validInode nodeAt
      rw [opened, Option.bind_some, found, Option.bind_some, if_pos isValid]
      simpa using inode
    refine ⟨?_, ?_, fun w => ⟨rfl, rfl⟩, rfl, rfl⟩
    · rw [blockInode, bound]
    · rw [bound]
      rfl

/-- The key of a free inode is not its block. -/
theorem Located.blockIndex {v : VolumeIdx} {lbn : Nat} {i : InodeIdx N}
    (located : Located s u v lbn i)
    (j : InodeIdx N) : (u.inodeTable j).blockIndex = (s.inodeTable j).blockIndex := by
  rw [located.entries]
  split
  · by_cases here : j = i
    · subst j
      rw [Function.update_self]
    · rw [Function.update_of_ne here]
  · rfl

theorem Located.owners {v : VolumeIdx} {lbn : Nat} {i : InodeIdx N}
    (located : Located s u v lbn i) :
    owners u = owners s := by
  funext o
  cases o with
  | inl j => exact located.blockIndex j
  | inr w => exact (located.volumes w).2

/-- The inode a block step swaps with: the one with the computed index has a volume. -/
theorem storeInBlock_owner {p : NodePtr} {i idx : InodeIdx N} {v : VolumeIdx}
    {offset count n : Nat} {buf : Nat → UInt8}
    (stored : storeInBlock p i idx v offset buf count s = some (n, t)) :
    ∃ w, (s.inodeTable idx).volume = some w := by
  obtain ⟨locked, lock, afterLock⟩ := Option.bind_eq_some_iff.mp stored
  obtain ⟨_, rfl⟩ := lockInode_eq_some.mp lock
  obtain ⟨_, written, _⟩ := Option.bind_eq_some_iff.mp afterLock
  obtain ⟨w, volume, _⟩ := Option.bind_eq_some_iff.mp written
  refine ⟨w, ?_⟩
  by_cases same : idx = i
  · subst idx
    simpa using volume
  · simpa [same] using volume

theorem Stored.owners {p : NodePtr} {i idx : InodeIdx N} {v w : VolumeIdx} {buf : Nat → UInt8}
    {count : Nat} (stored : Stored s t p i idx v w buf count) :
    owners t = owners s ∘ Equiv.swap (Sum.inl idx) (Sum.inr w) := by
  have marked : ∀ j, (markDirty s i j).blockIndex = (s.inodeTable j).blockIndex := by
    intro j
    unfold markDirty
    by_cases here : j = i
    · subst j
      rw [Function.update_self]
    · rw [Function.update_of_ne here]
  have inodes : (fun j => (t.inodeTable j).blockIndex) =
      Function.update (fun j => (s.inodeTable j).blockIndex) idx (s.volumeTable w).blockIndex := by
    funext j
    rw [stored.entries]
    by_cases here : j = idx
    · subst j
      simp only [Function.update_self]
    · simp only [Function.update_of_ne here, marked]
  have volumes : (fun x => (t.volumeTable x).blockIndex) =
      Function.update (fun x => (s.volumeTable x).blockIndex) w (s.inodeTable idx).blockIndex := by
    funext x
    rw [stored.volumes]
    by_cases here : x = w
    · subst x
      simp only [Function.update_self]
    · simp only [Function.update_of_ne here]
  rw [Source.owners, inodes, volumes]
  exact elim_exchange (fun j => (s.inodeTable j).blockIndex)
    (fun x => (s.volumeTable x).blockIndex) idx w

/-- Any block step: the node it locks, and the exchange it makes. -/
theorem writeBlock_nvm {v : VolumeIdx} {lbn offset count n : Nat} {buf : Nat → UInt8}
    (written : writeBlock v lbn offset buf count s = some (n, t)) :
    ∃ u p i w, Located s u v lbn i ∧ (u.inodeTable (inodeIdxOfPointer i)).volume = some w ∧
      Stored u t p i (inodeIdxOfPointer i) v w buf count := by
  obtain ⟨⟨p, u⟩, located, rest⟩ := Option.bind_eq_some_iff.mp written
  obtain ⟨_, index, _⟩ := Option.bind_eq_some_iff.mp rest
  obtain ⟨i, inode, _⟩ := Option.map_eq_some_iff.mp index
  rw [writeBlock_eq located inode] at written
  obtain ⟨w, owner⟩ := storeInBlock_owner written
  obtain ⟨_, stored⟩ := storeInBlock_spec owner written
  exact ⟨u, p, i, w, getHashNodeWithLock_nvm located inode, owner, stored⟩

theorem writeBlock_owners {v : VolumeIdx} {lbn offset count n : Nat} {buf : Nat → UInt8}
    (written : writeBlock v lbn offset buf count s = some (n, t)) :
    ∃ i w, owners t = owners s ∘ Equiv.swap (Sum.inl i) (Sum.inr w) := by
  obtain ⟨u, p, i, w, located, _, stored⟩ := writeBlock_nvm written
  exact ⟨inodeIdxOfPointer i, w, by rw [stored.owners, located.owners]⟩

theorem lockInode_unmoved {i : InodeIdx N} (locked : lockInode i s = some t) : Unmoved s t := by
  obtain ⟨_, rfl⟩ := lockInode_eq_some.mp locked
  exact ⟨.of_entry rfl rfl ⟨rfl, rfl⟩ rfl rfl rfl rfl, rfl, rfl, rfl⟩

theorem dirtyQueue_unmoved (queues : VolumeIdx → LfQueue (InodeIdx N) N) :
    Unmoved s { s with inodeDirtyLfqueue := queues } :=
  ⟨⟨rfl, fun _ => rfl, fun _ => rfl, fun _ => rfl, fun _ => rfl, fun _ => rfl, rfl, rfl⟩, rfl, rfl,
    rfl⟩

theorem collectDirty_unmoved {v : VolumeIdx} {fuel : Nat} {iIdxs r : List (InodeIdx N)}
    {numDirtyInodes writeSize writeSize' : Int}
    (collected : collectDirty v fuel iIdxs numDirtyInodes writeSize s = some (r, writeSize', t)) :
    Unmoved s t := by
  induction fuel generalizing s iIdxs numDirtyInodes writeSize with
  | zero => cases collected
  | succ fuel ih =>
    unfold collectDirty at collected
    split at collected
    · obtain ⟨⟨i, q⟩, _, looped⟩ := Option.bind_eq_some_iff.mp collected
      have popped := dirtyQueue_unmoved (s := s) (Function.update s.inodeDirtyLfqueue v q)
      dsimp only at looped
      split at looped
      · rename_i x lock
        exact popped.trans ((lockInode_unmoved lock).trans (ih looped))
      · obtain ⟨r, _, again⟩ := Option.bind_eq_some_iff.mp looped
        exact popped.trans ((dirtyQueue_unmoved _).trans (ih again))
    · cases collected
      exact Unmoved.refl _

theorem handOff_unmoved {i : InodeIdx N} (handed : handOff i s = some t) : Unmoved s t := by
  obtain ⟨_, _, _, entries, _, frame⟩ := handOff_eq_some handed
  exact ⟨.of_entry (by rw [frame]) (by rw [frame]) (by rw [frame]; exact ⟨rfl, rfl⟩) entries rfl
    rfl rfl, by rw [frame], by rw [frame], by rw [frame]⟩

theorem handOffs_unmoved {batch : List (InodeIdx N)}
    (handed : batch.foldlM (fun s idx => handOff idx s) s = some t) : Unmoved s t :=
  foldlM_invariant (I := fun _ u => Unmoved s u)
    (fun _ _ _ _ before first => before.trans (handOff_unmoved first)) (.refl s) handed

theorem pwritevBatch_unmoved {start : InodeIdx N} {batch : List (InodeIdx N)}
    (written : pwritevBatch start batch s = some t) : Unmoved s t := by
  obtain ⟨_, _, _, _, rfl⟩ := pwritevBatch_eq_some written
  exact ⟨⟨rfl, fun _ => rfl, fun _ => rfl, fun _ => rfl, fun _ => rfl, fun _ => rfl, rfl, rfl⟩,
    rfl, rfl, rfl⟩

theorem writeBatches_unmoved {fuel : Nat} {iIdxs : List (InodeIdx N)}
    (written : writeBatches fuel iIdxs s = some t) : Unmoved s t := by
  induction fuel generalizing s iIdxs with
  | zero =>
    cases iIdxs with
    | nil =>
      cases written
      exact Unmoved.refl _
    | cons _ _ => cases written
  | succ fuel ih =>
    cases iIdxs with
    | nil =>
      cases written
      exact Unmoved.refl _
    | cons start rest =>
      unfold writeBatches at written
      obtain ⟨x, batch, afterBatch⟩ := Option.bind_eq_some_iff.mp written
      obtain ⟨y, handed, others⟩ := Option.bind_eq_some_iff.mp afterBatch
      exact (pwritevBatch_unmoved batch).trans ((handOffs_unmoved handed).trans (ih others))

theorem nvmFlush_unmoved {v : VolumeIdx} (flushed : nvmFlush v s = some t) : Unmoved s t := by
  obtain ⟨_, _, _, _, u, collected, written⟩ := nvmFlush_eq_some flushed
  exact (collectDirty_unmoved collected).trans (writeBatches_unmoved written)

theorem syncLoop_unmoved {index : Fin defaultNumSyncer} {n : Nat}
    (synced : syncLoop index n s = some t) : Unmoved s t := by
  induction n generalizing s with
  | zero =>
    cases synced
    exact Unmoved.refl _
  | succ n ih =>
    obtain ⟨u, one, rest⟩ := Option.bind_eq_some_iff.mp synced
    obtain ⟨_, _, _, _, _, _, _, entries, frame⟩ := syncOne_eq_some one
    have first : Unmoved s u :=
      ⟨.of_entry (by rw [frame]) (by rw [frame]) (by rw [frame]; exact ⟨rfl, rfl⟩) entries rfl
        rfl rfl, by rw [frame], by rw [frame], by rw [frame]⟩
    exact first.trans (ih rest)

theorem tryLockHashNode_owners {p : NodePtr} {locked : Bool}
    (tried : tryLockHashNode p s = some (locked, t)) : owners t = owners s := by
  unfold tryLockHashNode at tried
  split at tried
  · cases tried
    rfl
  · rename_i u lock
    obtain ⟨_, rfl⟩ := lockHashNode_eq_some.mp lock
    obtain ⟨i, _, tested⟩ := Option.bind_eq_some_iff.mp tried
    split at tested
    · cases tested
      rfl
    · cases tested
      rfl

theorem logicalDeleteHashNode_owners {v : VolumeIdx} {p : NodePtr}
    (deleted : logicalDeleteHashNode v p s = some t) : owners t = owners s := by
  obtain ⟨table, _, done⟩ := Option.bind_eq_some_iff.mp deleted
  cases done
  exact owners_setVolume v rfl

theorem releaseInode_owners {i : InodeIdx N} (freed : releaseInode i s = some t) :
    owners t = owners s := by
  obtain ⟨q, _, done⟩ := Option.bind_eq_some_iff.mp freed
  cases done
  exact owners_setInode i rfl

theorem fillFreeInodesPass_owners {index : Fin defaultNumBalloon}
    (passed : fillFreeInodesPass index s = some t) : owners t = owners s := by
  obtain ⟨⟨i, q⟩, _, afterHead⟩ := Option.bind_eq_some_iff.mp passed
  dsimp only at afterHead
  split at afterHead
  · cases afterHead
    rfl
  · obtain ⟨v, _, afterOwner⟩ := Option.bind_eq_some_iff.mp afterHead
    obtain ⟨table, _, afterTable⟩ := Option.bind_eq_some_iff.mp afterOwner
    obtain ⟨p, _, afterSearch⟩ := Option.bind_eq_some_iff.mp afterTable
    obtain ⟨⟨locked, u⟩, tried, afterLock⟩ := Option.bind_eq_some_iff.mp afterSearch
    have first := tryLockHashNode_owners tried
    dsimp only at afterLock
    split at afterLock
    · cases afterLock
      exact first
    · obtain ⟨x, deleted, afterDelete⟩ := Option.bind_eq_some_iff.mp afterLock
      obtain ⟨y, freed, done⟩ := Option.bind_eq_some_iff.mp afterDelete
      cases done
      exact (releaseInode_owners freed).trans
        ((logicalDeleteHashNode_owners deleted).trans first)

/-- An operation leaves each block with its owner, or exchanges two blocks. -/
theorem next_owners {cwd : String} {limit : Nat} {e : Event} (step : next cwd limit s e = some t) :
    ∃ move : Equiv.Perm (InodeIdx N ⊕ VolumeIdx), owners t = owners s ∘ move := by
  have still : owners t = owners s → ∃ move : Equiv.Perm (InodeIdx N ⊕ VolumeIdx),
      owners t = owners s ∘ move := fun same => ⟨Equiv.refl _, same⟩
  cases e with
  | openVolume vid =>
    obtain ⟨⟨v, u⟩, got, rfl⟩ := Option.map_eq_some_iff.mp step
    apply still
    rcases getVolumeEntryIdx_cases got with ⟨rfl, _⟩ | opened
    · rfl
    · exact opened.owners
  | writeBlock v lbn localOffset buf localCount =>
    simp only [Source.next] at step
    split at step
    · obtain ⟨⟨n, u⟩, wrote, rfl⟩ := Option.map_eq_some_iff.mp step
      obtain ⟨i, w, exchanged⟩ := writeBlock_owners wrote
      exact ⟨Equiv.swap (Sum.inl i) (Sum.inr w), exchanged⟩
    · cases step
  | flush v => exact still (nvmFlush_unmoved step).kept.owners
  | sync index => exact still (syncLoop_unmoved step).kept.owners
  | balloon index => exact still (fillFreeInodesPass_owners step)
  | restart =>
    obtain ⟨u, _, closed, fresh⟩ := restart_spec step
    exact still (fresh.owners.trans closed.owners)

theorem next_bijective {cwd : String} {limit : Nat} {e : Event}
    (owned : Function.Bijective (owners s)) (step : next cwd limit s e = some t) :
    Function.Bijective (owners t) := by
  obtain ⟨move, moved⟩ := next_owners step
  rw [moved]
  exact owned.comp move.bijective

end Frames

/-- Every block has one owner in every run, whatever index a block step computes. -/
theorem owners_of_reachable {cwd : String} {limit : Nat} {s : State C N}
    (reach : (system C N cwd limit).Reachable s) : Function.Bijective (owners s) := by
  refine reach.invariant (fun t initial => ?_)
    fun u e t _ owned (step : next cwd limit u e = some t) =>
    next_bijective owned step
  obtain ⟨memory, started⟩ := initial
  obtain ⟨t', started', fresh⟩ := nvmSystemInit_spec
    (recoveryStart_of_written cwd (s := nvmStructureBuild memory) fun _ => rfl)
  cases started.symm.trans started'
  rw [fresh.owners]
  exact built_owners memory

/-- A store into one of the two tables of block indices. -/
def Store.movesBlock : Store N → Bool
  | .volumeBlock _ _ | .inodeBlock _ _ => true
  | _ => false

section Stores

variable {s t u : State C N} {v : VolumeIdx} {lbn count : Nat} {buf : Nat → UInt8} {i : InodeIdx N}
  {taken : Bool} {stores : List (Store N)}

theorem owners_persist {store : Store N} (still : store.movesBlock = false) :
    owners (persist s store) = owners s := by
  cases store with
  | lbn j lbn => exact owners_setInode j rfl
  | volume j w => exact owners_setInode j rfl
  | dirty j => exact owners_setInode j rfl
  | block index ptr count => rfl
  | volumeBlock w index => cases still
  | inodeBlock j index => cases still

theorem owners_persists (still : ∀ store ∈ stores, store.movesBlock = false) :
    owners (stores.foldl persist s) = owners s := by
  induction stores generalizing s with
  | nil => rfl
  | cons store stores ih =>
    rw [List.foldl_cons, ih fun other later => still other (List.mem_cons_of_mem store later)]
    exact owners_persist (still store List.mem_cons_self)

/-- The stores of a block step: at the end the two that exchange the blocks of an
inode and a volume, before them none that moves a block. -/
theorem stepStores_eq (made : stepStores taken i v lbn buf count s = some stores) :
    ∃ w front, stores = front ++ [.volumeBlock w (s.inodeTable (inodeIdxOfPointer i)).blockIndex,
        .inodeBlock (inodeIdxOfPointer i) (s.volumeTable w).blockIndex] ∧
      (∀ store ∈ front, store.movesBlock = false) ∧
      ∀ index ptr n, .block index ptr n ∈ stores → index = (s.volumeTable w).blockIndex := by
  obtain ⟨w, _, rfl⟩ := Option.map_eq_some_iff.mp made
  refine ⟨w, (if taken then [.lbn i lbn, .volume i v] else []) ++
    [.dirty i, .block (s.volumeTable w).blockIndex buf count], by simp, ?_, ?_⟩
  · intro store member
    cases taken <;> simp at member <;> rcases member with rfl | rfl | rfl | rfl <;> rfl
  · intro index ptr n member
    cases taken <;> simp at member <;> exact member.1

theorem stepStores_length (made : stepStores taken i v lbn buf count s = some stores) :
    stores.length = if taken then 6 else 4 := by
  obtain ⟨w, _, rfl⟩ := Option.map_eq_some_iff.mp made
  cases taken <;> rfl

/-- The block indices after the first `k` stores: before the last two stores they
are as before the step, between the two the inode's block has two owners. -/
theorem owners_persisted (owned : Function.Bijective (owners s))
    (made : stepStores taken i v lbn buf count s = some stores)
    {k : Nat} (inside : k < stores.length) :
    Function.Bijective (owners (persisted stores k s)) ↔ k + 1 ≠ stores.length := by
  obtain ⟨w, front, rfl, still, _⟩ := stepStores_eq made
  rw [List.length_append, List.length_cons, List.length_singleton] at inside ⊢
  unfold persisted
  by_cases last : k ≤ front.length
  · rw [List.take_append_of_le_length last,
      owners_persists fun store member => still store (List.mem_of_mem_take member)]
    exact iff_of_true owned (by omega)
  · obtain rfl : k = front.length + 1 := by omega
    apply iff_of_false _ (by omega)
    rw [List.take_length_add_append, List.foldl_append]
    have before : owners (front.foldl persist s) = owners s := owners_persists still
    intro bijective
    have twice : owners (persist (front.foldl persist s)
          (.volumeBlock w (s.inodeTable (inodeIdxOfPointer i)).blockIndex)) (Sum.inr w) =
        owners (persist (front.foldl persist s)
          (.volumeBlock w (s.inodeTable (inodeIdxOfPointer i)).blockIndex))
          (Sum.inl (inodeIdxOfPointer i)) := by
      have inode := congrFun before (Sum.inl (inodeIdxOfPointer i))
      simp only [owners, Sum.elim_inl] at inode
      simp [owners, persist, inode]
    have clash := bijective.injective twice
    cases clash

theorem nvmSystemInit_owners {cwd : String} (started : nvmSystemInit cwd s = some u) :
    owners u = owners s := by
  obtain ⟨r, recovered, _⟩ := Option.bind_eq_some_iff.mp started
  obtain ⟨entries, frame⟩ := recoveryStart_spec recovered
  obtain ⟨u', started', fresh⟩ := nvmSystemInit_spec recovered
  cases started.symm.trans started'
  rw [fresh.owners]
  funext o
  cases o with
  | inl j =>
    simp only [owners, Sum.elim_inl]
    rw [entries, settledEntry_blockIndex]
  | inr w =>
    simp only [owners, Sum.elim_inr]
    rw [frame]

/-- The stores that give a free inode the key. -/
theorem persisted_key (s : State C N) (taken : Bool) (i : InodeIdx N) (v : VolumeIdx) (lbn : Nat) :
    let key : List (Store N) := if taken then [.lbn i lbn, .volume i v] else []
    persisted key key.length s = { s with
      inodeTable := if taken then
        Function.update s.inodeTable i { s.inodeTable i with lbn := lbn, volume := some v }
        else s.inodeTable } := by
  cases taken with
  | false => rfl
  | true => simp [persisted, persist, State.setInode]

/-- Every block step makes such stores, and together they leave what it leaves in NVM. -/
theorem stepStores_complete {offset n : Nat}
    (written : writeBlock v lbn offset buf count s = some (n, t)) :
    ∃ i stores, blockInode s v lbn = some i ∧
      stepStores (validInode s v lbn).isNone i v lbn buf count s = some stores ∧
      SameNvm (persisted stores stores.length s) t := by
  obtain ⟨u, p, i, w, located, owner, stored⟩ := writeBlock_nvm written
  have key := persisted_key s (validInode s v lbn).isNone i v lbn
  rw [← located.entries] at key
  obtain ⟨c, keyed⟩ : ∃ c : State C N, c = { s with inodeTable := u.inodeTable } := ⟨_, rfl⟩
  dsimp only at key
  rw [← keyed] at key
  have made : stepStores (validInode s v lbn).isNone i v lbn buf count s = some
      ((if (validInode s v lbn).isNone then [.lbn i lbn, .volume i v] else []) ++
        [.dirty i, .block (s.volumeTable w).blockIndex buf count,
          .volumeBlock w (s.inodeTable (inodeIdxOfPointer i)).blockIndex,
          .inodeBlock (inodeIdxOfPointer i) (s.volumeTable w).blockIndex]) := by
    unfold stepStores
    dsimp only
    rw [key, keyed]
    dsimp only
    rw [owner]
    rfl
  refine ⟨i, _, located.chosen, made, ?_⟩
  have all : ∀ front back : List (Store N), persisted (front ++ back) (front ++ back).length s =
      back.foldl persist (persisted front front.length s) := by
    intro front back
    rw [persisted, persisted, List.take_length, List.take_length, List.foldl_append]
  rw [all, key]
  have volumes := located.volumes
  refine ⟨fun j => ?_, fun x => ?_, ?_, ?_⟩
  · rw [stored.entries, (volumes w).2]
    by_cases here : j = inodeIdxOfPointer i <;> by_cases there : j = i
    · subst j
      simp [persist, keyed, markDirty, there]
    · subst j
      simp [persist, keyed, markDirty, there]
    · subst j
      simp [persist, keyed, markDirty, here]
    · simp [persist, keyed, markDirty, here, there]
  · rw [stored.volumes]
    by_cases here : x = w
    · subst x
      simp [persist, keyed, volumes, located.blockIndex]
    · simp [persist, keyed, volumes, here]
  · rw [stored.blocks, (volumes w).2, located.blocks]
    simp [persist, keyed]
  · rw [stored.frame]
    simp [persist, keyed, located.files]

/-- Where the computed index is the inode's own, these are the stores of `blockStores`. -/
theorem stepStores_narrow (cycle : LifeCycle s []) (step : BlockWritten s t v lbn buf count i)
    (narrow : i.val < 2 ^ 26) : stepStores (validInode s v lbn).isNone i v lbn buf count s =
      some (blockStores (validInode s v lbn).isNone i v lbn buf count s) := by
  unfold stepStores blockStores
  rw [inodeIdxOfPointer_of_lt narrow]
  dsimp only
  rw [persisted_key]
  cases step.source with
  | bound valid =>
    rw [valid]
    simp [(cycle.keyOk v lbn i valid).2]
  | taken unbound =>
    rw [unbound]
    simp

/-- What recovery_start writes has a volume. -/
def UnwrittenOwned (s : State C N) : Prop :=
  ∀ i, isUnwritten (s.inodeTable i).state = true → (s.inodeTable i).volume.isSome

theorem persist_volume (store : Store N) {j : InodeIdx N} (owned : (s.inodeTable j).volume.isSome) :
    ((persist s store).inodeTable j).volume.isSome := by
  have update : ∀ i (entry : InodeEntry N), (j = i → entry.volume.isSome) →
      ((s.setInode i entry).inodeTable j).volume.isSome := by
    intro i entry same
    by_cases here : j = i
    · subst j
      simpa using same rfl
    · simpa [here] using owned
  cases store with
  | lbn i lbn => exact update i _ fun same => same ▸ owned
  | volume i w => exact update i _ fun _ => rfl
  | dirty i => exact update i _ fun same => same ▸ owned
  | block index ptr count => exact owned
  | volumeBlock w index => exact owned
  | inodeBlock i index => exact update i _ fun same => same ▸ owned

theorem unwrittenOwned_persist {store : Store N} (owned : UnwrittenOwned s)
    (mine : ∀ i, store = .dirty i → (s.inodeTable i).volume.isSome) :
    UnwrittenOwned (persist s store) := by
  intro j unwritten
  apply persist_volume store
  have update : ∀ i (entry : InodeEntry N), (j = i → entry.state = (s.inodeTable i).state) →
      isUnwritten ((s.setInode i entry).inodeTable j).state = true →
      (s.inodeTable j).volume.isSome := by
    intro i entry same before
    apply owned
    by_cases here : j = i
    · subst j
      rw [State.setInode_inodeTable, Function.update_self, same rfl] at before
      exact before
    · simpa [here] using before
  cases store with
  | lbn i lbn => exact update i { s.inodeTable i with lbn := lbn } (fun _ => rfl) unwritten
  | volume i w => exact update i { s.inodeTable i with volume := some w } (fun _ => rfl) unwritten
  | dirty i =>
    by_cases here : j = i
    · subst j
      exact mine i rfl
    · apply owned
      simpa [persist, here] using unwritten
  | block index ptr count => exact owned j unwritten
  | volumeBlock w index => exact owned j unwritten
  | inodeBlock i index =>
    exact update i { s.inodeTable i with blockIndex := index } (fun _ => rfl) unwritten

theorem unwrittenOwned_persists (owned : UnwrittenOwned s)
    (mine : ∀ i, .dirty i ∈ stores → (s.inodeTable i).volume.isSome) :
    UnwrittenOwned (stores.foldl persist s) := by
  induction stores generalizing s with
  | nil => exact owned
  | cons store stores ih =>
    apply ih
    · exact unwrittenOwned_persist owned fun i same => mine i (same ▸ List.mem_cons_self)
    · exact fun i later => persist_volume store (mine i (List.mem_cons_of_mem store later))

/-- A block step on a free inode gives it a volume before it becomes DIRTY. -/
theorem unwrittenOwned_persisted (owned : UnwrittenOwned s)
    (made : stepStores true i v lbn buf count s = some stores) (k : Nat) :
    UnwrittenOwned (persisted stores k s) := by
  obtain ⟨w, _, rfl⟩ := Option.map_eq_some_iff.mp made
  match k with
  | 0 => exact owned
  | 1 =>
    have first : UnwrittenOwned (persist s (.lbn i lbn)) :=
      unwrittenOwned_persist owned fun j other => by cases other
    exact first
  | k + 2 =>
    have key : UnwrittenOwned ([.lbn i lbn, .volume i v].foldl persist s) :=
      unwrittenOwned_persists owned (by simp)
    refine unwrittenOwned_persists (s := [.lbn i lbn, .volume i v].foldl persist s) key
      fun j member => ?_
    have mine : j = i := by simpa using List.mem_of_mem_take member
    subst j
    simp [persist]

end Stores

end BurstBuffer.Source
