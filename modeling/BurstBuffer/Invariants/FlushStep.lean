import BurstBuffer.Invariants.Image

/-!
# The effect of nvm_flush

Inodes move from the dirty queue into the hands of the flush, their blocks to
the file, and then on to the sync queues.
-/
namespace BurstBuffer.Source

open Library

variable {C : CuckoohashMap} {N : Nat}

theorem handOff_eq_some {s t : State C N} {i : InodeIdx N} (handed : handOff i s = some t) :
    ∃ q, (s.inodeSyncLfqueue (roundRobin defaultNumSyncer s.syncQueueIdx)).enqueue i = some q ∧
      t.inodeSyncLfqueue =
        Function.update s.inodeSyncLfqueue (roundRobin defaultNumSyncer s.syncQueueIdx) q ∧
      t.inodeTable = Function.update s.inodeTable i { s.inodeTable i with state := .sync } ∧
      t.inodeDirtyCount = s.inodeDirtyCount - 1 ∧
      t = { s with
        inodeTable := t.inodeTable, inodeSyncLfqueue := t.inodeSyncLfqueue
        inodeDirtyCount := t.inodeDirtyCount, syncQueueIdx := t.syncQueueIdx } := by
  obtain ⟨q, queued, done⟩ := Option.bind_eq_some_iff.mp handed
  cases done
  exact ⟨q, queued, rfl, rfl, rfl, rfl⟩

namespace LifeCycle

variable {s t : State C N} {held : List (InodeIdx N)}

/-- Taking the oldest dirty inode of a volume: nobody else has its lock. -/
theorem unlocked_of_queued (cycle : LifeCycle s held) {v : VolumeIdx} {i : InodeIdx N}
    (queued : i ∈ (s.inodeDirtyLfqueue v).values) : (s.inodeTable i).lock = false := by
  obtain ⟨isDirty, _, loose⟩ := cycle.dirty_of_queued queued
  rw [← Bool.not_eq_true, (cycle.inode i).locked, isDirty]
  simp [loose]

theorem dirty_nodup (cycle : LifeCycle s held) (v : VolumeIdx) :
    (s.inodeDirtyLfqueue v).values.Nodup := by
  rw [List.nodup_iff_count_le_one]
  intro i
  rw [(cycle.inode i).dirty]
  split <;> omega

theorem collect_head (cycle : LifeCycle s held) {v : VolumeIdx} {i : InodeIdx N}
    {q : LfQueue (InodeIdx N) N} (head : (s.inodeDirtyLfqueue v).dequeue = some (i, q)) :
    (s.inodeTable i).state = .dirty ∧ (s.inodeTable i).volume = some v ∧ i ∉ held ∧
      (s.inodeTable i).lock = false := by
  have queued : i ∈ (s.inodeDirtyLfqueue v).values := by
    rw [LfQueue.dequeue_eq_some.mp head]
    exact List.mem_cons_self
  obtain ⟨isDirty, owner, loose⟩ := cycle.dirty_of_queued queued
  exact ⟨isDirty, owner, loose, cycle.unlocked_of_queued queued⟩

theorem collect (cycle : LifeCycle s held) {v : VolumeIdx} {i : InodeIdx N}
    {q : LfQueue (InodeIdx N) N} (head : (s.inodeDirtyLfqueue v).dequeue = some (i, q))
    (entries : t.inodeTable = Function.update s.inodeTable i { s.inodeTable i with lock := true })
    (queues : t.inodeDirtyLfqueue = Function.update s.inodeDirtyLfqueue v q)
    (frame : t = { s with
      inodeTable := t.inodeTable, inodeDirtyLfqueue := t.inodeDirtyLfqueue }) :
    LifeCycle t (held ++ [i]) := by
  obtain ⟨isDirty, owner, loose, unlocked⟩ := cycle.collect_head head
  have queued := count_dequeue head
  rw [← queues] at queued
  have frees : t.inodeFreeLfqueue = s.inodeFreeLfqueue := by rw [frame]
  have syncs : t.inodeSyncLfqueue = s.inodeSyncLfqueue := by rw [frame]
  have cleans : t.inodeCleanLfqueue = s.inodeCleanLfqueue := by rw [frame]
  obtain ⟨nodes, bound⟩ := nodes_same (t := t) (by rw [frame]) (by rw [frame]) (by rw [frame])
    cycle.nodes
  have entry : t.inodeTable i = { s.inodeTable i with lock := true } := by
    rw [entries, Function.update_self]
  have ok := cycle.inode i
  have here : InodeOk t (held ++ [i]) i := by
    refine ⟨?_, fun w => ?_, ?_, ?_, ?_, ?_, ?_, ?_⟩
    · rw [frees, entry]
      exact ok.free
    · have now := queued w i
      rw [ok.dirty w, isDirty, owner] at now
      by_cases home : w = v
      · subst w
        simp only [loose, not_false_eq_true, and_self, if_true] at now
        simp
        omega
      · rw [if_neg fun all => home (Option.some.inj all.2.1).symm,
          if_neg fun all => home all.1] at now
        simp
        omega
    · rw [syncs, entry]
      exact ok.sync
    · rw [cleans, entry]
      exact ok.clean
    · intro w l
      rw [bound, entry]
      exact ok.bound w l
    · rw [entry]
      exact ok.owned
    · simp [entry]
    · rw [entry]
      exact fun _ => isDirty
  refine cycle.move entries here (fun j other => ?_) (fun j _ w l => by rw [bound])
    (fun j other => by simp [other]) nodes ?_ ?_ ?_
  · refine ⟨by rw [frees], fun w => ?_, by rw [syncs], by rw [cleans]⟩
    have now := queued w j
    rw [if_neg fun both => other both.2.symm] at now
    exact now.symm
  · rw [frame]
  · rw [frame]
  · refine List.nodup_append.mpr ⟨cycle.distinct, List.nodup_singleton i, ?_⟩
    intro a member b single
    rw [List.mem_singleton.mp single]
    rintro rfl
    exact loose member

/-- Handing an inode the flush holds on to sync. -/
theorem handOff {i : InodeIdx N} {rest : List (InodeIdx N)} (cycle : LifeCycle s (i :: rest))
    (handed : handOff i s = some t) :
    LifeCycle t rest ∧ Quiet s t := by
  obtain ⟨q, queued, queues, entries, count, frame⟩ := handOff_eq_some handed
  have ok := cycle.inode i
  have isDirty := ok.heldDirty List.mem_cons_self
  have fresh : i ∉ rest := (List.nodup_cons.mp cycle.distinct).1
  have pushed := copies_enqueue queued
  rw [← queues] at pushed
  have frees : t.inodeFreeLfqueue = s.inodeFreeLfqueue := by rw [frame]
  have dirties : t.inodeDirtyLfqueue = s.inodeDirtyLfqueue := by rw [frame]
  have cleans : t.inodeCleanLfqueue = s.inodeCleanLfqueue := by rw [frame]
  obtain ⟨nodes, bound⟩ := nodes_same (t := t) (by rw [frame]) (by rw [frame]) (by rw [frame])
    cycle.nodes
  have entry : t.inodeTable i = { s.inodeTable i with state := .sync } := by
    rw [entries, Function.update_self]
  have here : InodeOk t rest i := by
    refine ⟨?_, fun w => ?_, ?_, ?_, ?_, ?_, ?_, ?_⟩
    · rw [frees, ok.free, isDirty, entry]
      rfl
    · rw [dirties, ok.dirty, entry]
      simp
    · rw [pushed, ok.sync, isDirty, entry]
      simp
    · rw [entry]
      intro clean
      cases clean
    · intro w l
      rw [bound, ok.bound, entry, isDirty]
      simp
    · rw [entry]
      exact fun _ => ok.owned (by rw [isDirty]; decide)
    · rw [entry]
      have locked := ok.locked.mpr (Or.inr List.mem_cons_self)
      simp [locked]
    · exact fun member => absurd member fresh
  have kept : Kept s t := Kept.of_entry (by rw [frame]) (by rw [frame])
    (by rw [frame]; exact ⟨rfl, rfl⟩) entries rfl rfl rfl
  refine ⟨?_, kept, by rw [frame], bound⟩
  · refine cycle.move entries here (fun j other => ?_) (fun j _ w l => by rw [bound])
      (fun j other => by simp [other]) nodes ?_ ?_ (List.nodup_cons.mp cycle.distinct).2
    · refine ⟨by rw [frees], fun w => by rw [dirties], ?_, by rw [cleans]⟩
      rw [pushed, if_neg other.symm, Nat.add_zero]
    · rw [isDirty, frame]
      rfl
    · have positive : 0 < tally (states s) .dirty := isDirty ▸ tally_pos (f := states s)
      have total := cycle.dirtyCount
      rw [isDirty, count]
      simp
      omega

/-- Handing on a whole batch. -/
theorem handOffs {batch rest : List (InodeIdx N)} (cycle : LifeCycle s (batch ++ rest))
    (handed : batch.foldlM (fun s idx => Source.handOff idx s) s = some t) :
    LifeCycle t rest ∧ Quiet s t ∧
      ∀ j, (t.inodeTable j).state = if j ∈ batch then .sync else (s.inodeTable j).state := by
  induction batch generalizing s with
  | nil =>
    cases handed
    exact ⟨cycle, Quiet.refl t, fun j => by simp⟩
  | cons i batch ih =>
    obtain ⟨u, first, others⟩ := Option.bind_eq_some_iff.mp handed
    obtain ⟨_, _, _, entries, _, _⟩ := handOff_eq_some first
    obtain ⟨middle, quiet⟩ := cycle.handOff first
    obtain ⟨last, restQuiet, states⟩ := ih middle others
    refine ⟨last, quiet.trans restQuiet, fun j => ?_⟩
    rw [states, entries]
    by_cases same : j = i
    · subst j
      simp
    · simp [same]

/-- The loop that collects inodes never fails to lock one. -/
theorem collectDirty {v : VolumeIdx} {fuel : Nat} {iIdxs r : List (InodeIdx N)}
    {numDirtyInodes writeSize writeSize' : Int} (cycle : LifeCycle s iIdxs)
    (owner : ∀ i ∈ iIdxs, (s.inodeTable i).volume = some v)
    (short : iIdxs.length ≤ writeSize.toNat)
    (collected : collectDirty v fuel iIdxs numDirtyInodes writeSize s = some (r, writeSize', t)) :
    LifeCycle t r ∧ (∀ i ∈ r, (t.inodeTable i).volume = some v) ∧
      r.length ≤ writeSize'.toNat ∧ Quiet s t ∧
      ∀ i, (t.inodeTable i).state = (s.inodeTable i).state := by
  induction fuel generalizing s iIdxs with
  | zero => cases collected
  | succ fuel ih =>
    unfold Source.collectDirty at collected
    split at collected
    · rename_i more
      obtain ⟨⟨i, q⟩, head, looped⟩ := Option.bind_eq_some_iff.mp collected
      obtain ⟨_, owned, _, unlocked⟩ := cycle.collect_head head
      dsimp only at looped
      split at looped
      case h_2 stuck =>
        rw [lockInode, if_neg (by simp [unlocked])] at stuck
        cases stuck
      rename_i x lock
      obtain ⟨_, rfl⟩ := lockInode_eq_some.mp lock
      set x : State C N := State.setInode _ i _ with hx
      have entries : x.inodeTable =
          Function.update s.inodeTable i { s.inodeTable i with lock := true } := rfl
      have frame : x = { s with
          inodeTable := x.inodeTable, inodeDirtyLfqueue := x.inodeDirtyLfqueue } := rfl
      have quiet : Quiet s x :=
        ⟨Kept.of_entry rfl rfl ⟨rfl, rfl⟩ entries rfl rfl rfl, rfl, fun _ _ => rfl⟩
      have longer : LifeCycle x (iIdxs ++ [i]) := cycle.collect head entries rfl frame
      obtain ⟨last, owners, size, after, states⟩ := ih longer
        (by
          intro j member
          rw [quiet.kept.volume]
          rcases List.mem_append.mp member with old | new
          · exact owner j old
          · rw [List.mem_singleton.mp new]
            exact owned)
        (by
          rw [List.length_append, List.length_singleton]
          omega) looped
      refine ⟨last, owners, size, quiet.trans after, fun j => ?_⟩
      rw [states, entries]
      by_cases same : j = i
      · subst j
        simp
      · simp [same]
    · cases collected
      exact ⟨cycle, owner, short, Quiet.refl t, fun _ => rfl⟩

theorem setFile (cycle : LifeCycle s held) (name : String) (file : File UInt8) :
    LifeCycle (s.setFile name file) held where
  inode i := (cycle.inode i).congr rfl rfl (fun _ => rfl) rfl rfl (fun _ _ => Iff.rfl) Iff.rfl
  nodes := (nodes_same (s := s) (t := s.setFile name file) rfl rfl rfl cycle.nodes).1
  freeCount := cycle.freeCount
  dirtyCount := cycle.dirtyCount
  distinct := cycle.distinct

end LifeCycle

/-- Bound block numbers leave room for a successor in 32 bits. -/
def LowKeys (s : State C N) : Prop :=
  ∀ v lbn i, validInode s v lbn = some i → lbn < 2 ^ 32 - 1

section LookAhead

variable {lbn : InodeIdx N → Nat}

theorem lookAhead_lbn {currLbn : Nat} {rest : List (InodeIdx N)} (low : currLbn < 2 ^ 32 - 1)
    (lows : ∀ i ∈ rest, lbn i < 2 ^ 32 - 1) {k : Nat} {i : InodeIdx N}
    (inside : k < lookAhead lbn currLbn rest) (here : rest[k]? = some i) :
    lbn i = currLbn + 1 + k := by
  induction rest generalizing currLbn k with
  | nil => cases here
  | cons j rest ih =>
    simp only [lookAhead] at inside
    split at inside
    · rename_i succ
      rw [Nat.mod_eq_of_lt (by omega)] at succ
      cases k with
      | zero =>
        cases here
        omega
      | succ k =>
        rw [List.getElem?_cons_succ] at here
        have later := ih (lows j List.mem_cons_self)
          (fun i member => lows i (List.mem_cons_of_mem j member)) (by omega) here
        omega
    · omega

/-- The inodes of one batch have consecutive block numbers. -/
theorem batch_lbn {start : InodeIdx N} {rest : List (InodeIdx N)}
    (lows : ∀ i ∈ start :: rest, lbn i < 2 ^ 32 - 1) {k : Nat} {i : InodeIdx N}
    (here : ((start :: rest).take (lookAhead lbn (lbn start) rest + 1))[k]? = some i) :
    lbn i = lbn start + k := by
  rw [List.getElem?_take] at here
  split at here
  · rename_i inside
    cases k with
    | zero =>
      cases here
      rfl
    | succ k =>
      rw [List.getElem?_cons_succ] at here
      have next := lookAhead_lbn (lows start List.mem_cons_self)
        (fun i member => lows i (List.mem_cons_of_mem start member)) (by omega) here
      omega
  · cases here

end LookAhead

theorem pwritevBatch_eq_some {s t : State C N} {start : InodeIdx N} {batch : List (InodeIdx N)}
    (written : pwritevBatch start batch s = some t) :
    ∃ v file, (s.inodeTable start).volume = some v ∧ (s.volumeTable v).fd = some file ∧
      t = s.setFile file (writeRun (s.files file) (blockSize * (s.inodeTable start).lbn)
        (batch.map s.blockOf)) := by
  obtain ⟨v, owner, opened⟩ := Option.bind_eq_some_iff.mp written
  obtain ⟨file, fd, done⟩ := Option.bind_eq_some_iff.mp opened
  cases done
  exact ⟨v, file, owner, fd, rfl⟩

/-- A gathered write of inodes of one volume with consecutive block numbers puts
each block at its own place and leaves the rest of all volumes alone. -/
theorem pwritevBatch_files {s t : State C N} {start : InodeIdx N} {batch : List (InodeIdx N)}
    {v : VolumeIdx} (files : FilesOk s)
    (owner : ∀ i ∈ start :: batch, (s.inodeTable i).volume = some v)
    (run : ∀ (k : Nat) i, batch[k]? = some i → (s.inodeTable i).lbn = (s.inodeTable start).lbn + k)
    (written : pwritevBatch start batch s = some t) :
    (∀ i ∈ batch, OnFile t i) ∧ ∀ w file lbn, (s.volumeTable w).fd = some file →
      (∀ i ∈ batch, ¬ (w = v ∧ (s.inodeTable i).lbn = lbn)) →
      readBlock blockSize (t.files file) lbn = readBlock blockSize (s.files file) lbn := by
  obtain ⟨v', name, startOwner, opened, rfl⟩ := pwritevBatch_eq_some written
  cases startOwner.symm.trans (owner start List.mem_cons_self)
  constructor
  · intro i member w file iOwner iOpened
    cases iOwner.symm.trans (owner i (List.mem_cons_of_mem start member))
    cases iOpened.symm.trans opened
    simp only [State.setFile_files, Function.update_self, State.setFile_inodeTable]
    exact readBlock_writeRun_member _ run member
  · intro w file lbn wOpened apart
    by_cases same : file = name
    · subst file
      cases files.distinct w v name wOpened opened
      rw [State.setFile_files, Function.update_self]
      exact readBlock_writeRun_other _ run fun i member same => apart i member ⟨rfl, same⟩
    · rw [State.setFile_files, Function.update_of_ne same]

/-- What an operation of the background threads does to the volumes: no block is
bound anew, and where the files were up to date, the images stay. -/
structure Background (s t : State C N) : Prop where
  kept : Kept s t
  bound : ∀ v lbn i, validInode t v lbn = some i → validInode s v lbn = some i
  images : LowKeys s → FilesOk s → Settled s →
    Settled t ∧ ∀ v lbn, visibleImage t v lbn = visibleImage s v lbn

namespace Background

variable {s t u : State C N}

theorem refl (s : State C N) : Background s s :=
  ⟨Kept.refl s, fun _ _ _ bound => bound, fun _ _ settled => ⟨settled, fun _ _ => rfl⟩⟩

theorem lowKeys (step : Background s t) (low : LowKeys s) : LowKeys t :=
  fun v lbn i bound => low v lbn i (step.bound v lbn i bound)

theorem trans (first : Background s t) (second : Background t u) : Background s u := by
  refine ⟨first.kept.trans second.kept,
    fun v lbn i bound => first.bound v lbn i (second.bound v lbn i bound),
    fun low files settled => ?_⟩
  obtain ⟨middle, images⟩ := first.images low files settled
  obtain ⟨last, images'⟩ := second.images (first.lowKeys low) (first.kept.filesOk files) middle
  exact ⟨last, fun v lbn => (images' v lbn).trans (images v lbn)⟩

/-- Nothing changes but states, and what becomes SYNC or CLEAN is on file. -/
theorem of_quiet (quiet : Quiet s t)
    (written : ∀ i, (t.inodeTable i).state = .sync ∨ (t.inodeTable i).state = .clean →
      Settled s → OnFile s i) : Background s t where
  kept := quiet.kept
  bound v lbn i bound := by rwa [quiet.bound] at bound
  images _ _ settled := ⟨fun i state => quiet.onFile (written i state settled), quiet.visibleImage⟩

end Background

/-- One batch: the gathered write and the hand-off. -/
theorem LifeCycle.writeBatch {s u t : State C N} {start : InodeIdx N}
    {batch rest : List (InodeIdx N)} {v : VolumeIdx} (cycle : LifeCycle s (batch ++ rest))
    (first : start ∈ batch) (owner : ∀ i ∈ batch, (s.inodeTable i).volume = some v)
    (run : LowKeys s → ∀ (k : Nat) i, batch[k]? = some i →
      (s.inodeTable i).lbn = (s.inodeTable start).lbn + k)
    (written : pwritevBatch start batch s = some u)
    (handed : batch.foldlM (fun s idx => Source.handOff idx s) u = some t) :
    LifeCycle t rest ∧ Background s t := by
  obtain ⟨_, name, _, _, target⟩ := pwritevBatch_eq_some written
  have middle : LifeCycle u (batch ++ rest) := target ▸ cycle.setFile _ _
  obtain ⟨last, quiet, states⟩ := middle.handOffs handed
  have kept : Kept s u := by
    rw [target]
    exact ⟨rfl, fun _ => rfl, fun _ => rfl, fun _ => rfl, fun _ => rfl, fun _ => rfl, rfl, rfl⟩
  have bound : ∀ w l, validInode u w l = validInode s w l := fun w l => by rw [target]; rfl
  have sameStates : ∀ i, (u.inodeTable i).state = (s.inodeTable i).state :=
    fun i => by rw [target]; rfl
  refine ⟨last, kept.trans quiet.kept, fun w l i valid => by rwa [quiet.bound, bound] at valid,
    fun low files settled => ?_⟩
  have owners : ∀ i ∈ start :: batch, (s.inodeTable i).volume = some v := by
    intro i member
    rcases List.mem_cons.mp member with rfl | inside
    · exact owner i first
    · exact owner i inside
  obtain ⟨onFile, others⟩ := pwritevBatch_files files owners (run low) written
  have heldUsed : ∀ i ∈ batch, (s.inodeTable i).state ≠ .free := by
    intro i member
    rw [(cycle.inode i).heldDirty (List.mem_append_left rest member)]
    decide
  constructor
  · intro i state
    rw [states] at state
    apply quiet.onFile
    split at state
    · rename_i member
      exact onFile i member
    · rename_i outside
      rw [sameStates] at state
      have used : (s.inodeTable i).state ≠ .free := by
        rcases state with sync | clean
        · rw [sync]
          decide
        · rw [clean]
          decide
      intro w file iOwner opened
      rw [kept.volume] at iOwner
      rw [kept.fd] at opened
      rw [kept.lbn, kept.blockOf, others w file _ opened]
      · exact settled i state w file iOwner opened
      · rintro j member ⟨rfl, key⟩
        have same := cycle.eq_of_key used (heldUsed j member) iOwner (owner j member) key.symm
        exact outside (same ▸ member)
  · intro w l
    rw [quiet.visibleImage]
    unfold visibleImage
    rw [bound, kept.fd]
    cases valid : validInode s w l with
    | some i => simp only [kept.blockOf]
    | none =>
      cases opened : (s.volumeTable w).fd with
      | none => rfl
      | some file =>
        simp only [Option.map_some, Option.some.injEq]
        apply others w file l opened
        rintro j member ⟨rfl, rfl⟩
        rw [cycle.validInode_self (heldUsed j member) (owner j member)] at valid
        cases valid

theorem LifeCycle.writeBatches {s t : State C N} {fuel : Nat} {iIdxs : List (InodeIdx N)}
    {v : VolumeIdx} (cycle : LifeCycle s iIdxs)
    (owner : ∀ i ∈ iIdxs, (s.inodeTable i).volume = some v)
    (written : writeBatches fuel iIdxs s = some t) : LifeCycle t [] ∧ Background s t := by
  induction fuel generalizing s iIdxs with
  | zero =>
    cases iIdxs with
    | nil =>
      cases written
      exact ⟨cycle, .refl t⟩
    | cons start rest => cases written
  | succ fuel ih =>
    cases iIdxs with
    | nil =>
      cases written
      exact ⟨cycle, .refl t⟩
    | cons start rest =>
      obtain ⟨u, write, afterWrite⟩ := Option.bind_eq_some_iff.mp written
      obtain ⟨x, hand, looped⟩ := Option.bind_eq_some_iff.mp afterWrite
      have pieces := List.take_append_drop
        (lookAhead (fun i => (s.inodeTable i).lbn) (s.inodeTable start).lbn rest + 1)
        (start :: rest)
      have low : LowKeys s → ∀ i ∈ start :: rest, (s.inodeTable i).lbn < 2 ^ 32 - 1 := by
        intro low i member
        have used : (s.inodeTable i).state ≠ .free := by
          rw [(cycle.inode i).heldDirty member]
          decide
        exact low v _ i (cycle.validInode_self used (owner i member))
      obtain ⟨middle, step⟩ := LifeCycle.writeBatch (v := v) (by rw [pieces]; exact cycle)
        (by simp) (fun i member => owner i (List.mem_of_mem_take member))
        (fun lows k i here => batch_lbn (low lows) here) write hand
      obtain ⟨last, rest'⟩ := ih middle
        (by
          intro i member
          rw [step.kept.volume]
          exact owner i (List.mem_of_mem_drop member)) looped
      exact ⟨last, step.trans rest'⟩

theorem nvmFlush_eq (v : VolumeIdx) (s : State C N) :
    nvmFlush v s =
      (collectDirty v ((s.inodeDirtyLfqueue v).getSize + 1) []
        (numDirtyInodesOf (s.inodeDirtyLfqueue v).getSize)
        (writeSizeOf (numDirtyInodesOf (s.inodeDirtyLfqueue v).getSize)) s).bind
      fun found => writeBatches found.1.length (found.1.take found.2.1.toNat) found.2.2 := rfl

/-- A flush collects inodes, whatever its bounds are, and writes what it has collected. -/
theorem nvmFlush_eq_some {s t : State C N} {v : VolumeIdx} (flushed : nvmFlush v s = some t) :
    ∃ numDirtyInodes writeSize iIdxs writeSize' u,
      collectDirty v ((s.inodeDirtyLfqueue v).getSize + 1) [] numDirtyInodes writeSize s =
        some (iIdxs, writeSize', u) ∧
      writeBatches iIdxs.length (iIdxs.take writeSize'.toNat) u = some t := by
  rw [nvmFlush_eq] at flushed
  obtain ⟨⟨iIdxs, writeSize', u⟩, collected, written⟩ := Option.bind_eq_some_iff.mp flushed
  exact ⟨_, _, iIdxs, writeSize', u, collected, written⟩

/-- nvm_flush -/
theorem LifeCycle.nvmFlush {s t : State C N} {v : VolumeIdx} (cycle : LifeCycle s [])
    (flushed : nvmFlush v s = some t) : LifeCycle t [] ∧ Background s t := by
  obtain ⟨_, _, iIdxs, writeSize, u, collected, written⟩ := nvmFlush_eq_some flushed
  obtain ⟨holding, owner, short, quiet, states⟩ :=
    cycle.collectDirty (by simp) (Nat.zero_le _) collected
  rw [List.take_of_length_le short] at written
  obtain ⟨last, step⟩ := holding.writeBatches owner written
  refine ⟨last, Background.trans (Background.of_quiet quiet fun i state settled => ?_) step⟩
  rw [states] at state
  exact settled i state

end BurstBuffer.Source
