import BurstBuffer.Invariants.Volumes

/-!
# The state nvm_system_init leaves

Whatever memory it starts from, nvm_system_init ends with every inode FREE, every
volume closed and all queues but the free ones empty.
-/
namespace BurstBuffer.Source

open Library

variable {C : CuckoohashMap} {N : Nat}

def clearedVolume (entry : VolumeEntry C N) : VolumeEntry C N :=
  { entry with vid := unusedVid, fd := none, hashTable := none }

def clearedInode (entry : InodeEntry N) : InodeEntry N :=
  { entry with state := .free, lock := false }

theorem initVolumes_spec (r : State C N) (empty : r.volumeFreeLfqueue.values = []) :
    ∃ t, (List.finRange maxVolumeEntry).foldlM initVolume r = some t ∧
      t.volumeFreeLfqueue.values = List.finRange maxVolumeEntry ∧
      (∀ v, t.volumeTable v = clearedVolume (r.volumeTable v)) ∧
      t = { r with volumeTable := t.volumeTable, volumeFreeLfqueue := t.volumeFreeLfqueue } := by
  let I : List VolumeIdx → State C N → Prop := fun rest s => ∃ done,
    done ++ rest = List.finRange maxVolumeEntry ∧ s.volumeFreeLfqueue.values = done ∧
    (∀ v, s.volumeTable v =
      if v ∈ done then clearedVolume (r.volumeTable v) else r.volumeTable v) ∧
    s = { r with volumeTable := s.volumeTable, volumeFreeLfqueue := s.volumeFreeLfqueue }
  have start : I (List.finRange maxVolumeEntry) r := ⟨[], rfl, empty, fun v => by simp, rfl⟩
  have round : ∀ a rest s, I (a :: rest) s → ∃ t, initVolume s a = some t ∧ I rest t := by
    rintro v rest s ⟨done, all, queue, volumes, frame⟩
    have unique : (done ++ v :: rest).Nodup := all ▸ List.nodup_finRange maxVolumeEntry
    have fresh : v ∉ done := fun member =>
      List.disjoint_of_nodup_append unique member List.mem_cons_self
    have size := congrArg List.length all
    rw [List.length_append, List.length_cons, List.length_finRange] at size
    obtain ⟨q, queued, values⟩ := LfQueue.enqueue_isSome (q := s.volumeFreeLfqueue) v
      (by rw [queue]; omega)
    refine ⟨_, by simp [initVolume, queued]; rfl, done ++ [v], by simpa using all, ?_, ?_, ?_⟩
    · rw [← queue]
      exact values
    · intro w
      dsimp only
      by_cases same : w = v
      · subst w
        rw [Function.update_self, volumes, if_neg fresh, if_pos (by simp)]
        rfl
      · rw [Function.update_of_ne same, volumes]
        simp [same]
    · rw [frame]
  obtain ⟨t, looped, done, all, queue, volumes, frame⟩ := foldlM_total (I := I) round start
  rw [List.append_nil] at all
  subst all
  exact ⟨t, looped, queue, fun v => by rw [volumes, if_pos (List.mem_finRange v)], frame⟩

/-- The free queue `k` after its loop: every second inode, in order. -/
def initialFree (k : Fin defaultNumFree) (inodes : List (InodeIdx N)) : List (InodeIdx N) :=
  inodes.filter fun i => roundRobin defaultNumFree i.val = k

theorem initInodes_spec (r : State C N) (empty : ∀ k, (r.inodeFreeLfqueue k).values = []) :
    ∃ t, (List.finRange N).foldlM initInode r = some t ∧
      (∀ k, (t.inodeFreeLfqueue k).values = initialFree k (List.finRange N)) ∧
      (∀ i, t.inodeTable i = clearedInode (r.inodeTable i)) ∧
      t = { r with inodeTable := t.inodeTable, inodeFreeLfqueue := t.inodeFreeLfqueue } := by
  let I : List (InodeIdx N) → State C N → Prop := fun rest s => ∃ done,
    done ++ rest = List.finRange N ∧ (∀ k, (s.inodeFreeLfqueue k).values = initialFree k done) ∧
    (∀ i, s.inodeTable i = if i ∈ done then clearedInode (r.inodeTable i) else r.inodeTable i) ∧
    s = { r with inodeTable := s.inodeTable, inodeFreeLfqueue := s.inodeFreeLfqueue }
  have start : I (List.finRange N) r := ⟨[], rfl, empty, fun i => by simp, rfl⟩
  have round : ∀ a rest s, I (a :: rest) s → ∃ t, initInode s a = some t ∧ I rest t := by
    rintro i rest s ⟨done, all, queues, inodes, frame⟩
    have unique : (done ++ i :: rest).Nodup := all ▸ List.nodup_finRange N
    have fresh : i ∉ done := fun member =>
      List.disjoint_of_nodup_append unique member List.mem_cons_self
    have size := congrArg List.length all
    rw [List.length_append, List.length_cons, List.length_finRange] at size
    have part : (initialFree (roundRobin defaultNumFree i.val) done).length ≤ done.length :=
      List.length_filter_le _ _
    obtain ⟨q, queued, values⟩ := LfQueue.enqueue_isSome
      (q := s.inodeFreeLfqueue (roundRobin defaultNumFree i.val)) i (by rw [queues]; omega)
    refine ⟨_, by simp [initInode, queued]; rfl, done ++ [i], by simpa using all, ?_, ?_, ?_⟩
    · intro k
      by_cases same : k = roundRobin defaultNumFree i.val
      · subst k
        rw [queues] at values
        simp [values, initialFree]
      · have other := queues k
        simp only [initialFree] at other
        simp [Function.update_of_ne same, initialFree, other, Ne.symm same]
    · intro j
      dsimp only
      by_cases same : j = i
      · subst j
        rw [Function.update_self, inodes, if_neg fresh, if_pos (by simp)]
        rfl
      · rw [Function.update_of_ne same, inodes]
        simp [same]
    · rw [frame]
  obtain ⟨t, looped, done, all, queues, inodes, frame⟩ := foldlM_total (I := I) round start
  rw [List.append_nil] at all
  subst all
  exact ⟨t, looped, queues, fun i => by rw [inodes, if_pos (List.mem_finRange i)], frame⟩

def settledEntry (entry : InodeEntry N) : InodeEntry N :=
  if isUnwritten entry.state then { entry with state := .clean } else entry

/-- Any part of the loop that sets written inodes to CLEAN. -/
theorem settleInode_foldl {l : List (InodeIdx N)} (distinct : l.Nodup) (s : State C N) :
    (∀ i, (l.foldl settleInode s).inodeTable i =
      if i ∈ l then settledEntry (s.inodeTable i) else s.inodeTable i) ∧
    l.foldl settleInode s = { s with inodeTable := (l.foldl settleInode s).inodeTable } := by
  induction l generalizing s with
  | nil => exact ⟨fun i => by simp, rfl⟩
  | cons a l ih =>
    obtain ⟨fresh, distinct⟩ := List.nodup_cons.mp distinct
    obtain ⟨entries, frame⟩ := ih distinct (settleInode s a)
    have first : (settleInode s a).inodeTable =
        Function.update s.inodeTable a (settledEntry (s.inodeTable a)) ∧
        settleInode s a = { s with inodeTable := (settleInode s a).inodeTable } := by
      unfold settleInode settledEntry
      split
      · exact ⟨rfl, rfl⟩
      · exact ⟨(Function.update_eq_self a s.inodeTable).symm, rfl⟩
    rw [List.foldl_cons]
    refine ⟨fun i => ?_, by rw [frame, first.2]⟩
    rw [entries, first.1]
    by_cases same : i = a
    · subst i
      simp [fresh]
    · simp [same]

theorem settleInodes_spec (s : State C N) :
    (∀ i, (settleInodes s).inodeTable i = settledEntry (s.inodeTable i)) ∧
      settleInodes s = { s with inodeTable := (settleInodes s).inodeTable } := by
  obtain ⟨entries, frame⟩ := settleInode_foldl (List.nodup_finRange N) s
  exact ⟨fun i => (entries i).trans (if_pos (List.mem_finRange i)), frame⟩

/-- The first loop of recovery_start only writes files. -/
theorem recoverBlocks_frame (cwd : String) {l : List (InodeIdx N)} {s t : State C N}
    (recovered : l.foldlM (recoverBlock cwd) s = some t) : t = { s with files := t.files } := by
  induction l generalizing s with
  | nil =>
    cases recovered
    rfl
  | cons i l ih =>
    obtain ⟨u, first, rest⟩ := Option.bind_eq_some_iff.mp recovered
    have frame : u = { s with files := u.files } := by
      simp only [recoverBlock] at first
      split at first
      · obtain ⟨v, _, written⟩ := Option.bind_eq_some_iff.mp first
        cases written
        rfl
      · cases first
        rfl
    rw [ih rest, frame]

theorem recoveryStart_spec {cwd : String} {s r : State C N}
    (recovered : recoveryStart cwd s = some r) :
    (∀ i, r.inodeTable i = settledEntry (s.inodeTable i)) ∧
      r = { s with inodeTable := r.inodeTable, files := r.files } := by
  obtain ⟨q, looped, done⟩ := Option.bind_eq_some_iff.mp recovered
  have frame := recoverBlocks_frame cwd looped
  cases done
  obtain ⟨entries, settled⟩ := settleInodes_spec q
  have same : q.inodeTable = s.inodeTable := by rw [frame]
  refine ⟨fun i => by rw [entries, same], ?_⟩
  rw [settled, frame]

/-- With no block left to write, recovery_start changes nothing. -/
theorem recoveryStart_of_written (cwd : String) {s : State C N}
    (written : ∀ i, isUnwritten (s.inodeTable i).state = false) : recoveryStart cwd s = some s := by
  have skip : ∀ l : List (InodeIdx N), l.foldlM (recoverBlock cwd) s = some s := by
    intro l
    induction l with
    | nil => rfl
    | cons i l ih => simp [List.foldlM_cons, recoverBlock, written i, ih]
  obtain ⟨entries, frame⟩ := settleInodes_spec s
  have same : (settleInodes s).inodeTable = s.inodeTable := by
    funext i
    rw [entries, settledEntry, written i]
    rfl
  rw [recoveryStart, skip]
  simp only [Option.bind_eq_bind, Option.bind_some, Option.some.injEq]
  rw [frame, same]

/-- A state nvm_system_init has just set up, on the tables `r`. -/
structure Fresh (r t : State C N) : Prop where
  inode : ∀ i, t.inodeTable i = clearedInode (r.inodeTable i)
  volume : ∀ v, t.volumeTable v = clearedVolume (r.volumeTable v)
  free : ∀ k, (t.inodeFreeLfqueue k).values = initialFree k (List.finRange N)
  volumeFree : t.volumeFreeLfqueue.values = List.finRange maxVolumeEntry
  frame : t = { r with
    inodeTable := t.inodeTable, volumeTable := t.volumeTable
    volumeFreeLfqueue := t.volumeFreeLfqueue, volumeInuseLfqueue := .new
    inodeFreeLfqueue := t.inodeFreeLfqueue, freeEnqueueIdx := 0, freeDequeueIdx := 0
    inodeFreeCount := N, inodeDirtyLfqueue := fun _ => .new, inodeDirtyCount := 0
    inodeSyncLfqueue := fun _ => .new, syncQueueIdx := 0
    inodeCleanLfqueue := fun _ => .new, cleanQueueIdx := 0 }

theorem nvmSystemInit_spec {cwd : String} {s r : State C N}
    (recovered : recoveryStart cwd s = some r) :
    ∃ t, nvmSystemInit cwd s = some t ∧ Fresh r t := by
  obtain ⟨t, volumes, queue, volumeTable, volumeFrame⟩ := initVolumes_spec
    { r with volumeFreeLfqueue := .new, volumeInuseLfqueue := .new } rfl
  obtain ⟨u, inodes, queues, inodeTable, inodeFrame⟩ := initInodes_spec { t with
    inodeFreeLfqueue := fun _ => .new
    inodeDirtyLfqueue := fun _ => .new
    inodeDirtyCount := 0
    inodeSyncLfqueue := fun _ => .new
    inodeCleanLfqueue := fun _ => .new
    inodeFreeCount := N } (fun _ => rfl)
  have tEntries : t.inodeTable = r.inodeTable := by rw [volumeFrame]
  have uVolumes : u.volumeTable = t.volumeTable := by rw [inodeFrame]
  have uQueue : u.volumeFreeLfqueue = t.volumeFreeLfqueue := by rw [inodeFrame]
  refine ⟨{ u with
    freeEnqueueIdx := 0, freeDequeueIdx := 0, syncQueueIdx := 0, cleanQueueIdx := 0 }, ?_, ?_⟩
  · simp only [nvmSystemInit, recovered, Option.bind_eq_bind, Option.bind_some, volumes, inodes]
  · refine ⟨fun i => ?_, fun v => ?_, queues, ?_, ?_⟩
    · rw [inodeTable, tEntries]
    · rw [uVolumes, volumeTable]
    · rw [uQueue, queue]
    · rw [inodeFrame, volumeFrame]

namespace Fresh

variable {r t : State C N}

theorem isFree (fresh : Fresh r t) (i : InodeIdx N) : (t.inodeTable i).state = .free := by
  rw [fresh.inode]
  rfl

theorem closed (fresh : Fresh r t) (v : VolumeIdx) : (t.volumeTable v).hashTable = none := by
  rw [fresh.volume]
  rfl

theorem nodeAt (fresh : Fresh r t) (v : VolumeIdx) (lbn : Nat) : nodeAt t v lbn = none := by
  rw [Source.nodeAt, fresh.closed]
  rfl

theorem validInode (fresh : Fresh r t) (v : VolumeIdx) (lbn : Nat) : validInode t v lbn = none := by
  rw [Source.validInode, fresh.nodeAt]
  rfl

theorem copies_free (fresh : Fresh r t) (i : InodeIdx N) :
    copies (contents t.inodeFreeLfqueue) i = 1 := by
  have count : ∀ k, (contents t.inodeFreeLfqueue k).count i =
      if roundRobin defaultNumFree i.val = k then 1 else 0 := by
    intro k
    rw [contents, fresh.free, initialFree]
    split
    · rename_i turn
      rw [List.count_filter (by simpa using turn)]
      exact List.count_eq_one_of_mem (List.nodup_finRange N) (List.mem_finRange i)
    · rename_i turn
      exact List.count_eq_zero.mpr fun member => turn (by simpa using (List.mem_filter.mp member).2)
  rw [copies, Finset.sum_congr rfl fun k _ => count k, Finset.sum_ite_eq]
  simp

theorem lifeCycle (fresh : Fresh r t) : LifeCycle t [] := by
  have dirties : t.inodeDirtyLfqueue = fun _ => .new := by rw [fresh.frame]
  have syncs : t.inodeSyncLfqueue = fun _ => .new := by rw [fresh.frame]
  have allFree : states t = fun _ => .free := funext fresh.isFree
  refine ⟨fun i => ⟨?_, fun v => ?_, ?_, ?_, fun v lbn => ?_, fun used => ?_, ?_, ?_⟩,
    ⟨?_, ?_, ?_, ?_⟩, ?_, ?_, List.nodup_nil⟩
  · rw [fresh.copies_free, if_pos (fresh.isFree i)]
  · rw [dirties, fresh.isFree]
    simp
  · rw [syncs, fresh.isFree]
    simp [copies, contents]
  · rw [fresh.isFree]
    intro clean
    cases clean
  · rw [fresh.validInode, fresh.isFree]
    simp
  · exact absurd (fresh.isFree i) used
  · rw [fresh.isFree, fresh.inode]
    simp [clearedInode]
  · simp
  · intro v lbn p found
    rw [fresh.nodeAt] at found
    cases found
  · intro v w lbn l p found
    rw [fresh.nodeAt] at found
    cases found
  · intro v lbn p found
    rw [fresh.nodeAt] at found
    cases found
  · intro v lbn p found
    rw [fresh.nodeAt] at found
    cases found
  · rw [allFree, tally_const, fresh.frame]
    simp
  · rw [allFree, tally_const, fresh.frame]
    rfl

theorem volumesOk (fresh : Fresh r t) : VolumesOk t := by
  refine ⟨fun v => ?_, fun v => ?_, fun v _ => ?_, fun v table => ?_, fun v w table => ?_⟩
  · rw [fresh.volumeFree, fresh.closed]
    exact List.count_eq_one_of_mem (List.nodup_finRange _) (List.mem_finRange v)
  · have empty : t.volumeInuseLfqueue = .new := by rw [fresh.frame]
    rw [empty, fresh.closed]
    rfl
  · rw [fresh.volume]
    exact ⟨rfl, rfl⟩
  · rw [fresh.closed] at table
    cases table
  · rw [fresh.closed] at table
    cases table

theorem settled (fresh : Fresh r t) : Settled t := by
  intro i state
  rw [fresh.isFree] at state
  rcases state with sync | clean
  · cases sync
  · cases clean

end Fresh

end BurstBuffer.Source
