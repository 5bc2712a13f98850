import BurstBuffer.Invariants.SyncStep

/-!
# Volume entries

An entry is free, or open under a vid and a file of its own. Opening a volume
gives it an empty hash table, so no key is bound or unbound by it.
-/
namespace BurstBuffer.Source

open Library

variable {C : CuckoohashMap} {N : Nat}

theorem toDigits_injective {m n : Nat} (same : Nat.toDigits 10 m = Nat.toDigits 10 n) : m = n := by
  rw [← Nat.ofDigitChars_ten_toDigits (n := m), same, Nat.ofDigitChars_ten_toDigits]

theorem getFilename_injective {vid vid' : Nat} (same : getFilename vid = getFilename vid') :
    vid = vid' := by
  apply toDigits_injective
  have chars := congrArg String.toList same
  unfold getFilename at chars
  split at chars <;> split at chars
  · simpa using chars
  · simp at chars
  · simp at chars
  · simpa using chars

structure VolumesOk (s : State C N) : Prop where
  free : ∀ v, s.volumeFreeLfqueue.values.count v =
    if (s.volumeTable v).hashTable.isSome then 0 else 1
  inuse : ∀ v, s.volumeInuseLfqueue.values.count v =
    if (s.volumeTable v).hashTable.isSome then 1 else 0
  unused : ∀ v, (s.volumeTable v).hashTable.isSome = false →
    (s.volumeTable v).vid = unusedVid ∧ (s.volumeTable v).fd = none
  opened : ∀ v, (s.volumeTable v).hashTable.isSome →
    (s.volumeTable v).fd = some (getFilename (s.volumeTable v).vid)
  distinct : ∀ v w, (s.volumeTable v).hashTable.isSome →
    (s.volumeTable w).vid = (s.volumeTable v).vid → v = w

theorem VolumesOk.filesOk {s : State C N} (volumes : VolumesOk s) : FilesOk s := by
  have isOpen : ∀ v file, (s.volumeTable v).fd = some file →
      (s.volumeTable v).hashTable.isSome ∧ file = getFilename (s.volumeTable v).vid := by
    intro v file fd
    cases table : (s.volumeTable v).hashTable.isSome with
    | false =>
      rw [(volumes.unused v table).2] at fd
      cases fd
    | true =>
      rw [volumes.opened v table] at fd
      exact ⟨rfl, (Option.some.inj fd).symm⟩
  refine ⟨fun v table => ⟨_, volumes.opened v table⟩, fun v w file first second => ?_⟩
  obtain ⟨table, name⟩ := isOpen v file first
  obtain ⟨_, name'⟩ := isOpen w file second
  exact volumes.distinct v w table (getFilename_injective (name'.symm.trans name))

/-- The volume invariant only looks at identities and the two volume queues. -/
theorem VolumesOk.congr {s t : State C N} (volumes : VolumesOk s)
    (identity : ∀ v, volumeIdentity t v = volumeIdentity s v)
    (free : t.volumeFreeLfqueue = s.volumeFreeLfqueue)
    (inuse : t.volumeInuseLfqueue = s.volumeInuseLfqueue) : VolumesOk t := by
  have same : ∀ v, (t.volumeTable v).vid = (s.volumeTable v).vid ∧
      (t.volumeTable v).fd = (s.volumeTable v).fd ∧
      (t.volumeTable v).hashTable.isSome = (s.volumeTable v).hashTable.isSome := by
    intro v
    have parts := identity v
    simp only [volumeIdentity, Prod.mk.injEq] at parts
    exact parts
  refine ⟨fun v => ?_, fun v => ?_, fun v => ?_, fun v => ?_, fun v w => ?_⟩
  · rw [free, (same v).2.2]
    exact volumes.free v
  · rw [inuse, (same v).2.2]
    exact volumes.inuse v
  · rw [(same v).1, (same v).2.1, (same v).2.2]
    exact volumes.unused v
  · rw [(same v).1, (same v).2.1, (same v).2.2]
    exact volumes.opened v
  · rw [(same v).1, (same v).2.2, (same w).1]
    exact volumes.distinct v w

theorem Kept.volumesOk {s t : State C N} (kept : Kept s t) (volumes : VolumesOk s) : VolumesOk t :=
  volumes.congr kept.identity kept.volumeFree kept.volumeInuse

/-- Everything opening a new volume changes. -/
structure Opened (s t : State C N) (vid : Nat) (v : VolumeIdx) : Prop where
  unknown : ∀ w, (s.volumeTable w).vid ≠ vid
  head : ∃ q r, s.volumeFreeLfqueue.dequeue = some (v, q) ∧
    s.volumeInuseLfqueue.enqueue v = some r ∧ t.volumeFreeLfqueue = q ∧ t.volumeInuseLfqueue = r
  table : t.volumeTable = Function.update s.volumeTable v { s.volumeTable v with
    vid := vid, fd := some (getFilename vid), hashTable := some newHashTable }
  frame : t = { s with
    volumeTable := t.volumeTable, volumeFreeLfqueue := t.volumeFreeLfqueue
    volumeInuseLfqueue := t.volumeInuseLfqueue }

/-- A volume is found, or opened. -/
theorem getVolumeEntryIdx_cases {s t : State C N} {vid : Nat} {v : VolumeIdx}
    (got : getVolumeEntryIdx vid s = some (v, t)) :
    (t = s ∧ (s.volumeTable v).vid = vid) ∨ Opened s t vid v := by
  unfold getVolumeEntryIdx at got
  split at got
  · rename_i w found
    cases got
    exact Or.inl ⟨rfl, by simpa using List.find?_some found⟩
  · rename_i missing
    obtain ⟨⟨w, q⟩, head, afterHead⟩ := Option.bind_eq_some_iff.mp got
    obtain ⟨r, queued, done⟩ := Option.bind_eq_some_iff.mp afterHead
    cases done
    refine Or.inr ⟨fun u => ?_, ⟨q, r, head, queued, rfl, rfl⟩, rfl, rfl⟩
    have unequal := List.find?_eq_none.mp missing u (List.mem_finRange u)
    simpa using unequal

section OpenVolume

variable {s t : State C N} {vid : Nat} {v : VolumeIdx}

theorem Opened.wasClosed (step : Opened s t vid v) (volumes : VolumesOk s) :
    (s.volumeTable v).hashTable.isSome = false := by
  obtain ⟨q, _, head, _⟩ := step.head
  have queued : 0 < s.volumeFreeLfqueue.values.count v := by
    rw [LfQueue.dequeue_eq_some.mp head, List.count_cons_self]
    omega
  rw [volumes.free] at queued
  cases table : (s.volumeTable v).hashTable.isSome with
  | false => rfl
  | true => simp [table] at queued

theorem Opened.nodes (step : Opened s t vid v) (volumes : VolumesOk s) (nodes : NodesOk s) :
    NodesOk t ∧ ∀ w lbn, validInode t w lbn = validInode s w lbn := by
  have closed := step.wasClosed volumes
  rw [Option.isSome_eq_false_iff, Option.isNone_iff_eq_none] at closed
  have heap : t.hashNodes = s.hashNodes := by rw [step.frame]
  refine nodes_congr t (fun w lbn => ?_) (by rw [step.frame])
    (fun w lbn p _ => by rw [heap]; exact ⟨rfl, rfl, rfl⟩) nodes
  rw [nodeAt, nodeAt, step.table]
  by_cases same : w = v
  · subst w
    simp [closed, newHashTable, searchHashNode, C.find_empty]
  · rw [Function.update_of_ne same]

theorem Opened.lifeCycle (step : Opened s t vid v) (volumes : VolumesOk s)
    (cycle : LifeCycle s []) : LifeCycle t [] := by
  obtain ⟨nodes, bound⟩ := step.nodes volumes cycle.nodes
  refine ⟨fun i => ?_, nodes, ?_, ?_, List.nodup_nil⟩
  · have entries : t.inodeTable = s.inodeTable := by rw [step.frame]
    have frees : t.inodeFreeLfqueue = s.inodeFreeLfqueue := by rw [step.frame]
    have dirties : t.inodeDirtyLfqueue = s.inodeDirtyLfqueue := by rw [step.frame]
    have syncs : t.inodeSyncLfqueue = s.inodeSyncLfqueue := by rw [step.frame]
    have cleans : t.inodeCleanLfqueue = s.inodeCleanLfqueue := by rw [step.frame]
    exact (cycle.inode i).congr (by rw [entries]) (by rw [frees]) (fun w => by rw [dirties])
      (by rw [syncs]) (by rw [cleans]) (fun w lbn => by rw [bound]) Iff.rfl
  · have same : states t = states s := by
      rw [step.frame]
      rfl
    rw [same, step.frame]
    exact cycle.freeCount
  · have same : states t = states s := by
      rw [step.frame]
      rfl
    rw [same, step.frame]
    exact cycle.dirtyCount

theorem Opened.volumesOk (step : Opened s t vid v) (volumes : VolumesOk s) : VolumesOk t := by
  have closed := step.wasClosed volumes
  obtain ⟨q, r, head, queued, free, inuse⟩ := step.head
  have popped := LfQueue.dequeue_eq_some.mp head
  have pushed := LfQueue.enqueue_eq_some.mp queued
  have here : t.volumeTable v = { s.volumeTable v with
      vid := vid, fd := some (getFilename vid), hashTable := some newHashTable } := by
    rw [step.table, Function.update_self]
  have there : ∀ w, w ≠ v → t.volumeTable w = s.volumeTable w := fun w other => by
    rw [step.table, Function.update_of_ne other]
  refine ⟨fun w => ?_, fun w => ?_, fun w => ?_, fun w => ?_, fun u w => ?_⟩
  · have before := volumes.free w
    rw [popped, List.count_cons] at before
    rw [free]
    by_cases same : w = v
    · subst w
      rw [here]
      simp [closed] at before ⊢
      omega
    · rw [there w same]
      simpa [Ne.symm same] using before
  · have before := volumes.inuse w
    rw [inuse, pushed, List.count_append, List.count_singleton, before]
    by_cases same : w = v
    · subst w
      rw [here]
      simp [closed]
    · rw [there w same]
      simp [Ne.symm same]
  · by_cases same : w = v
    · subst w
      rw [here]
      simp
    · rw [there w same]
      exact volumes.unused w
  · by_cases same : w = v
    · subst w
      rw [here]
      exact fun _ => rfl
    · rw [there w same]
      exact volumes.opened w
  · by_cases first : u = v <;> by_cases second : w = v
    · exact fun _ _ => first.trans second.symm
    · subst u
      rw [here, there w second]
      exact fun _ same => absurd same (step.unknown w)
    · subst w
      rw [here, there u first]
      exact fun _ same => absurd same.symm (step.unknown u)
    · rw [there u first, there w second]
      exact volumes.distinct u w

theorem Opened.onFile (step : Opened s t vid v) {i : InodeIdx N}
    (elsewhere : (s.inodeTable i).volume ≠ some v) (written : OnFile s i) : OnFile t i := by
  have entries : t.inodeTable = s.inodeTable := by rw [step.frame]
  have blocks : t.blockTable = s.blockTable := by rw [step.frame]
  have files : t.files = s.files := by rw [step.frame]
  intro w file owner fd
  rw [entries] at owner ⊢
  have other : w ≠ v := fun same => elsewhere (same ▸ owner)
  rw [step.table, Function.update_of_ne other] at fd
  rw [files, State.blockOf, blocks, entries]
  exact written w file owner fd

theorem Opened.settled (step : Opened s t vid v) (volumes : VolumesOk s) (cycle : LifeCycle s [])
    (settled : Settled s) : Settled t := by
  have entries : t.inodeTable = s.inodeTable := by rw [step.frame]
  intro i state
  rw [entries] at state
  refine step.onFile (fun owner => ?_) (settled i state)
  have used : (s.inodeTable i).state ≠ .free := by
    rcases state with sync | clean
    · rw [sync]
      decide
    · rw [clean]
      decide
  obtain ⟨p, found, _⟩ := nodeAt_of_validInode (cycle.validInode_self used owner)
  obtain ⟨table, present, _⟩ := Option.bind_eq_some_iff.mp found
  have closed := step.wasClosed volumes
  rw [present] at closed
  cases closed

end OpenVolume

end BurstBuffer.Source
