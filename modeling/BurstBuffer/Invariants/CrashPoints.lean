import BurstBuffer.Invariants.Recovery
import BurstBuffer.Source.PersistentStores

/-!
# Crash points inside a block step

What recovery makes of a block when the block step on it stops between two of
its stores: first what it makes of the state before, then, from the store of
DIRTY on, the block the inode had before, and last the new block.
-/
namespace BurstBuffer.Source

open Library

variable {C : CuckoohashMap} {N : Nat}

/-- The image recovery_start writes to the position of a block of a volume, or
the file's own image there if it writes none. -/
def recoveredImage (s : State C N) (v : VolumeIdx) (lbn : Nat) : Option Block :=
  match lastReplayed s v lbn with
  | some i => some (s.blockOf i)
  | none => (s.volumeTable v).fd.map fun file => readBlock blockSize (s.files file) lbn

/-- It is what the volume's file holds after recovery_start, if that finds the file. -/
theorem recoveredImage_eq_read {cwd : String} {s r : State C N} {v : VolumeIdx}
    (volumes : VolumesOk s) (table : (s.volumeTable v).hashTable.isSome)
    (found : recoveryFilename cwd (s.volumeTable v).vid = getFilename (s.volumeTable v).vid)
    (recovered : recoveryStart cwd s = some r) (lbn : Nat) : recoveredImage s v lbn =
      some (readBlock blockSize (r.files (getFilename (s.volumeTable v).vid)) lbn) := by
  rw [recoveryStart_read volumes table recovered, replayed, if_pos found, recoveredImage,
    volumes.opened v table]
  cases lastReplayed s v lbn <;> rfl

/-- Recovery would write the block of inode `i` last, if it had the key `(v, lbn)`. -/
def Front (s : State C N) (v : VolumeIdx) (lbn : Nat) (i : InodeIdx N) : Prop :=
  lbn < 2 ^ 18 ∧ ∀ j, replays s v lbn j = true → j ≤ i

instance (s : State C N) (v : VolumeIdx) (lbn : Nat) (i : InodeIdx N) :
    Decidable (Front s v lbn i) :=
  inferInstanceAs (Decidable (_ ∧ ∀ j, _ → j ≤ i))

/-- The same inodes, volumes, blocks and files: all that is left after a crash. -/
structure SameNvm (s t : State C N) : Prop where
  inode : ∀ i, (t.inodeTable i).lbn = (s.inodeTable i).lbn ∧
    (t.inodeTable i).state = (s.inodeTable i).state ∧
    (t.inodeTable i).volume = (s.inodeTable i).volume ∧
    (t.inodeTable i).blockIndex = (s.inodeTable i).blockIndex
  volume : ∀ v, (t.volumeTable v).vid = (s.volumeTable v).vid ∧
    (t.volumeTable v).blockIndex = (s.volumeTable v).blockIndex
  blocks : t.blockTable = s.blockTable
  files : t.files = s.files

section Step

variable {s t : State C N} {v : VolumeIdx} {lbn count : Nat} {buf : Nat → UInt8} {i : InodeIdx N}

theorem low_of_replays {j : InodeIdx N} (replay : replays s v lbn j = true) : lbn < 2 ^ 18 := by
  have position := (replays_iff.mp replay).2.2
  rw [position_eq] at position
  have same := Nat.eq_of_mul_eq_mul_left (by decide) position
  omega

/-- A key of an inode that recovery will not write does not matter. -/
theorem recoveredImage_congr {c : State C N}
    (skipped : ∀ j, replays c v lbn j = replays s v lbn j) (blocks : ∀ j, c.blockOf j = s.blockOf j)
    (fd : (c.volumeTable v).fd = (s.volumeTable v).fd) (files : c.files = s.files) :
    recoveredImage c v lbn = recoveredImage s v lbn := by
  have same : lastReplayed c v lbn = lastReplayed s v lbn := by
    rw [lastReplayed, lastReplayed, funext skipped]
  rw [recoveredImage, recoveredImage, same, fd, files]
  cases lastReplayed s v lbn with
  | some j => simp only [blocks]
  | none => rfl

/-- A FREE inode is not written, whatever its key. -/
theorem recoveredImage_free {c : State C N} (entry : InodeEntry N)
    (free : (s.inodeTable i).state = .free)
    (entries : c.inodeTable = Function.update s.inodeTable i entry)
    (state : entry.state = (s.inodeTable i).state)
    (blockIndex : entry.blockIndex = (s.inodeTable i).blockIndex)
    (blocks : c.blockTable = s.blockTable) (volumes : c.volumeTable = s.volumeTable)
    (files : c.files = s.files) : recoveredImage c v lbn = recoveredImage s v lbn := by
  refine recoveredImage_congr (fun j => ?_) (fun j => ?_) (by rw [volumes]) files
  · by_cases same : j = i
    · subst j
      rw [replays, replays, entries, Function.update_self, state, free]
      rfl
    · rw [replays, replays, entries, Function.update_of_ne same]
  · rw [State.blockOf, State.blockOf, blocks, entries]
    by_cases same : j = i
    · subst j
      rw [Function.update_self, blockIndex]
    · rw [Function.update_of_ne same]

/-- Once the inode carries the key and is DIRTY, recovery writes its block, unless
another inode comes after it or the position is out of reach. -/
theorem recoveredImage_marked {c : State C N}
    (here : replays c v lbn i = decide (lbn < 2 ^ 18))
    (others : ∀ j, j ≠ i → replays c v lbn j = replays s v lbn j)
    (blocks : ∀ j, c.blockOf j = s.blockOf j)
    (fd : (c.volumeTable v).fd = (s.volumeTable v).fd) (files : c.files = s.files) :
    recoveredImage c v lbn =
      if Front s v lbn i then some (s.blockOf i) else recoveredImage s v lbn := by
  split
  · rename_i front
    have last : lastReplayed c v lbn = some i := by
      refine lastReplayed_eq_some.mpr ⟨by rw [here]; simpa using front.1, fun j replay => ?_⟩
      by_cases same : j = i
      · exact le_of_eq same
      · exact front.2 j (others j same ▸ replay)
    rw [recoveredImage, last]
    simp only [blocks]
  · rename_i hidden
    have same : lastReplayed c v lbn = lastReplayed s v lbn := by
      by_cases low : lbn < 2 ^ 18
      · obtain ⟨j, replay, later⟩ : ∃ j, replays s v lbn j = true ∧ i < j := by
          by_contra none
          push Not at none
          exact hidden ⟨low, none⟩
        cases last : lastReplayed s v lbn with
        | none =>
          rw [lastReplayed_eq_none.mp last j] at replay
          cases replay
        | some m =>
          obtain ⟨replayed, greatest⟩ := lastReplayed_eq_some.mp last
          have beyond : i < m := lt_of_lt_of_le later (greatest j replay)
          refine lastReplayed_eq_some.mpr ⟨?_, fun k replay' => ?_⟩
          · rw [others m (ne_of_gt beyond)]
            exact replayed
          · by_cases same : k = i
            · exact same ▸ le_of_lt beyond
            · exact greatest k (others k same ▸ replay')
      · have silent : ∀ (u : State C N) j, replays u v lbn j = false := fun u j =>
          Bool.eq_false_iff.mpr fun replay => low (low_of_replays replay)
        rw [lastReplayed_eq_none.mpr (silent c), lastReplayed_eq_none.mpr (silent s)]
    rw [recoveredImage, recoveredImage, same, fd, files]
    cases lastReplayed s v lbn with
    | some j => simp only [blocks]
    | none => rfl

/-- A state between the store of DIRTY and the last store. -/
structure Marked (s c : State C N) (v : VolumeIdx) (lbn : Nat) (i : InodeIdx N) : Prop where
  entries : c.inodeTable = Function.update s.inodeTable i
    { s.inodeTable i with lbn := lbn, volume := some v, state := .dirty }
  blocks : ∀ j, c.blockTable (s.inodeTable j).blockIndex = s.blockTable (s.inodeTable j).blockIndex
  fd : (c.volumeTable v).fd = (s.volumeTable v).fd
  files : c.files = s.files

theorem Marked.recoveredImage {c : State C N}
    (marked : Marked s c v lbn i) : recoveredImage c v lbn =
      if Front s v lbn i then some (s.blockOf i) else recoveredImage s v lbn := by
  have blockIndex : ∀ j, (c.inodeTable j).blockIndex = (s.inodeTable j).blockIndex := by
    intro j
    rw [marked.entries]
    by_cases same : j = i
    · subst j
      rw [Function.update_self]
    · rw [Function.update_of_ne same]
  refine recoveredImage_marked ?_ (fun j other => ?_) (fun j => ?_) marked.fd marked.files
  · rw [Bool.eq_iff_iff, replays_iff, marked.entries, Function.update_self, decide_eq_true_eq,
      position_eq]
    constructor
    · rintro ⟨_, _, position⟩
      have same := Nat.eq_of_mul_eq_mul_left (by decide) position
      omega
    · exact fun low => ⟨rfl, rfl, by rw [Nat.mod_eq_of_lt low]⟩
  · rw [replays, replays, marked.entries, Function.update_of_ne other]
  · rw [State.blockOf, State.blockOf, blockIndex, marked.blocks]

/-- The three states in which inode `i` is DIRTY and still owns its old block. -/
theorem marked_of_stores (count : Nat) (buf : Nat → UInt8)
    (owned : Function.Bijective (owners s)) {c : State C N}
    (entries : c.inodeTable = Function.update s.inodeTable i
      { s.inodeTable i with lbn := lbn, volume := some v }) (blocks : c.blockTable = s.blockTable)
    (volumes : c.volumeTable = s.volumeTable) (files : c.files = s.files) {k : Nat} (first : 0 < k)
    (last : k < 4) : Marked s (persisted (blockStores false i v lbn buf count s) k c) v lbn i := by
  have apart : ∀ j, (s.inodeTable j).blockIndex ≠ (s.volumeTable v).blockIndex :=
    fun j => blockIndex_ne owned.injective j v
  have stored : Marked s (persist c (.dirty i)) v lbn i := by
    refine ⟨?_, fun j => ?_, ?_, files⟩
    · simp [persist, entries]
    · simp [persist, blocks]
    · simp [persist, volumes]
  obtain rfl | rfl | rfl : k = 1 ∨ k = 2 ∨ k = 3 := by omega
  · exact stored
  · refine ⟨stored.entries, fun j => ?_, stored.fd, files⟩
    exact (Function.update_of_ne (apart j) _ _).trans (stored.blocks j)
  · refine ⟨stored.entries, fun j => ?_, ?_, files⟩
    · exact (Function.update_of_ne (apart j) _ _).trans (stored.blocks j)
    · simp [persisted, blockStores, persist, volumes]

/-- An inode that is bound carries its key already. -/
theorem entries_of_bound (cycle : LifeCycle s []) (valid : validInode s v lbn = some i) :
    s.inodeTable = Function.update s.inodeTable i
      { s.inodeTable i with lbn := lbn, volume := some v } := by
  obtain ⟨key, owner⟩ := cycle.keyOk v lbn i valid
  rw [← key, ← owner]
  exact (Function.update_eq_self i s.inodeTable).symm

/-- What recovery makes of the block at each crash point inside the step. -/
theorem crash_image (cycle : LifeCycle s [])
    (owned : Function.Bijective (owners s)) (step : BlockWritten s t v lbn buf count i) :
    let stores := blockStores (validInode s v lbn).isNone i v lbn buf count s
    ∀ k, 0 < k → k < stores.length → recoveredImage (persisted stores k s) v lbn =
      if validInode s v lbn = none ∧ k ≤ 2 ∨ ¬ Front s v lbn i then recoveredImage s v lbn
      else some (s.blockOf i) := by
  intro stores k first last
  cases step.source with
  | bound valid =>
    have four : stores = blockStores false i v lbn buf count s := by simp [stores, valid]
    rw [four] at last ⊢
    have marked :=
      marked_of_stores count buf owned (entries_of_bound cycle valid) rfl rfl rfl first last
    rw [marked.recoveredImage, valid]
    by_cases front : Front s v lbn i <;> simp [front]
  | taken unbound _ rest head =>
    have isFree : (s.inodeTable i).state = .free :=
      cycle.free_of_queued (k := roundRobin defaultNumFree s.freeDequeueIdx)
        (by rw [LfQueue.dequeue_eq_some.mp head]; exact List.mem_cons_self)
    have six : stores = .lbn i lbn :: .volume i v :: blockStores false i v lbn buf count s := by
      simp [stores, unbound, blockStores]
    rw [six] at last ⊢
    by_cases early : k ≤ 2
    · rw [if_pos (Or.inl ⟨unbound, early⟩)]
      obtain rfl | rfl : k = 1 ∨ k = 2 := by omega
      · exact recoveredImage_free { s.inodeTable i with lbn := lbn } isFree rfl rfl
          rfl rfl rfl rfl
      · refine recoveredImage_free
          { s.inodeTable i with lbn := lbn, volume := some v } isFree ?_ rfl rfl rfl
          rfl rfl
        simp [persisted, persist]
    · obtain ⟨m, rfl⟩ : ∃ m, k = m + 2 := ⟨k - 2, by omega⟩
      have entries : (persist (persist s (.lbn i lbn)) (.volume i v)).inodeTable =
          Function.update s.inodeTable i
            { s.inodeTable i with lbn := lbn, volume := some v } := by
        simp [persist]
      have marked := marked_of_stores count buf owned entries rfl rfl rfl
        (k := m) (by omega) (Nat.lt_of_add_lt_add_right last)
      have later : persisted (.lbn i lbn :: .volume i v :: blockStores false i v lbn buf count s)
          (m + 2) s = persisted (blockStores false i v lbn buf count s) m
            (persist (persist s (.lbn i lbn)) (.volume i v)) := rfl
      rw [later, marked.recoveredImage]
      by_cases front : Front s v lbn i <;> simp [front, show m ≠ 0 by omega]

/-- The stores that every block step makes, on an inode that carries the key. -/
theorem sameNvm_of_stores (step : BlockWritten s t v lbn buf count i) {c : State C N}
    (entries : c.inodeTable = Function.update s.inodeTable i
      { s.inodeTable i with lbn := lbn, volume := some v }) (blocks : c.blockTable = s.blockTable)
    (volumes : c.volumeTable = s.volumeTable) (files : c.files = s.files) :
    SameNvm (persisted (blockStores false i v lbn buf count s) 4 c) t := by
  refine ⟨fun j => ?_, fun w => ?_, ?_, ?_⟩
  · rw [step.entries]
    by_cases same : j = i
    · subst j
      simp [persisted, blockStores, persist, entries]
    · simp [persisted, blockStores, persist, entries, Function.update_of_ne same]
  · have identity := step.identity w
    simp only [volumeIdentity, Prod.mk.injEq] at identity
    rw [identity.1, step.volumeBlock]
    by_cases same : w = v
    · subst w
      simp [persisted, blockStores, persist, volumes]
    · simp [persisted, blockStores, persist, volumes, same]
  · rw [step.blocks]
    simp [persisted, blockStores, persist, blocks]
  · rw [step.frame]
    simp [persisted, blockStores, persist, files]

/-- All stores together leave what the block step leaves in NVM. -/
theorem stores_complete (cycle : LifeCycle s []) (step : BlockWritten s t v lbn buf count i) :
    let stores := blockStores (validInode s v lbn).isNone i v lbn buf count s
    SameNvm (persisted stores stores.length s) t := by
  intro stores
  cases step.source with
  | bound valid =>
    have four : stores = blockStores false i v lbn buf count s := by simp [stores, valid]
    rw [four]
    exact sameNvm_of_stores step (entries_of_bound cycle valid) rfl rfl rfl
  | taken unbound =>
    have six : stores = .lbn i lbn :: .volume i v :: blockStores false i v lbn buf count s := by
      simp [stores, unbound, blockStores]
    rw [six]
    exact sameNvm_of_stores (c := persist (persist s (.lbn i lbn)) (.volume i v)) step
      (by simp [persist]) rfl rfl rfl

end Step

section Volumes

variable {s : State C N}

theorem persist_identity (s : State C N) (store : Store N) (v : VolumeIdx) :
    volumeIdentity (persist s store) v = volumeIdentity s v := by
  cases store with
  | volumeBlock w index =>
    by_cases same : v = w
    · subst v
      simp [persist, volumeIdentity, State.setVolume]
    · simp [persist, volumeIdentity, State.setVolume, Function.update_of_ne same]
  | lbn | volume | dirty | block | inodeBlock => rfl

/-- The stores of a block step change no identity of a volume. -/
theorem persisted_volumes (volumes : VolumesOk s) (stores : List (Store N)) (k : Nat) :
    VolumesOk (persisted stores k s) ∧
      ∀ v, volumeIdentity (persisted stores k s) v = volumeIdentity s v := by
  unfold persisted
  generalize stores.take k = done
  induction done generalizing s with
  | nil => exact ⟨volumes, fun _ => rfl⟩
  | cons store done ih =>
    have queues : (persist s store).volumeFreeLfqueue = s.volumeFreeLfqueue ∧
        (persist s store).volumeInuseLfqueue = s.volumeInuseLfqueue := by
      cases store <;> exact ⟨rfl, rfl⟩
    obtain ⟨later, identity⟩ := ih (volumes.congr (persist_identity s store) queues.1 queues.2)
    exact ⟨later, fun v => (identity v).trans (persist_identity s store v)⟩

end Volumes

end BurstBuffer.Source
