import BurstBuffer.Invariants.Start

/-!
# The effect of nvm_system_close

The last flush writes what is still in the dirty queues; with the blocks written
before it, each file then holds what its volume showed.
-/
namespace BurstBuffer.Source

open Library

variable {C : CuckoohashMap} {N : Nat}

theorem closeFlushOne_eq_some {s t : State C N} {v : VolumeIdx} :
    closeFlushOne v s = some t ↔ ∃ i q w file, (s.inodeDirtyLfqueue v).dequeue = some (i, q) ∧
      (s.inodeTable i).volume = some w ∧ (s.volumeTable w).fd = some file ∧
      t = { s with
        inodeDirtyLfqueue := Function.update s.inodeDirtyLfqueue v q
        files := Function.update s.files file
          (writeAt (s.files file) (blockSize * (s.inodeTable i).lbn) (s.blockOf i)) } := by
  constructor
  · intro flushed
    obtain ⟨⟨i, q⟩, head, afterHead⟩ := Option.bind_eq_some_iff.mp flushed
    obtain ⟨w, owner, afterOwner⟩ := Option.bind_eq_some_iff.mp afterHead
    obtain ⟨file, fd, done⟩ := Option.bind_eq_some_iff.mp afterOwner
    cases done
    exact ⟨i, q, w, file, head, owner, fd, rfl⟩
  · rintro ⟨i, q, w, file, head, owner, fd, rfl⟩
    simp [closeFlushOne, head, owner, fd, State.blockOf, State.setFile]

/-- The last flush only touches the dirty queues and the files. -/
theorem closeFlushLoop_frame {v : VolumeIdx} {n : Nat} {s t : State C N}
    (flushed : closeFlushLoop v n s = some t) :
    t = { s with inodeDirtyLfqueue := t.inodeDirtyLfqueue, files := t.files } := by
  induction n generalizing s with
  | zero =>
    cases flushed
    rfl
  | succ n ih =>
    obtain ⟨u, one, rest⟩ := Option.bind_eq_some_iff.mp flushed
    obtain ⟨i, q, w, file, _, _, _, rfl⟩ := closeFlushOne_eq_some.mp one
    rw [ih rest]

theorem closeFlushVolumes_frame {l : List VolumeIdx} {s t : State C N}
    (flushed : l.foldlM closeFlushVolume s = some t) :
    t = { s with inodeDirtyLfqueue := t.inodeDirtyLfqueue, files := t.files } := by
  apply foldlM_invariant (I := fun _ u =>
    u = { s with inodeDirtyLfqueue := u.inodeDirtyLfqueue, files := u.files }) _ rfl flushed
  intro v rest u x before one
  rw [closeFlushLoop_frame one, before]

theorem closeVolumes_frame {n : Nat} {s t : State C N} (closed : closeVolumes n s = some t) :
    (∀ v, (t.volumeTable v).blockIndex = (s.volumeTable v).blockIndex) ∧
      t = { s with volumeTable := t.volumeTable, volumeInuseLfqueue := t.volumeInuseLfqueue } := by
  induction n generalizing s with
  | zero =>
    cases closed
    exact ⟨fun _ => rfl, rfl⟩
  | succ n ih =>
    obtain ⟨⟨v, q⟩, _, rest⟩ := Option.bind_eq_some_iff.mp closed
    obtain ⟨blocks, frame⟩ := ih rest
    refine ⟨fun w => ?_, by rw [frame]; rfl⟩
    rw [blocks]
    by_cases same : w = v
    · subst w
      simp
    · simp [same]

/-- What survives a close. -/
structure Closed (s t : State C N) : Prop where
  entries : ∀ i, t.inodeTable i = settledEntry (s.inodeTable i)
  volumeBlock : ∀ v, (t.volumeTable v).blockIndex = (s.volumeTable v).blockIndex
  blocks : t.blockTable = s.blockTable

theorem nvmSystemClose_closed {s t : State C N} (closed : nvmSystemClose s = some t) :
    Closed s t := by
  obtain ⟨u, flushed, rest⟩ := Option.bind_eq_some_iff.mp closed
  have flushFrame := closeFlushVolumes_frame flushed
  obtain ⟨entries, settledFrame⟩ := settleInodes_spec u
  obtain ⟨volumeBlock, closeFrame⟩ := closeVolumes_frame rest
  have uEntries : u.inodeTable = s.inodeTable := by rw [flushFrame]
  have uVolumes : (settleInodes u).volumeTable = s.volumeTable := by rw [settledFrame, flushFrame]
  have tEntries : t.inodeTable = (settleInodes u).inodeTable := by rw [closeFrame]
  refine ⟨fun i => ?_, fun v => ?_, ?_⟩
  · rw [tEntries, entries, uEntries]
  · rw [volumeBlock, uVolumes]
  · rw [closeFrame, settledFrame, flushFrame]

theorem Closed.written {s t : State C N} (closed : Closed s t) (i : InodeIdx N) :
    isUnwritten (t.inodeTable i).state = false := by
  rw [closed.entries, settledEntry]
  split
  · rfl
  · rename_i written
    simpa using written

/-- No queued inode has the block number `lbn`. -/
def NotQueued (s : State C N) (lbn : Nat) : Prop :=
  ∀ v i, i ∈ (s.inodeDirtyLfqueue v).values → (s.inodeTable i).lbn ≠ lbn

theorem closeFlushOne_untouched {s t : State C N} {v : VolumeIdx} {lbn : Nat}
    (away : NotQueued s lbn) (flushed : closeFlushOne v s = some t) (name : String) :
    NotQueued t lbn ∧
      readBlock blockSize (t.files name) lbn = readBlock blockSize (s.files name) lbn := by
  obtain ⟨i, q, w, file, head, _, _, rfl⟩ := closeFlushOne_eq_some.mp flushed
  have popped := LfQueue.dequeue_eq_some.mp head
  have mine : (s.inodeTable i).lbn ≠ lbn :=
    away v i (by rw [popped]; exact List.mem_cons_self)
  constructor
  · intro x j member
    apply away x j
    by_cases here : x = v
    · subst x
      rw [popped]
      exact List.mem_cons_of_mem i (by simpa using member)
    · simpa [Function.update_of_ne here] using member
  · dsimp only
    by_cases here : name = file
    · subst name
      rw [Function.update_self, readBlock_writeBlock, if_neg mine.symm]
    · rw [Function.update_of_ne here]

/-- A close leaves every block number alone that no queued inode has. -/
theorem nvmSystemClose_untouched {s t : State C N} {lbn : Nat}
    (closed : nvmSystemClose s = some t) (away : NotQueued s lbn) (name : String) :
    readBlock blockSize (t.files name) lbn = readBlock blockSize (s.files name) lbn := by
  obtain ⟨u, flushed, rest⟩ := Option.bind_eq_some_iff.mp closed
  have loop : ∀ v n (x y : State C N), NotQueued x lbn → closeFlushLoop v n x = some y →
      NotQueued y lbn ∧
        readBlock blockSize (y.files name) lbn = readBlock blockSize (x.files name) lbn := by
    intro v n
    induction n with
    | zero =>
      rintro x y before done
      cases done
      exact ⟨before, rfl⟩
    | succ n ih =>
      rintro x y before looped
      obtain ⟨z, first, others⟩ := Option.bind_eq_some_iff.mp looped
      obtain ⟨middle, same⟩ := closeFlushOne_untouched before first name
      obtain ⟨last, same'⟩ := ih z y middle others
      exact ⟨last, same'.trans same⟩
  have drained := foldlM_invariant (I := fun _ x => NotQueued x lbn ∧
      readBlock blockSize (x.files name) lbn = readBlock blockSize (s.files name) lbn)
    (fun v _ x y before step => by
      obtain ⟨after, same⟩ := loop v _ x y before.1 step
      exact ⟨after, same.trans before.2⟩) ⟨away, rfl⟩ flushed
  have files : t.files = u.files := by
    rw [(closeVolumes_frame rest).2, (settleInodes_spec u).2]
  rw [files]
  exact drained.2

/-- After a close, nvm_system_init recovers nothing. -/
theorem restart_spec {cwd : String} {s t : State C N}
    (restarted : (nvmSystemClose s).bind (nvmSystemInit cwd) = some t) :
    ∃ u, nvmSystemClose s = some u ∧ Closed s u ∧ Fresh u t := by
  obtain ⟨u, closed, started⟩ := Option.bind_eq_some_iff.mp restarted
  have after := nvmSystemClose_closed closed
  obtain ⟨t', started', fresh⟩ := nvmSystemInit_spec
    (recoveryStart_of_written cwd after.written)
  cases started.symm.trans started'
  exact ⟨u, closed, after, fresh⟩

/-- While the dirty queues of the state `s` are being drained: what is no longer
queued is on file, and nothing but queued blocks is written. -/
structure Draining (s t : State C N) : Prop where
  queued : ∀ v i, i ∈ (t.inodeDirtyLfqueue v).values → i ∈ (s.inodeDirtyLfqueue v).values
  written : ∀ i, (s.inodeTable i).state ≠ .free →
    (∃ v, i ∈ (t.inodeDirtyLfqueue v).values) ∨ OnFile t i
  others : ∀ v lbn file, validInode s v lbn = none → (s.volumeTable v).fd = some file →
    readBlock blockSize (t.files file) lbn = readBlock blockSize (s.files file) lbn
  frame : t = { s with inodeDirtyLfqueue := t.inodeDirtyLfqueue, files := t.files }

theorem Draining.start {s : State C N} (cycle : LifeCycle s []) (settled : Settled s) :
    Draining s s := by
  refine ⟨fun _ _ member => member, fun i used => ?_, fun _ _ _ _ _ => rfl, rfl⟩
  cases state : (s.inodeTable i).state with
  | free => exact absurd state used
  | dirty =>
    have ok := cycle.inode i
    obtain ⟨v, owner⟩ := Option.isSome_iff_exists.mp (ok.owned used)
    have once := ok.dirty v
    rw [state, owner, if_pos (by simp)] at once
    exact Or.inl ⟨v, List.count_pos_iff.mp (by omega)⟩
  | sync => exact Or.inr (settled i (Or.inl state))
  | clean => exact Or.inr (settled i (Or.inr state))

section Drain

variable {s t u : State C N}

theorem Draining.entries (draining : Draining s t) : t.inodeTable = s.inodeTable := by
  rw [draining.frame]

theorem Draining.fd (draining : Draining s t) (v : VolumeIdx) :
    (t.volumeTable v).fd = (s.volumeTable v).fd := by
  rw [draining.frame]

/-- Writing the block of one inode in use keeps the blocks of the others on file. -/
theorem readBlock_other (cycle : LifeCycle s []) (files : FilesOk s) {i : InodeIdx N}
    {w : VolumeIdx} {file : String} (used : (s.inodeTable i).state ≠ .free)
    (owner : (s.inodeTable i).volume = some w) (fd : (s.volumeTable w).fd = some file)
    (before : String → File UInt8) {v : VolumeIdx} {lbn : Nat} {name : String}
    (other : validInode s v lbn ≠ some i) (named : (s.volumeTable v).fd = some name) :
    readBlock blockSize (Function.update before file
        (writeAt (before file) (blockSize * (s.inodeTable i).lbn) (s.blockOf i)) name) lbn =
      readBlock blockSize (before name) lbn := by
  by_cases same : name = file
  · subst name
    cases files.distinct v w file named fd
    rw [Function.update_self, readBlock_writeBlock, if_neg]
    rintro rfl
    exact other (cycle.validInode_self used owner)
  · rw [Function.update_of_ne same]

/-- One round of the last flush succeeds and keeps the drain going. -/
theorem Draining.round (cycle : LifeCycle s []) (files : FilesOk s) (draining : Draining s t)
    {v : VolumeIdx} (more : (t.inodeDirtyLfqueue v).values ≠ []) :
    ∃ u, closeFlushOne v t = some u ∧ Draining s u ∧
      (u.inodeDirtyLfqueue v).getSize + 1 = (t.inodeDirtyLfqueue v).getSize ∧
      ∀ w, w ≠ v → u.inodeDirtyLfqueue w = t.inodeDirtyLfqueue w := by
  obtain ⟨i, rest, values⟩ := List.exists_cons_of_ne_nil more
  obtain ⟨q, head⟩ : ∃ q, (t.inodeDirtyLfqueue v).dequeue = some (i, q) := by
    refine ⟨⟨rest, ?_⟩, LfQueue.dequeue_eq_some.mpr values⟩
    have fits := (t.inodeDirtyLfqueue v).fits
    rw [values, List.length_cons] at fits
    omega
  have popped := LfQueue.dequeue_eq_some.mp head
  obtain ⟨isDirty, owner, _⟩ := cycle.dirty_of_queued
    (draining.queued v i (by rw [popped]; exact List.mem_cons_self))
  have used : (s.inodeTable i).state ≠ .free := by
    rw [isDirty]
    decide
  obtain ⟨file, fd⟩ := files.of_validInode (cycle.validInode_self used owner)
  have blocks : t.blockOf i = s.blockOf i := by
    rw [draining.frame]
    rfl
  refine ⟨_, closeFlushOne_eq_some.mpr ⟨i, q, v, file, head, by rw [draining.entries, owner],
    by rw [draining.fd, fd], rfl⟩, ⟨fun w j member => ?_, fun j inUse => ?_,
    fun w lbn name unbound named => ?_, ?_⟩, ?_, fun w other => Function.update_of_ne other _ _⟩
  · apply draining.queued
    by_cases same : w = v
    · subst w
      rw [popped]
      exact List.mem_cons_of_mem i (by simpa using member)
    · simpa [Function.update_of_ne same] using member
  · by_cases same : j = i
    · subst j
      refine Or.inr fun w name owned named => ?_
      dsimp only at owned named ⊢
      rw [draining.entries, owner] at owned
      cases owned
      rw [draining.fd, fd] at named
      cases named
      rw [Function.update_self, readBlock_writeBlock, if_pos rfl]
      rfl
    · rcases draining.written j inUse with ⟨w, member⟩ | onFile
      · refine Or.inl ⟨w, ?_⟩
        by_cases here : w = v
        · subst w
          rw [popped] at member
          simpa [same] using member
        · simpa [Function.update_of_ne here] using member
      · refine Or.inr fun w name owned named => ?_
        dsimp only at owned named ⊢
        have before := onFile w name owned named
        rw [draining.entries] at owned before ⊢
        rw [draining.fd] at named
        have key := cycle.validInode_self inUse owned
        rw [blocks, readBlock_other cycle files used owner fd t.files
          (by rw [key]; simpa using same) named]
        rw [State.blockOf, draining.entries] at before
        exact before
  · rw [← draining.others w lbn name unbound named]
    dsimp only
    rw [draining.entries, blocks]
    exact readBlock_other cycle files used owner fd t.files (by rw [unbound]; simp) named
  · rw [draining.frame]
  · simp only [Function.update_self, LfQueue.getSize, popped, List.length_cons]

/-- The flush loop of one volume empties its dirty queue. -/
theorem Draining.volume (cycle : LifeCycle s []) (files : FilesOk s) (draining : Draining s t)
    (v : VolumeIdx) :
    ∃ u, closeFlushVolume t v = some u ∧ Draining s u ∧ (u.inodeDirtyLfqueue v).values = [] ∧
      ∀ w, w ≠ v → u.inodeDirtyLfqueue w = t.inodeDirtyLfqueue w := by
  have loop : ∀ n (t : State C N), Draining s t → (t.inodeDirtyLfqueue v).getSize = n →
      ∃ u, closeFlushLoop v n t = some u ∧ Draining s u ∧ (u.inodeDirtyLfqueue v).values = [] ∧
        ∀ w, w ≠ v → u.inodeDirtyLfqueue w = t.inodeDirtyLfqueue w := by
    intro n
    induction n with
    | zero =>
      intro t draining size
      exact ⟨t, rfl, draining, List.eq_nil_of_length_eq_zero size, fun _ _ => rfl⟩
    | succ n ih =>
      intro t draining size
      have more : (t.inodeDirtyLfqueue v).values ≠ [] := by
        intro empty
        rw [LfQueue.getSize, empty] at size
        cases size
      obtain ⟨x, one, middle, less, others⟩ := draining.round cycle files more
      obtain ⟨u, rest, last, empty, others'⟩ := ih x middle (by omega)
      exact ⟨u, by rw [closeFlushLoop, one]; exact rest, last, empty,
        fun w other => (others' w other).trans (others w other)⟩
  exact loop _ t draining rfl

/-- The whole last flush: every block of an inode in use is on file afterwards. -/
theorem closeFlush_spec (cycle : LifeCycle s []) (files : FilesOk s) (settled : Settled s) :
    ∃ t, (List.finRange maxVolumeEntry).foldlM closeFlushVolume s = some t ∧ Draining s t ∧
      ∀ i, (s.inodeTable i).state ≠ .free → OnFile t i := by
  let I : List VolumeIdx → State C N → Prop := fun rest t =>
    Draining s t ∧ ∀ v, v ∉ rest → (t.inodeDirtyLfqueue v).values = []
  have start : I (List.finRange maxVolumeEntry) s :=
    ⟨Draining.start cycle settled, fun v missing => absurd (List.mem_finRange v) missing⟩
  have round : ∀ v rest t, I (v :: rest) t → ∃ u, closeFlushVolume t v = some u ∧ I rest u := by
    rintro v rest t ⟨draining, empty⟩
    obtain ⟨u, flushed, after, drained, others⟩ := draining.volume cycle files v
    refine ⟨u, flushed, after, fun w outside => ?_⟩
    by_cases same : w = v
    · exact same ▸ drained
    · rw [others w same]
      exact empty w (by simp [same, outside])
  obtain ⟨t, flushed, draining, empty⟩ := foldlM_total round start
  refine ⟨t, flushed, draining, fun i used => ?_⟩
  rcases draining.written i used with ⟨v, member⟩ | onFile
  · rw [empty v (by simp)] at member
    cases member
  · exact onFile

theorem closeVolumes_total : ∀ n (s : State C N), s.volumeInuseLfqueue.getSize = n →
    ∃ t, closeVolumes n s = some t := by
  intro n
  induction n with
  | zero => exact fun s _ => ⟨s, rfl⟩
  | succ n ih =>
    intro s size
    have more : s.volumeInuseLfqueue.values ≠ [] := by
      intro empty
      rw [LfQueue.getSize, empty] at size
      cases size
    obtain ⟨v, rest, values⟩ := List.exists_cons_of_ne_nil more
    have fits := s.volumeInuseLfqueue.fits
    rw [LfQueue.getSize] at size
    rw [values, List.length_cons] at fits size
    have head : s.volumeInuseLfqueue.dequeue = some (v, ⟨rest, by omega⟩) :=
      LfQueue.dequeue_eq_some.mpr values
    obtain ⟨t, closed⟩ := ih
      (State.setVolume { s with volumeInuseLfqueue := ⟨rest, by omega⟩ } v
        { s.volumeTable v with fd := none, hashTable := none }) (by simp [LfQueue.getSize]; omega)
    exact ⟨t, by rw [closeVolumes, head]; exact closed⟩

/-- nvm_system_close returns, and each file then holds the images its volume showed. -/
theorem nvmSystemClose_images (cycle : LifeCycle s []) (files : FilesOk s) (settled : Settled s) :
    ∃ t, nvmSystemClose s = some t ∧ ∀ v file lbn, (s.volumeTable v).fd = some file →
      visibleImage s v lbn = some (readBlock blockSize (t.files file) lbn) := by
  obtain ⟨u, flushed, draining, onFile⟩ := closeFlush_spec cycle files settled
  obtain ⟨t, closed⟩ := closeVolumes_total _ (settleInodes u) rfl
  have done : nvmSystemClose s = some t := by
    rw [nvmSystemClose, flushed]
    exact closed
  have sameFiles : t.files = u.files := by
    rw [(closeVolumes_frame closed).2, (settleInodes_spec u).2]
  refine ⟨t, done, fun v file lbn named => ?_⟩
  rw [sameFiles]
  unfold visibleImage
  cases valid : validInode s v lbn with
  | none =>
    rw [named, Option.map_some, ← draining.others v lbn file valid named]
  | some i =>
    obtain ⟨used, owner, key⟩ := ((cycle.inode i).bound v lbn).mp valid
    have written := onFile i used v file (by rw [draining.entries, owner])
      (by rw [draining.fd, named])
    have blocks : u.blockOf i = s.blockOf i := by
      rw [draining.frame]
      rfl
    rw [draining.entries, key, blocks] at written
    rw [written]

end Drain

end BurstBuffer.Source
