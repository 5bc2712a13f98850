import BurstBuffer.Invariants.CallBlocks

/-!
# The blocks that concurrent calls store

Between the step that makes a FREE inode DIRTY and the copy of the data the inode holds the
bytes of an older block: it carries the key of its block and does not yet hold the block.
Otherwise the block under a key is that of the inode that carries it, else that of the file.
-/
namespace BurstBuffer.Source

open Library

section Places

variable {N : Nat}

/-- The inode the writer has made DIRTY that was FREE, and to which it has yet to copy. -/
def WriterPc.unfilled : WriterPc N → List (InodeIdx N)
  | .writeData r .free => [r.inode]
  | _ => []

theorem WriterPc.writeData_of_unfilled {pc : WriterPc N} {i : InodeIdx N}
    (member : i ∈ pc.unfilled) : ∃ r, pc = .writeData r .free ∧ r.inode = i := by
  cases pc with
  | writeData r oldState =>
    cases oldState with
    | free => exact ⟨r, rfl, (List.mem_singleton.mp member).symm⟩
    | dirty | sync | clean => cases member
  | idle | lockNode | lockInode | readState | storeDirty | countDirty | enqueue | unlockInode
  | unlockNode => cases member

theorem WriterPc.locked_of_unfilled {pc : WriterPc N} {i : InodeIdx N} (member : i ∈ pc.unfilled) :
    i ∈ pc.locked := by
  obtain ⟨r, rfl, rfl⟩ := writeData_of_unfilled member
  exact List.mem_cons_self

theorem WriterPc.unfilled_of_not_copying {pc : WriterPc N} (other : pc.copying = false) :
    pc.unfilled = [] := by
  cases pc with
  | writeData => cases other
  | idle | lockNode | lockInode | readState | storeDirty | countDirty | enqueue | unlockInode
  | unlockNode => rfl

end Places

variable {C : CuckoohashMap} {W : Type} {N S : Nat}

/-- Inode `i` holds the block under `key`. -/
def HoldsBlock (s : CallState C W N S) (i : InodeIdx N) (key : VolumeIdx × Nat) : Prop :=
  Carries s i key ∧ ∀ w, i ∉ (s.core.writer w).unfilled

/-- `block` is the block under `key`. -/
structure Stores (s : CallState C W N S) (key : VolumeIdx × Nat) (block : Block) : Prop where
  held : ∀ i, HoldsBlock s i key → block = s.core.blockOf i
  cached : (∀ i, ¬ HoldsBlock s i key) → block = readBlock blockSize (s.core.cache key.1) key.2

section Steps

variable {s t : CallState C W N S} {a : Assignment N} {key : VolumeIdx × Nat} {block : Block}

/-- A step that changes neither what holds a block nor the block. -/
theorem Stores.of_same (stores : Stores s key block)
    (holds : ∀ i, HoldsBlock t i key ↔ HoldsBlock s i key)
    (blocks : ∀ i, HoldsBlock s i key → t.core.blockOf i = s.core.blockOf i)
    (files : (∀ i, ¬ HoldsBlock s i key) → readBlock blockSize (t.core.cache key.1) key.2 =
      readBlock blockSize (s.core.cache key.1) key.2) : Stores t key block where
  held i held := by
    rw [blocks i ((holds i).mp held)]
    exact stores.held i ((holds i).mp held)
  cached none := by
    have before : ∀ i, ¬ HoldsBlock s i key := fun i held => none i ((holds i).mpr held)
    rw [files before]
    exact stores.cached before

theorem holdsBlock_congr (states : ∀ i, t.core.state i = .free ↔ s.core.state i = .free)
    (keys : ∀ i, s.core.state i ≠ .free → t.volume i = s.volume i ∧ t.lbn i = s.lbn i)
    (writers : ∀ w, (t.core.writer w).unfilled = (s.core.writer w).unfilled) (i : InodeIdx N) :
    HoldsBlock t i key ↔ HoldsBlock s i key := by
  constructor
  · rintro ⟨⟨used, volume, lbn⟩, filled⟩
    have used' : s.core.state i ≠ .free := fun isFree => used ((states i).mpr isFree)
    obtain ⟨volume', lbn'⟩ := keys i used'
    exact ⟨⟨used', volume' ▸ volume, lbn' ▸ lbn⟩, fun w => writers w ▸ filled w⟩
  · rintro ⟨⟨used, volume, lbn⟩, filled⟩
    obtain ⟨volume', lbn'⟩ := keys i used
    exact ⟨⟨fun isFree => used ((states i).mp isFree), volume'.trans volume, lbn'.trans lbn⟩,
      fun w => (writers w).symm ▸ filled w⟩

variable [Fintype W]

/-- What a writer is about to fill is DIRTY. -/
theorem dirty_of_unfilled (calls : CallsOk s) {w : W} {i : InodeIdx N}
    (member : i ∈ (s.core.writer w).unfilled) : s.core.state i = .dirty := by
  obtain ⟨r, here, rfl⟩ := WriterPc.writeData_of_unfilled member
  have knows := calls.handOff.knows w
  rw [here] at knows
  exact knows

/-- What a flusher has locked holds its block. -/
theorem BlocksOk.holdsBlock_of_dirties (ok : BlocksOk a s) (calls : CallsOk s) {v : VolumeIdx}
    {i : InodeIdx N} (member : i ∈ (s.core.flusher v).dirties) : HoldsBlock s i (a.key i) := by
  obtain ⟨dirty, _, unlocked⟩ := calls.handOff.dirties_alone member
  exact ⟨ok.agrees i (by rw [dirty]; decide), fun w unfilled =>
    unlocked w (WriterPc.locked_of_unfilled unfilled)⟩

theorem BlocksOk.stores_flusher [NeZero S] (ok : BlocksOk a s) (calls : CallsOk s) {v : VolumeIdx}
    {core : ThreadState W N S} (step : drainNext s.lbn s.volume v s.core = some core)
    (stores : Stores s key block) : Stores { s with core := core } key block := by
  have effect := drain_effect calls.handOff step
  rw [ok.drain_eq calls] at step
  obtain ⟨blocks, _, cache⟩ := flusher_contents ok.low
    (fun i member => ok.durability.hands v i (List.mem_append_right _ member)) step
  refine stores.of_same (holdsBlock_congr (fun i => ?_) (fun _ _ => ⟨rfl, rfl⟩)
    fun w => by rw [effect.writers]) (fun i _ => congrFun blocks i) fun none => ?_
  · rcases effect.state i with same | ⟨old, new⟩
    · simp only [same]
    · simp only [old, new]
      exact iff_of_false (by decide) (by decide)
  · refine cache key.1 key.2 ?_
    rintro i member ⟨volume, lbn⟩
    have holds := ok.holdsBlock_of_dirties calls member
    rw [show a.key i = key from Prod.ext volume lbn] at holds
    exact none i holds

theorem stores_syncer (calls : CallsOk s) {k : Fin S} {core : ThreadState W N S}
    (step : syncerNext k s.core = some core) (stores : Stores s key block) :
    Stores { s with core := core } key block := by
  obtain ⟨writers, states⟩ := sync_effect calls.handOff step
  obtain ⟨blocks, cache, _⟩ := syncer_contents step
  refine stores.of_same
    (holdsBlock_congr (fun i => ?_) (fun _ _ => ⟨rfl, rfl⟩) fun w => by rw [writers])
    (fun i _ => congrFun blocks i) fun _ => by rw [cache]
  rcases states i with same | ⟨old, new⟩
  · simp only [same]
  · simp only [old, new]
    exact iff_of_false (by decide) (by decide)

omit [Fintype W] in
/-- When a CLEAN inode becomes FREE, its block is that of the file. -/
theorem BlocksOk.stores_free (ok : BlocksOk a s) {idx : InodeIdx N}
    (clean : s.core.state idx = .clean)
    (core : t.core = { s.core with state := Function.update s.core.state idx .free })
    (keys : t.volume = s.volume ∧ t.lbn = s.lbn) (stores : Stores s key block) :
    Stores t key block := by
  obtain ⟨volume, lbn⟩ := keys
  have holds : ∀ i, HoldsBlock t i key ↔ i ≠ idx ∧ HoldsBlock s i key := by
    intro i
    simp only [HoldsBlock, Carries, volume, lbn, core]
    by_cases here : i = idx
    · simp [here]
    · simp [here]
  by_cases held : HoldsBlock s idx key
  · refine ⟨fun i holds' => ?_, fun _ => ?_⟩
    · obtain ⟨other, held'⟩ := (holds i).mp holds'
      exact absurd (ok.alone held'.1 held.1) other
    · rw [stores.held idx held, core]
      exact (ok.clean held.1 clean).1.symm
  · refine stores.of_same (fun i => ?_) (fun i _ => by rw [core]; rfl) fun _ => by rw [core]
    rw [holds, and_iff_right_iff_imp]
    rintro held' rfl
    exact held held'

theorem BlocksOk.stores_balloon (ok : BlocksOk a s) (calls : CallsOk s)
    {b : Fin defaultNumBalloon} [DecidableEq W] [NeZero S] (step : balloonNext b s = some t)
    (stores : Stores s key block) : Stores t key block := by
  obtain ⟨volume, lbn, _, ⟨cleanQueue, core⟩ | ⟨idx, p, freeing, core⟩⟩ := balloonNext_core step
  · exact stores.of_same (holdsBlock_congr (fun i => by rw [core])
      (fun i _ => ⟨by rw [volume], by rw [lbn]⟩) fun w => by rw [core])
      (fun i _ => by rw [core]; rfl) fun _ => by rw [core]
  · have knows := calls.balloon b
    rw [freeing] at knows
    exact ok.stores_free knows.2 core ⟨volume, lbn⟩ stores

section Call

variable [DecidableEq W] {w : W} {c request : Call} {p : NodePtr} {r : Request N}

omit [Fintype W] [DecidableEq W] in
theorem callWrites_outside (was : (s.call w).inside = false) :
    callWrites s (StorageEvent.step (.call w request) : StorageEvent W S) = [] := by
  cases pc : s.call w with
  | inBlock =>
    rw [pc] at was
    cases was
  | _ => simp only [callWrites, pc]

omit [Fintype W] [DecidableEq W] in
theorem callWrites_not_copying (other : (s.core.writer w).copying = false) :
    callWrites s (StorageEvent.step (.call w request) : StorageEvent W S) = [] := by
  cases pc : s.call w with
  | inBlock =>
    cases writer : s.core.writer w with
    | writeData =>
      rw [writer] at other
      cases other
    | _ => simp only [callWrites, pc, writer]
  | _ => simp only [callWrites, pc]

/-- Storing DIRTY changes no block. -/
theorem stores_dirty (calls : CallsOk s) {core : ThreadState W N S} {oldState : InodeState}
    (here : s.core.writer w = .storeDirty r oldState)
    (next : core.writer w = .writeData r oldState)
    (state : core.state = Function.update s.core.state r.inode .dirty)
    (blocks : core.blockOf = s.core.blockOf) (cache : core.cache = s.core.cache)
    (writers : ∀ x, x ≠ w → core.writer x = s.core.writer x) (stores : Stores s key block) :
    Stores { s with core := core } key block := by
  have knows := calls.handOff.knows w
  rw [here] at knows
  have old : s.core.state r.inode = oldState := knows
  refine stores.of_same (fun i => ?_) (fun i _ => congrFun blocks i) fun _ => by rw [cache]
  have unfilled : (∀ x, i ∉ (core.writer x).unfilled) ↔
      (∀ x, i ∉ (s.core.writer x).unfilled) ∧ i ∉ (core.writer w).unfilled := by
    constructor
    · refine fun filled => ⟨fun x => ?_, filled w⟩
      by_cases mine : x = w
      · rw [mine, here]
        exact List.not_mem_nil
      · exact writers x mine ▸ filled x
    · rintro ⟨filled, mine⟩ x
      by_cases same : x = w
      · exact same ▸ mine
      · exact (writers x same).symm ▸ filled x
  simp only [HoldsBlock, Carries, unfilled, next, state]
  by_cases mine : i = r.inode
  · subst mine
    -- a FREE inode holds nothing before, and is yet to be filled after
    cases oldState with
    | free => simp [old, WriterPc.unfilled]
    | dirty | sync | clean => simp [old, WriterPc.unfilled]
  · have apart : i ∉ (WriterPc.writeData r oldState).unfilled := fun member =>
      mine (List.mem_singleton.mp (WriterPc.locked_of_unfilled member))
    simp only [Function.update_of_ne mine, apart, not_false_eq_true, and_true]

/-- The copy of the data is the write. -/
theorem stores_data (calls : CallsOk s) {core : ThreadState W N S} {oldState : InodeState}
    (inside : s.call w = .inBlock c p) (here : s.core.writer w = .writeData r oldState)
    (next : core.writer w = .countDirty r oldState) (state : core.state = s.core.state)
    (others : ∀ j, j ≠ r.inode → core.blockOf j = s.core.blockOf j)
    (cache : core.cache = s.core.cache)
    (writers : ∀ x, x ≠ w → core.writer x = s.core.writer x)
    {blocks : VolumeIdx × Nat → Block} (stores : ∀ key, Stores s key (blocks key))
    (key : VolumeIdx × Nat) :
    Stores { s with core := core } key
      (Function.update blocks (c.volume, c.lbn) (core.blockOf r.inode) key) := by
  have asked : (s.core.writer w).request = some r := by
    rw [here]
    rfl
  have mine : r.inode ∈ (s.core.writer w).locked := by
    rw [here]
    exact List.mem_cons_self
  obtain ⟨_, _, alone, _⟩ := calls.handOff.locked_alone mine
  obtain ⟨volume, lbn⟩ := calls.key_inside inside asked
  have knows := calls.handOff.knows w
  rw [here] at knows
  have dirty : s.core.state r.inode = .dirty := knows
  have carries : Carries s r.inode (c.volume, c.lbn) :=
    ⟨by rw [dirty]; decide, volume, lbn⟩
  have unfilled : ∀ i, (∀ x, i ∉ (core.writer x).unfilled) ↔
      ∀ x, x ≠ w → i ∉ (s.core.writer x).unfilled := by
    intro i
    constructor
    · exact fun filled x other => writers x other ▸ filled x
    · intro filled x
      by_cases same : x = w
      · rw [same, next]
        exact List.not_mem_nil
      · exact (writers x same).symm ▸ filled x same
  have apart : ∀ {i}, i ≠ r.inode → i ∉ (s.core.writer w).unfilled := by
    intro i other member
    rw [here] at member
    exact other (List.mem_singleton.mp (WriterPc.locked_of_unfilled member))
  by_cases same : key = (c.volume, c.lbn)
  · subst same
    rw [Function.update_self]
    have held : HoldsBlock { s with core := core } r.inode (c.volume, c.lbn) :=
      ⟨⟨by simp only [state]; exact carries.1, carries.2⟩,
        (unfilled r.inode).mpr fun x other member =>
          alone x other (WriterPc.locked_of_unfilled member)⟩
    refine ⟨fun i holds => ?_, fun none => absurd held (none r.inode)⟩
    have theirs : Carries s i (c.volume, c.lbn) := by
      obtain ⟨⟨used, carried⟩, _⟩ := holds
      exact ⟨by simpa only [state] using used, carried⟩
    rw [calls.carries_alone inside asked theirs]
  · rw [Function.update_of_ne same]
    have elsewhere : ∀ {i}, Carries s i key → i ≠ r.inode := by
      rintro i theirs rfl
      exact same (theirs.key_eq carries)
    refine (stores key).of_same (fun i => ?_) (fun i held => others i (elsewhere held.1))
      fun _ => by rw [cache]
    simp only [HoldsBlock, Carries, unfilled, state]
    constructor
    · rintro ⟨theirs, filled⟩
      refine ⟨theirs, fun x => ?_⟩
      by_cases mine : x = w
      · exact mine ▸ apart (elsewhere theirs)
      · exact filled x mine
    · rintro ⟨theirs, filled⟩
      exact ⟨theirs, fun x _ => filled x⟩

/-- A step of a call is a write, or none. -/
theorem CallBlocks.stores_call [NeZero S] (ok : CallBlocks s) (calls : CallsOk s)
    (step : callNext w request s = some t) {blocks : VolumeIdx × Nat → Block}
    (stores : ∀ key, Stores s key (blocks key)) :
    ∃ after, (blockStore (VolumeIdx × Nat) UInt8 blockSize).Shows storeLabel blocks
        (callWrites s (StorageEvent.step (.call w request) : StorageEvent W S)) after ∧
      ∀ key, Stores t key (after key) := by
  have unwritten : ∀ {u : CallState C W N S},
      callWrites s (StorageEvent.step (.call w request) : StorageEvent W S) = [] →
      (∀ key, Stores u key (blocks key)) →
      ∃ after, (blockStore (VolumeIdx × Nat) UInt8 blockSize).Shows storeLabel blocks
          (callWrites s (StorageEvent.step (.call w request) : StorageEvent W S)) after ∧
        ∀ key, Stores u key (after key) := by
    intro u none same
    rw [none]
    exact ⟨blocks, .refl _, same⟩
  have effect := calls.call_effect step
  have outside : ∀ {core : ThreadState W N S}, t.core = core → core.state = s.core.state →
      core.cache = s.core.cache → core.blockOf = s.core.blockOf →
      (core.writer w).copying = false → (s.core.writer w).copying = false →
      (∀ i, s.core.state i ≠ .free → t.volume i = s.volume i ∧ t.lbn i = s.lbn i) →
      ∀ key, Stores t key (blocks key) := by
    rintro core rfl state cache same after before keys key
    refine (stores key).of_same (holdsBlock_congr (fun i => by rw [state]) keys fun x => ?_)
      (fun i _ => congrFun same i) fun _ => by rw [cache]
    by_cases mine : x = w
    · rw [mine, WriterPc.unfilled_of_not_copying after, WriterPc.unfilled_of_not_copying before]
    · rw [effect.writers x mine]
  cases calls.call_move step with
  | quiet was core keys after =>
    have idle := calls.idle_of_outside rfl was
    exact unwritten (callWrites_outside was)
      (outside core rfl rfl rfl (by rw [idle]; rfl) (by rw [idle]; rfl) keys)
  | enter c p i was core keys inside =>
    have idle := calls.idle_of_outside rfl was
    exact unwritten (callWrites_outside was)
      (outside core rfl rfl rfl (by rw [ThreadState.toWriter_self]; rfl) (by rw [idle]; rfl)
        fun i _ => ⟨by rw [keys.1], by rw [keys.2]⟩)
  | leave r last core keys after =>
    exact unwritten (callWrites_not_copying (by rw [last]; rfl))
      (outside core rfl rfl rfl (by rw [ThreadState.toWriter_self]; rfl) (by rw [last]; rfl)
        fun i _ => ⟨by rw [keys.1], by rw [keys.2]⟩)
  | block c p core inside next only =>
    obtain ⟨a, blocksOk⟩ := ok.assigned
    have knows := calls.call w
    rw [inside] at knows
    obtain ⟨_, r, asked, _⟩ := knows
    have bound := blocksOk.rebind calls inside asked (ok.lows w c (by rw [inside]; rfl))
    have home : (a.rebind r.inode (c.volume, c.lbn)).volume r.inode = c.volume :=
      congrArg Prod.fst Assignment.rebind_self
    have low := calls.handOff.narrow w r asked
    have writes := blockNext_eq asked low (calls.key_inside inside asked).1 home next
    have writers := (block_effect asked next).writers
    obtain ⟨_, cache⟩ := writer_files writes
    subst only
    cases writer_move asked low bound.durability.owned writes with
    | dirty oldState here next state same =>
      exact unwritten (callWrites_not_copying (by rw [here]; rfl))
        fun key => stores_dirty calls here next state same cache writers (stores key)
    | other here next state same =>
      exact unwritten (callWrites_not_copying here)
        (outside rfl state cache same next here fun _ _ => ⟨rfl, rfl⟩)
    | data oldState here next state bytes others =>
      refine ⟨Function.update blocks (c.volume, c.lbn) (core.blockOf r.inode), ?_,
        stores_data calls inside here next state others cache writers stores⟩
      obtain ⟨buf, localCount⟩ := ok.requests w c p r inside asked
      simp only [callWrites, inside, here]
      refine shows_write (fun k inside => ?_) fun key other => Function.update_of_ne other _ _
      rw [Function.update_self, bytes k (localCount ▸ inside), buf]

end Call

variable [DecidableEq W] [NeZero S]

/-- The steps of concurrent calls are writes to the blocks of a store, or none. -/
theorem CallBlocks.stores_next (ok : CallBlocks s) (calls : CallsOk s) {e : StorageEvent W S}
    (step : storageNext s e = some t) {blocks : VolumeIdx × Nat → Block}
    (stores : ∀ key, Stores s key (blocks key)) :
    ∃ after, (blockStore (VolumeIdx × Nat) UInt8 blockSize).Shows storeLabel blocks
        (callWrites s e) after ∧ ∀ key, Stores t key (after key) := by
  obtain ⟨a, blocksOk⟩ := ok.assigned
  cases e with
  | writeBack written =>
    cases step
    exact ⟨blocks, .refl _, fun key => (stores key).of_same (fun _ => Iff.rfl) (fun _ _ => rfl)
      fun _ => rfl⟩
  | step e =>
    cases e with
    | call w request => exact ok.stores_call calls step stores
    | flusher v =>
      obtain ⟨core, next, rfl⟩ := Option.map_eq_some_iff.mp step
      exact ⟨blocks, .refl _, fun key => blocksOk.stores_flusher calls next (stores key)⟩
    | syncer k =>
      obtain ⟨core, next, rfl⟩ := Option.map_eq_some_iff.mp step
      exact ⟨blocks, .refl _, fun key => stores_syncer calls next (stores key)⟩
    | balloon b =>
      exact ⟨blocks, .refl _, fun key => blocksOk.stores_balloon calls step (stores key)⟩

end Steps

end BurstBuffer.Source
