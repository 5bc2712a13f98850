import BurstBuffer.Invariants.StoredBlocks
import BurstBuffer.Invariants.SwapCalls

/-!
# Power failures at any step of concurrent calls

Calls, flushers, sync threads and balloon threads take turns in any order, and the power may
fail between any two of their steps, those inside a block swap among them. What recovery then
makes of the tables and of the disk is a store of blocks that has seen the swaps of the calls
up to their last stores, those of calls that have not returned as well.
-/
namespace BurstBuffer.Guarantees

open Library Source

section Recovered

variable {C : CuckoohashMap} {W : Type} {N S : Nat} {s : CallState C W N S} {cwd : String}
  {vid : VolumeIdx → Nat}

theorem survivors_volumesOk (distinct : Function.Injective vid) : VolumesOk (survivors vid s) where
  free v := by
    simp [survivors, LfQueue.new]
  inuse v := by
    simp [survivors, List.count_eq_one_of_mem (List.nodup_finRange _) (List.mem_finRange v)]
  unused v closed := by
    simp [survivors] at closed
  opened v _ := rfl
  distinct v w _ same := distinct same.symm

theorem survivors_file (distinct : Function.Injective vid) (v : VolumeIdx) :
    (survivors vid s).files (getFilename (vid v)) = s.core.durable v := by
  have found : (List.finRange maxVolumeEntry).find?
      (fun w => getFilename (vid w) = getFilename (vid v)) = some v := by
    cases search : (List.finRange maxVolumeEntry).find?
        (fun w => getFilename (vid w) = getFilename (vid v)) with
    | none =>
      have missed := List.find?_eq_none.mp search v (List.mem_finRange v)
      simp at missed
    | some w =>
      have same : getFilename (vid w) = getFilename (vid v) := by
        simpa using List.find?_some search
      exact congrArg some (distinct (getFilename_injective same))
  simp only [survivors, found, Option.elim_some]

variable {a : Assignment N} {u : State C N} {key : VolumeIdx × Nat}

/-- What recovery replays to the place of a block carries the key of the block. -/
theorem carries_of_replays (ok : BlocksOk a s) {i : InodeIdx N}
    (replay : replays (survivors vid s) key.1 key.2 i = true) : Carries s i key := by
  obtain ⟨unwritten, owner, position⟩ := replays_iff.mp replay
  have used : s.core.state i ≠ .free := not_free_of_unwritten unwritten
  have fits := ok.small i used
  have place : blockSize * s.lbn i % 2 ^ 32 = blockSize * key.2 := position
  rw [position_eq, Nat.mod_eq_of_lt fits] at place
  exact ⟨used, owner, Nat.eq_of_mul_eq_mul_left (by decide) place⟩

theorem replays_of_carries {i : InodeIdx N} (ok : BlocksOk a s) (carries : Carries s i key)
    (unwritten : isUnwritten (s.core.state i) = true) :
    replays (survivors vid s) key.1 key.2 i = true := by
  have fits := ok.small i carries.1
  refine replays_iff.mpr ⟨unwritten, carries.2.1, ?_⟩
  have place : blockSize * s.lbn i % 2 ^ 32 = blockSize * key.2 := by
    rw [position_eq, Nat.mod_eq_of_lt fits, carries.2.2]
  exact place

/-- A start after a power failure, for the files that are in place. Only the blocks that
inodes show matter. -/
theorem started_block (ok : BlocksOk a s) {T : BlockIdx N → Block} {V : VolumeIdx → BlockIdx N}
    (shown : ∀ i, T (s.core.blockIndex i) = s.core.blockOf i) (key : VolumeIdx × Nat)
    (distinct : Function.Injective vid)
    (placed : recoveryFilename cwd (vid key.1) = getFilename (vid key.1))
    (started : nvmSystemInit cwd (survivors vid (s.withBlocks T V)) = some u) :
    (∀ i, Carries s i key → storedBlock u (vid key.1, key.2) = s.core.blockOf i) ∧
      ((∀ i, ¬ Carries s i key) → storedBlock u (vid key.1, key.2) =
        readBlock blockSize (s.core.durable key.1) key.2) := by
  obtain ⟨r, recovered, _⟩ := Option.bind_eq_some_iff.mp started
  obtain ⟨u', started', fresh⟩ := nvmSystemInit_spec recovered
  cases started.symm.trans started'
  have read : storedBlock u (vid key.1, key.2) = (lastReplayed (survivors vid s) key.1 key.2).elim
      (readBlock blockSize (s.core.durable key.1) key.2) s.core.blockOf := by
    have table : ((survivors vid (s.withBlocks T V)).volumeTable key.1).hashTable.isSome := rfl
    have placed' : recoveryFilename cwd ((survivors vid (s.withBlocks T V)).volumeTable key.1).vid =
        getFilename ((survivors vid (s.withBlocks T V)).volumeTable key.1).vid := placed
    have last : lastReplayed (survivors vid (s.withBlocks T V)) key.1 key.2 =
        lastReplayed (survivors vid s) key.1 key.2 := rfl
    have file := survivors_file (s := s.withBlocks T V) distinct key.1
    rw [fresh.storedBlock]
    refine (recoveryStart_read (survivors_volumesOk distinct) table recovered).trans ?_
    rw [replayed, if_pos placed', last]
    cases lastReplayed (survivors vid s) key.1 key.2 with
    | none => exact congrArg (readBlock blockSize · key.2) file
    | some i => exact shown i
  constructor
  · intro i carries
    rw [read]
    cases last : lastReplayed (survivors vid s) key.1 key.2 with
    | some j =>
      have theirs := carries_of_replays ok (lastReplayed_eq_some.mp last).1
      rw [Option.elim_some, ok.alone carries theirs]
    | none =>
      have skipped := lastReplayed_eq_none.mp last i
      have clean : s.core.state i = .clean := by
        cases state : s.core.state i with
        | free => exact absurd state carries.1
        | clean => rfl
        | dirty | sync =>
          rw [replays_of_carries ok carries (by rw [state]; rfl)] at skipped
          cases skipped
      exact (ok.clean carries clean).2
  · intro none
    rw [read, lastReplayed_eq_none.mpr fun i => ?_, Option.elim_none]
    rw [Bool.eq_false_iff]
    exact fun replay => none i (carries_of_replays ok replay)

/-- Recovery finds a volume for every block it has to write. -/
theorem survivors_start (ok : BlocksOk a s) (T : BlockIdx N → Block) (V : VolumeIdx → BlockIdx N)
    (vid : VolumeIdx → Nat) (cwd : String) :
    ∃ u, nvmSystemInit cwd (survivors vid (s.withBlocks T V)) = some u := by
  obtain ⟨r, recovered⟩ := recoveryStart_total (s := survivors vid (s.withBlocks T V)) cwd
    fun i unwritten => by
      have carries := ok.agrees i (not_free_of_unwritten unwritten)
      exact Option.isSome_iff_exists.mpr ⟨_, carries.2.1⟩
  obtain ⟨u, started, _⟩ := nvmSystemInit_spec recovered
  exact ⟨u, started⟩

end Recovered

section Runs

variable {C : CuckoohashMap} {W : Type} {N S : Nat}

/-- No two calls race for the node of one key, no balloon thread for an inode that somebody
relies on, and no two calls for the block index of one volume. -/
structure SafeSwap (s : SwapCallState C W N S) (e : SwapCallEvent W S) : Prop where
  races : ∀ f, e.event = .step f → RaceFree s.calls f
  reads : ReadsAlone s e
  low : LowCalls s.calls e.event

structure ConcurrentOk (s : CallState C W N S) [Fintype W] : Prop where
  calls : CallsOk s
  blocks : CallBlocks s

variable [Fintype W] [DecidableEq W] [NeZero S]

theorem ConcurrentOk.next {s t : CallState C W N S} (ok : ConcurrentOk s) {e : StorageEvent W S}
    (small : N ≤ 2 ^ 26) (races : ∀ f, e = .step f → RaceFree s f) (low : LowCalls s e)
    (step : storageNext s e = some t) : ConcurrentOk t := by
  refine ⟨?_, ok.blocks.next ok.calls low step⟩
  cases e with
  | step e => exact ok.calls.next ((races e rfl).careful small) step
  | writeBack written =>
    cases step
    have hand := ok.calls.handOff
    exact ok.calls.of_core ⟨hand.dirty, hand.sync, hand.lock, hand.knows, hand.old, hand.narrow,
      hand.sized⟩ rfl (fun _ => Iff.rfl) fun _ clean => clean

variable {s t : SwapCallState C W N S}

omit [Fintype W] [DecidableEq W] [NeZero S] in
/-- The guards read nothing that a swap under way has changed. -/
theorem SafeSwap.effective {u : CallState C W N S} {e : SwapCallEvent W S}
    (effect : Effective s u) (safe : SafeSwap s e) :
    (∀ f, e.event = .step f → RaceFree u f) ∧ LowCalls u e.event := by
  have races := safe.races
  have low := safe.low
  rw [effect.calls] at races low
  refine ⟨fun f event => ?_, ?_⟩
  · have free := races f event
    cases f <;> exact ⟨free.searches, free.frees, free.spares⟩
  · cases event : e.event with
    | writeBack written => trivial
    | step f =>
      rw [event] at low
      cases f <;> exact low

/-- In effect the blocks are those of a store. -/
def StoresInEffect (s : SwapCallState C W N S) (blocks : VolumeIdx × Nat → Block) : Prop :=
  ∃ u, Effective s u ∧ ConcurrentOk u ∧ ∀ key, Stores u key (blocks key)

/-- Each step is a step of the store, or none. -/
theorem swap_refines (small : N ≤ 2 ^ 26) {blocks : VolumeIdx × Nat → Block}
    {e : SwapCallEvent W S} (before : StoresInEffect s blocks) (safe : SafeSwap s e)
    (step : swapCallsNext s e = some t) :
    ∃ after, (blockStore (VolumeIdx × Nat) UInt8 blockSize).Shows storeLabel blocks
      (swapWrites s e) after ∧ StoresInEffect t after := by
  obtain ⟨u, effect, ok, stores⟩ := before
  obtain ⟨a, blocksOk⟩ := ok.blocks.assigned
  obtain ⟨races, low⟩ := safe.effective effect
  rcases effect.next ok.calls blocksOk safe.reads step with
    ⟨after, none⟩ | ⟨v, moved, after, writes⟩
  · rw [none]
    exact ⟨blocks, .refl _, u, after, ok, stores⟩
  · rw [writes]
    obtain ⟨blocks', shown, stores'⟩ := ok.blocks.stores_next ok.calls moved stores
    exact ⟨blocks', shown, v, after, ok.next small races low moved, stores'⟩

/-- At every moment of a run the store has seen the writes. -/
theorem stored_of_shows {l : List (BlockWrite (VolumeIdx × Nat) UInt8)} (small : N ≤ 2 ^ 26)
    (start : (swapCalls C W N S).init s)
    (run : (swapCalls C W N S).ShowsBy SafeSwap swapWrites s l t) :
    ∃ blocks, StoresInEffect t blocks ∧ ∀ key, AsWritten l key
      (readBlock blockSize (s.calls.core.cache key.1) key.2) (blocks key) := by
  obtain ⟨⟨initial, onDisk⟩, outside⟩ := start
  have before : ∀ key, Stores s.calls key (readBlock blockSize (s.calls.core.cache key.1) key.2) :=
    fun key => ⟨fun i held => absurd (initial.core.free i) held.1.1, fun _ => rfl⟩
  have calls : CallBlocks s.calls :=
    .start (Nat.lt_of_le_of_lt small (by decide)) initial onDisk
  obtain ⟨blocks, shown, stores⟩ := run.simulates (R := StoresInEffect)
    (fun _ _ _ _ stores safe step => swap_refines small stores safe step)
    ⟨s.calls, .start outside, ⟨.start initial, calls⟩, before⟩
  exact ⟨blocks, stores, fun key => asWritten_of_shows shown key⟩

/-- Wherever a run of calls and background threads is cut short by a power failure, inside a
block swap as well, the start after it leaves every block as the last call says that has stored
the block index of its inode, and a block that no call has written as it was at first. Only a
block whose first inode is DIRTY already while its swap is under way comes back as what the
inode held before. -/
theorem concurrent_blocks (C : CuckoohashMap) (W : Type) [Fintype W] [DecidableEq W] (N S : Nat)
    [NeZero S] (small : N ≤ 2 ^ 26) (vid : VolumeIdx → Nat) (distinct : Function.Injective vid)
    (cwd : String) (s t : SwapCallState C W N S) (l : List (BlockWrite (VolumeIdx × Nat) UInt8))
    (start : (swapCalls C W N S).init s)
    (run : (swapCalls C W N S).ShowsBy SafeSwap swapWrites s l t) :
    ∃ u, nvmSystemInit cwd (survivors vid t.calls) = some u ∧
      ∀ v, recoveryFilename cwd (vid v) = getFilename (vid v) →
        (∀ lbn, (∀ w c r, t.calls.swapping w = some (c, r, .free) →
            (c.volume, c.lbn) ≠ (v, lbn)) →
          AsWritten l (v, lbn) (readBlock blockSize (s.calls.core.cache v) lbn)
            (storedBlock u (vid v, lbn))) ∧
        ∀ w c r, t.calls.swapping w = some (c, r, .free) → c.volume = v →
          storedBlock u (vid v, c.lbn) = t.calls.core.blockOf r.inode := by
  obtain ⟨blocks, ⟨x, effect, ok, stores⟩, written⟩ := stored_of_shows small start run
  obtain ⟨a, blocksOk⟩ := ok.blocks.assigned
  have shown := effect.blockOf_eq blocksOk
  obtain ⟨u, started⟩ := survivors_start blocksOk t.calls.core.blockTable
    t.calls.core.volumeBlock vid cwd
  refine ⟨u, by rw [effect.calls]; exact started, fun v placed => ⟨fun lbn filled => ?_, ?_⟩⟩
  · obtain ⟨carried, uncarried⟩ :=
      started_block blocksOk shown (v, lbn) distinct placed started
    have same : blocks (v, lbn) = storedBlock u (vid v, lbn) := by
      by_cases none : ∃ i, Carries x i (v, lbn)
      · obtain ⟨i, carries⟩ := none
        rw [carried i carries]
        refine (stores (v, lbn)).held i ⟨carries, fun w unfilled => ?_⟩
        obtain ⟨r, here, rfl⟩ := WriterPc.writeData_of_unfilled unfilled
        obtain ⟨c, p, inside⟩ := ok.calls.inBlock_of_writer (w := w) (by rw [here]; rintro ⟨⟩)
        obtain ⟨volume, number⟩ := ok.calls.key_inside inside (by rw [here]; rfl)
        have swaps := CallState.swapping_iff.mpr ⟨⟨p, inside⟩, here⟩
        exact filled w c r ((effect.swapping_eq w).trans swaps)
          (carries.key_eq ⟨carries.1, volume, number⟩).symm
      · have free : ∀ i, ¬ Carries x i (v, lbn) := fun i carries => none ⟨i, carries⟩
        rw [uncarried free, blocksOk.unheld (v, lbn) free]
        exact (stores (v, lbn)).cached fun i held => free i held.1
    exact same ▸ written (v, lbn)
  · rintro w c r swaps rfl
    obtain ⟨⟨p, inside⟩, here⟩ :=
      CallState.swapping_iff.mp ((effect.swapping_eq w).symm.trans swaps)
    have asked : (x.core.writer w).request = some r := by
      rw [here]
      rfl
    obtain ⟨volume, number⟩ := ok.calls.key_inside inside asked
    have dirty : x.core.state r.inode = .dirty :=
      dirty_of_unfilled ok.calls (w := w) (by rw [here]; exact List.mem_cons_self)
    have block := (started_block blocksOk shown (c.volume, c.lbn) distinct placed started).1
      r.inode ⟨by rw [dirty]; decide, volume, number⟩
    have index : t.calls.core.blockIndex = x.core.blockIndex := by
      rw [effect.calls]
      rfl
    rw [block, ← shown, ThreadState.blockOf, index]

end Runs

section Example

variable {C : CuckoohashMap} {W : Type} {N S : Nat} [DecidableEq W] [NeZero S]

/-- Steps of thread `w`, which writes zeros to block `lbn` of volume `0`. -/
def swapSteps (w : W) (lbn n bytes : Nat) : List (SwapCallEvent W S) :=
  List.replicate n ⟨.step (.call w (zeroBlock lbn)), bytes⟩

/-- They are safe while the others are neither in a swap nor on their way to publish a node. -/
theorem alone_shows {s t : SwapCallState C W N S} {w : W} {lbn : Nat}
    {es : List (SwapCallEvent W S)} (low : lbn < 2 ^ 18)
    (only : ∀ e ∈ es, e.event = .step (.call w (zeroBlock lbn)))
    (alone : ∀ x, x ≠ w → s.access x = none ∧ (s.calls.call x).missing = none)
    (steps : (swapCalls C W N S).run s es = some t) :
    (swapCalls C W N S).ShowsBy SafeSwap swapWrites s
        ((swapCalls C W N S).trace swapWrites s es) t ∧
      ∀ x, x ≠ w → t.access x = none ∧ (t.calls.call x).missing = none := by
  refine Machine.ShowsBy.run_while
    (I := fun s => ∀ x, x ≠ w → s.access x = none ∧ (s.calls.call x).missing = none)
    (fun u e v alone member step => ?_) alone steps
  obtain ⟨event, bytes⟩ := e
  obtain rfl : event = .step (.call w (zeroBlock lbn)) := only _ member
  refine ⟨⟨?_, ?_, fun _ => low⟩, fun x other => ?_⟩
  · rintro f ⟨⟩
    exact raceFree_call _ fun x other => (alone x other).2
  · rintro w request c rest ⟨⟩ _ _ y d rest' other busy
    rw [(alone y other).1] at busy
    cases busy
  · obtain ⟨call, access⟩ := swapCallsNext_others step other
    rw [call, access]
    exact alone x other

end Example

def blankSwapCalls (W : Type) (N S : Nat) : SwapCallState functionMap W N S :=
  ⟨blankCalls W N S, fun _ => none⟩

theorem blankSwapCalls_start [DecidableEq W] [NeZero S] :
    (swapCalls functionMap W N S).init (blankSwapCalls W N S) :=
  ⟨⟨blankCalls_start, rfl⟩, fun _ => rfl⟩

/-- Thread `true` stops before its swap, thread `false` writes block `0`, then thread `true`
copies 100 bytes, the rest, and stores the block index of the volume. -/
def firstRounds : List (SwapCallEvent Bool 2) := swapSteps true 1 14 0

def middleRounds : List (SwapCallEvent Bool 2) := swapSteps false 0 22 blockSize

def lastRounds : List (SwapCallEvent Bool 2) :=
  swapSteps true 1 1 0 ++ swapSteps true 1 1 100 ++ swapSteps true 1 2 blockSize

/-- Thread `x` is neither in a swap nor on its way to publish a node. -/
def outOfTheWay {N : Nat} (s : SwapCallState functionMap Bool N 2) (x : Bool) : Bool :=
  (s.access x).isNone && (s.calls.call x).missing.isNone

theorem alone_of_outOfTheWay {N : Nat} {s : SwapCallState functionMap Bool N 2} {w x : Bool}
    (out : outOfTheWay s x = true) (other : x ≠ w) :
    ∀ y, y ≠ w → s.access y = none ∧ (s.calls.call y).missing = none := by
  intro y apart
  obtain rfl : y = x := by
    rw [Bool.eq_not_of_ne apart, Bool.eq_not_of_ne other]
  simpa [outOfTheWay] using out

/-- Thread `false` is through with block `0`, thread `true` has block `1` to give to its inode. -/
def cutShort {N : Nat} (s : SwapCallState functionMap Bool N 2) : Bool :=
  atRest (s.calls.call false) && (s.calls.swapping true).any (fun x => x.1.lbn == 1) &&
    (s.access true).any Access.stored

theorem swapSteps_only {W : Type} {S : Nat} {w : W} {lbn n bytes : Nat} {e : SwapCallEvent W S}
    (member : e ∈ swapSteps w lbn n bytes) : e.event = .step (.call w (zeroBlock lbn)) := by
  rw [(List.mem_replicate.mp member).2]

theorem lastRounds_only {e : SwapCallEvent Bool 2} (member : e ∈ lastRounds) :
    e.event = .step (.call true (zeroBlock 1)) := by
  rcases List.mem_append.mp member with early | late
  · rcases List.mem_append.mp early with read | copy
    · exact swapSteps_only read
    · exact swapSteps_only copy
  · exact swapSteps_only late

theorem rounds_show {s a b t : SwapCallState functionMap Bool 112 2}
    (alone : ∀ x, x ≠ true → s.access x = none ∧ (s.calls.call x).missing = none)
    (first : (swapCalls functionMap Bool 112 2).run s firstRounds = some a)
    (waits : outOfTheWay a true = true)
    (middle : (swapCalls functionMap Bool 112 2).run a middleRounds = some b)
    (idle : outOfTheWay b false = true)
    (last : (swapCalls functionMap Bool 112 2).run b lastRounds = some t) :
    (swapCalls functionMap Bool 112 2).ShowsBy SafeSwap swapWrites s
      ((swapCalls functionMap Bool 112 2).trace swapWrites s
        (firstRounds ++ middleRounds ++ lastRounds)) t := by
  have one : (1 : Nat) < 2 ^ 18 := by decide
  have zero : (0 : Nat) < 2 ^ 18 := by decide
  have steps := Machine.run_trans first middle
  have after := alone_of_outOfTheWay (w := false) waits (by decide)
  have after' := alone_of_outOfTheWay (w := true) idle (by decide)
  have shown := (alone_shows one (fun _ member => swapSteps_only member) alone first).1
  have shown' := (alone_shows zero (fun _ member => swapSteps_only member) after middle).1
  have shown'' := (alone_shows one (fun _ member => lastRounds_only member) after' last).1
  exact (shown.append first shown').append steps shown''

/-- The power fails before the last store of thread `true`: the sixth byte of block `0` is that
of the call of thread `false`. -/
theorem concurrent_blocks_first :
    ∃ (t : SwapCallState functionMap Bool 112 2) (u : State functionMap 112),
      cutShort t = true ∧ nvmSystemInit "/opt/nvm2/NVM" (survivors Fin.val t.calls) = some u ∧
        storedBlock u (0, 0) ⟨5, by decide⟩ = 0 := by
  have runs : ((swapCalls functionMap Bool 112 2).run (blankSwapCalls Bool 112 2)
      firstRounds).any (fun a => outOfTheWay a true &&
        ((swapCalls functionMap Bool 112 2).run a middleRounds).any fun b => outOfTheWay b false &&
          ((swapCalls functionMap Bool 112 2).run b lastRounds).any cutShort) = true := by
    decide +kernel
  have shown : ((swapCalls functionMap Bool 112 2).trace swapWrites (blankSwapCalls Bool 112 2)
      (firstRounds ++ middleRounds ++ lastRounds)).map
        (fun w => (w.key, w.count, w.bytes 5)) = [((0, 0), blockSize, 0)] := by
    decide +kernel
  obtain ⟨a, first, later⟩ := (Option.any_eq_true _ _).mp runs
  obtain ⟨waits, later⟩ := (Bool.and_eq_true _ _).mp later
  obtain ⟨b, middle, later⟩ := (Option.any_eq_true _ _).mp later
  obtain ⟨idle, later⟩ := (Bool.and_eq_true _ _).mp later
  obtain ⟨t, last, cut⟩ := (Option.any_eq_true _ _).mp later
  have run := rounds_show (fun _ _ => ⟨rfl, rfl⟩) first waits middle idle last
  obtain ⟨u, started, stored⟩ := concurrent_blocks functionMap Bool 112 2 (by decide) Fin.val
    Fin.val_injective "/opt/nvm2/NVM" (blankSwapCalls Bool 112 2) t _ blankSwapCalls_start run
  obtain ⟨w, single, here⟩ := List.map_eq_singleton_iff.mp shown
  refine ⟨t, u, cut, started, ?_⟩
  obtain ⟨⟨rest, other⟩, _⟩ : (atRest (t.calls.call false) = true ∧
      (t.calls.swapping true).any (fun x => x.1.lbn == 1) = true) ∧
        (t.access true).any Access.stored = true := by
    simpa only [cutShort, Bool.and_eq_true] using cut
  have block := (stored 0 rfl).1 0 fun x c r swaps => by
    cases x with
    | false =>
      obtain ⟨p, inside⟩ := (CallState.swapping_iff.mp swaps).1
      rw [idle_of_atRest rest] at inside
      cases inside
    | true =>
      have number : c.lbn = 1 := by simpa [swaps] using other
      intro same
      rw [(Prod.mk.inj same).2] at number
      cases number
  obtain ⟨key, count, byte⟩ : w.key = (0, 0) ∧ w.count = blockSize ∧ w.bytes 5 = 0 := by
    simpa using here
  have final : lastWrite [w] (0, 0) = some w := by simp [lastWrite, key]
  rw [single, AsWritten, final] at block
  exact (block ⟨5, by decide⟩ (by rw [count]; decide)).trans byte

end BurstBuffer.Guarantees
