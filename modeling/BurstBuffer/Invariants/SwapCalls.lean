import BurstBuffer.Invariants.StoredCalls
import BurstBuffer.Source.SwapCalls

/-!
# Block swaps of calls, in effect

A call that is in writeDataToNvmBlock has in effect done nothing until it stores the block
index of its inode: it writes into a block nobody owns, and what it stores into the volume
first only calls of the volume read. The other steps work neither on ownerless blocks nor on
the block indices of volumes.
-/
namespace BurstBuffer.Source

open Library

theorem memcpy_zero (block : Block) (ptr : Nat → UInt8) : memcpy block ptr 0 = block := by
  funext k
  simp only [memcpy, Nat.not_lt_zero, if_false]

theorem memcpy_memcpy (block : Block) (ptr : Nat → UInt8) {copied count : Nat}
    (more : copied ≤ count) :
    memcpy (memcpy block ptr copied) ptr count = memcpy block ptr count := by
  funext k
  by_cases inside : k.val < count
  · simp only [memcpy, inside, if_true]
  · have outside : ¬ k.val < copied := by omega
    simp only [memcpy, inside, outside, if_false]

section Blocks

variable {W : Type} {N S : Nat}

/-- With other bytes in the blocks and other ownerless blocks. -/
def ThreadState.withBlocks (s : ThreadState W N S) (blockTable : BlockIdx N → Block)
    (volumeBlock : VolumeIdx → BlockIdx N) : ThreadState W N S :=
  { s with blockTable := blockTable, volumeBlock := volumeBlock }

def CallState.withBlocks {C : CuckoohashMap} (s : CallState C W N S)
    (blockTable : BlockIdx N → Block) (volumeBlock : VolumeIdx → BlockIdx N) :
    CallState C W N S :=
  { s with core := s.core.withBlocks blockTable volumeBlock }

variable {T : BlockIdx N → Block} {V : VolumeIdx → BlockIdx N}

theorem writerNext_withBlocks [DecidableEq W] {a : Assignment N} {s : ThreadState W N S} {w : W}
    {r : Request N} (other : (s.writer w).copying = false) :
    writerNext a w r (s.withBlocks T V) = (writerNext a w r s).map (·.withBlocks T V) := by
  have same : (s.withBlocks T V).writer = s.writer := rfl
  cases pc : s.writer w with
  | writeData =>
    rw [pc] at other
    cases other
  | idle | lockNode | lockInode | countDirty =>
    simp only [writerNext, same, pc, apply_ite (Option.map _)]
    rfl
  | enqueue =>
    simp only [writerNext, ThreadState.withBlocks, pc, Option.map_map]
    rfl
  | readState | storeDirty | unlockInode | unlockNode =>
    simp only [writerNext, ThreadState.withBlocks, pc]
    rfl

theorem blockNext_withBlocks [DecidableEq W] {volume : InodeIdx N → Option VolumeIdx}
    {v : VolumeIdx} {s : ThreadState W N S} {w : W} (other : (s.writer w).copying = false) :
    blockNext volume v w (s.withBlocks T V) = (blockNext volume v w s).map (·.withBlocks T V) := by
  have same : (s.withBlocks T V).writer = s.writer := rfl
  cases pc : s.writer w with
  | writeData =>
    rw [pc] at other
    cases other
  | idle | lockNode | unlockNode =>
    simp only [blockNext, same, pc]
    rfl
  | _ =>
    simp only [blockNext, same, pc]
    exact writerNext_withBlocks other

/-- A flusher reads the blocks of the inodes it writes, the owned ones. -/
theorem drainNext_withBlocks [NeZero S] {lbn : InodeIdx N → Nat}
    {volume : InodeIdx N → Option VolumeIdx} {v : VolumeIdx} {s : ThreadState W N S}
    (owned : ∀ i, T (s.blockIndex i) = s.blockOf i) :
    drainNext lbn volume v (s.withBlocks T V) =
      (drainNext lbn volume v s).map (·.withBlocks T V) := by
  have blocks : (s.withBlocks T V).blockOf = s.blockOf := funext owned
  have same : (s.withBlocks T V).flusher = s.flusher := rfl
  cases pc : s.flusher v with
  | write rest =>
    cases rest with
    | nil =>
      simp only [drainNext, flusherNext, same, pc]
      rfl
    | cons start rest =>
      simp only [drainNext, same, pc, blocks, Option.map_map]
      rfl
  | handOff batch rest =>
    cases batch with
    | nil =>
      simp only [drainNext, flusherNext, same, pc]
      rfl
    | cons idx batch =>
      simp only [drainNext, flusherNext, same, pc]
      rfl
  | collect iIdxs numDirtyInodes writeSize =>
    simp only [drainNext, flusherNext, same, pc, apply_ite (Option.map _), Option.map_map]
    rfl
  | tryLock =>
    simp only [drainNext, flusherNext, same, pc, apply_ite (Option.map _)]
    rfl
  | enqueueAgain | enqueue =>
    simp only [drainNext, flusherNext, ThreadState.withBlocks, pc, Option.map_map]
    rfl
  | idle | storeSync | nextQueue =>
    simp only [drainNext, flusherNext, same, pc]
    rfl

theorem syncerNext_withBlocks {k : Fin S} {s : ThreadState W N S} :
    syncerNext k (s.withBlocks T V) = (syncerNext k s).map (·.withBlocks T V) := by
  have same : (s.withBlocks T V).syncer = s.syncer := rfl
  cases pc : s.syncer k with
  | loop n =>
    cases n with
    | zero =>
      simp only [syncerNext, same, pc]
      rfl
    | succ n =>
      simp only [syncerNext, ThreadState.withBlocks, pc, Option.map_map]
      rfl
  | enqueue =>
    simp only [syncerNext, ThreadState.withBlocks, pc, Option.map_map]
    rfl
  | idle | sync | storeClean | nextQueue | unlock =>
    simp only [syncerNext, same, pc]
    rfl

variable {C : CuckoohashMap} {s : CallState C W N S}

theorem balloonNext_withBlocks {b : Fin defaultNumBalloon} :
    balloonNext b (s.withBlocks T V) = (balloonNext b s).map (·.withBlocks T V) := by
  have same : (s.withBlocks T V).balloon = s.balloon := rfl
  cases pc : s.balloon b with
  | idle | retest | delete | enqueue =>
    simp only [balloonNext, CallState.withBlocks, ThreadState.withBlocks, pc, Option.map_map]
    rfl
  | search idx =>
    simp only [balloonNext, same, pc, Option.bind_eq_bind, Option.map_bind, Function.comp_def]
    rfl
  | tryLock =>
    simp only [balloonNext, same, pc, apply_ite (Option.map _)]
    rfl
  | test | giveUp | storeFree | count | nextQueue | unlock =>
    simp only [balloonNext, same, pc]
    rfl

/-- A call that is not in writeDataToNvmBlock. -/
theorem callNext_withBlocks [DecidableEq W] [NeZero S] {w : W} {request : Call}
    (other : s.swapping w = none) :
    callNext w request (s.withBlocks T V) = (callNext w request s).map (·.withBlocks T V) := by
  have same : (s.withBlocks T V).call = s.call := rfl
  cases pc : s.call w with
  | idle | isEnough | lockNode =>
    simp only [callNext, same, pc, apply_ite (Option.map _)]
    rfl
  | isValid c found | publish c found idx =>
    cases found with
    | none =>
      simp only [callNext, same, pc]
      rfl
    | some p =>
      simp only [callNext, same, pc, apply_ite (Option.map _)]
      rfl
  | dequeue | readInode =>
    simp only [callNext, CallState.withBlocks, pc, Option.map_map]
    rfl
  | inBlock c p =>
    have stays : (s.withBlocks T V).core.writer = s.core.writer := rfl
    have outside : (s.core.writer w).copying = false := by
      cases writer : s.core.writer w with
      | writeData =>
        simp only [CallState.swapping, pc, writer] at other
        cases other
      | _ => rfl
    cases writer : s.core.writer w with
    | unlockNode =>
      simp only [callNext, same, stays, pc, writer]
      rfl
    | _ =>
      have commutes : blockNext (s.withBlocks T V).volume c.volume w (s.withBlocks T V).core =
          (blockNext s.volume c.volume w s.core).map (·.withBlocks T V) :=
        blockNext_withBlocks outside
      simp only [callNext, same, stays, pc, writer, commutes, Option.map_map]
      rfl
  | search | nextFree | storeKey | uncount | recheck | release =>
    simp only [callNext, same, pc]
    rfl

/-- The same for all steps outside writeDataToNvmBlock. -/
theorem storageNext_withBlocks [DecidableEq W] [NeZero S] {e : StorageEvent W S}
    (outside : ∀ w request, e = .step (.call w request) → s.swapping w = none)
    (owned : ∀ i, T (s.core.blockIndex i) = s.core.blockOf i) :
    storageNext (s.withBlocks T V) e = (storageNext s e).map (·.withBlocks T V) := by
  cases e with
  | writeBack written => rfl
  | step e =>
    cases e with
    | call w request => exact callNext_withBlocks (outside w request rfl)
    | flusher v =>
      have commutes : drainNext (s.withBlocks T V).lbn (s.withBlocks T V).volume v
          (s.withBlocks T V).core =
          (drainNext s.lbn s.volume v s.core).map (·.withBlocks T V) :=
        drainNext_withBlocks owned
      simp only [storageNext, callsNext, commutes, Option.map_map]
      rfl
    | syncer k =>
      have commutes : syncerNext k (s.withBlocks T V).core =
          (syncerNext k s.core).map (·.withBlocks T V) := syncerNext_withBlocks
      simp only [storageNext, callsNext, commutes, Option.map_map]
      rfl
    | balloon b => exact balloonNext_withBlocks

end Blocks

section Frames

variable {C : CuckoohashMap} {W : Type} {N S : Nat} [DecidableEq W] {w : W}

/-- A call in its block, but not in writeDataToNvmBlock. -/
theorem blockNext_frame {volume : InodeIdx N → Option VolumeIdx} {v : VolumeIdx}
    {s t : ThreadState W N S} (other : (s.writer w).copying = false)
    (step : blockNext volume v w s = some t) :
    t.blockIndex = s.blockIndex ∧ t.volumeBlock = s.volumeBlock ∧ t.blockTable = s.blockTable := by
  cases pc : s.writer w with
  | writeData =>
    rw [pc] at other
    cases other
  | idle | lockNode | unlockNode =>
    simp only [blockNext, pc] at step
    cases step
  | lockInode | countDirty =>
    simp only [blockNext, writerNext, pc] at step
    split at step <;> cases step <;> exact ⟨rfl, rfl, rfl⟩
  | readState | storeDirty | unlockInode =>
    simp only [blockNext, writerNext, pc] at step
    cases step
    exact ⟨rfl, rfl, rfl⟩
  | enqueue =>
    simp only [blockNext, writerNext, pc] at step
    obtain ⟨_, _, rfl⟩ := Option.map_eq_some_iff.mp step
    exact ⟨rfl, rfl, rfl⟩

omit [DecidableEq W] in
theorem drainNext_frame [NeZero S] {lbn : InodeIdx N → Nat}
    {volume : InodeIdx N → Option VolumeIdx} {v : VolumeIdx} {s t : ThreadState W N S}
    (step : drainNext lbn volume v s = some t) :
    t.blockIndex = s.blockIndex ∧ t.volumeBlock = s.volumeBlock ∧ t.blockTable = s.blockTable := by
  unfold drainNext flusherNext at step
  repeat' split at step
  all_goals
    first
      | cases step
        exact ⟨rfl, rfl, rfl⟩
      | obtain ⟨_, _, rfl⟩ := Option.map_eq_some_iff.mp step
        exact ⟨rfl, rfl, rfl⟩

omit [DecidableEq W] in
theorem syncerNext_frame {k : Fin S} {s t : ThreadState W N S} (step : syncerNext k s = some t) :
    t.blockIndex = s.blockIndex ∧ t.volumeBlock = s.volumeBlock ∧ t.blockTable = s.blockTable := by
  unfold syncerNext at step
  repeat' split at step
  all_goals
    first
      | cases step
        exact ⟨rfl, rfl, rfl⟩
      | obtain ⟨_, _, rfl⟩ := Option.map_eq_some_iff.mp step
        exact ⟨rfl, rfl, rfl⟩

variable {s t : CallState C W N S}

omit [DecidableEq W] in
theorem CallState.swapping_iff {c : Call} {r : Request N} {oldState : InodeState} :
    s.swapping w = some (c, r, oldState) ↔
      (∃ p, s.call w = .inBlock c p) ∧ s.core.writer w = .writeData r oldState := by
  unfold CallState.swapping
  constructor
  · intro here
    split at here
    · rename_i d p q old inside writing
      cases here
      exact ⟨⟨p, inside⟩, writing⟩
    · cases here
  · rintro ⟨⟨p, inside⟩, writing⟩
    simp only [inside, writing]

omit [DecidableEq W] in
theorem CallState.swapping_congr (calls : t.call w = s.call w)
    (writers : t.core.writer w = s.core.writer w) : t.swapping w = s.swapping w := by
  simp only [CallState.swapping, calls, writers]

omit [DecidableEq W] in
/-- A call in writeDataToNvmBlock is about to write. -/
theorem callWrites_eq (request : Call) :
    callWrites s (StorageEvent.step (.call w request) : StorageEvent W S) =
      (s.swapping w).elim [] fun x => [⟨(x.1.volume, x.1.lbn), x.1.buf, x.1.localCount⟩] := by
  cases here : s.swapping w with
  | none =>
    cases inside : s.call w with
    | inBlock c p =>
      cases writing : s.core.writer w with
      | writeData r oldState =>
        rw [CallState.swapping_iff.mpr ⟨⟨p, inside⟩, writing⟩] at here
        cases here
      | _ => simp only [callWrites, inside, writing, Option.elim_none]
    | _ => simp only [callWrites, inside, Option.elim_none]
  | some x =>
    obtain ⟨⟨p, inside⟩, writing⟩ := CallState.swapping_iff.mp here
    simp only [callWrites, inside, writing, Option.elim_some]

omit [DecidableEq W] in
/-- Calls in writeDataToNvmBlock hold the locks of different inodes. -/
theorem CallsOk.swapping_apart [Fintype W] [NeZero S] (calls : CallsOk s) {y : W} {c d : Call}
    {r q : Request N} {oldState old : InodeState} (here : s.swapping w = some (c, r, oldState))
    (there : s.swapping y = some (d, q, old)) (other : y ≠ w) : q.inode ≠ r.inode := by
  obtain ⟨_, writing⟩ := CallState.swapping_iff.mp here
  obtain ⟨_, theirs⟩ := CallState.swapping_iff.mp there
  have mine : r.inode ∈ (s.core.writer w).locked := by
    rw [writing]
    exact List.mem_cons_self
  intro same
  refine (calls.handOff.locked_alone mine).2.2.1 y other ?_
  rw [theirs, ← same]
  exact List.mem_cons_self

/-- A step outside writeDataToNvmBlock leaves the blocks and the calls that are in it alone. -/
theorem storageNext_frame [Fintype W] [NeZero S] {e : StorageEvent W S} (calls : CallsOk s)
    (outside : ∀ w request, e = .step (.call w request) → s.swapping w = none)
    (step : storageNext s e = some t) :
    (t.core.blockIndex = s.core.blockIndex ∧ t.core.volumeBlock = s.core.volumeBlock ∧
      t.core.blockTable = s.core.blockTable) ∧
      ∀ w, (s.swapping w).isSome → t.swapping w = s.swapping w := by
  cases e with
  | writeBack written =>
    cases step
    exact ⟨⟨rfl, rfl, rfl⟩, fun _ _ => rfl⟩
  | step e =>
    cases e with
    | call w request =>
      have effect := calls.call_effect step
      constructor
      · cases calls.call_move step with
        | quiet was core keys after =>
          rw [core]
          exact ⟨rfl, rfl, rfl⟩
        | enter c p i was core keys inside =>
          rw [core]
          exact ⟨rfl, rfl, rfl⟩
        | leave r last core keys after =>
          rw [core]
          exact ⟨rfl, rfl, rfl⟩
        | block c p core inside next only =>
          rw [only]
          refine blockNext_frame ?_ next
          cases writing : s.core.writer w with
          | writeData r oldState =>
            have here := CallState.swapping_iff.mpr ⟨⟨p, inside⟩, writing⟩
            rw [outside w request rfl] at here
            cases here
          | _ => rfl
      · intro x swaps
        have other : x ≠ w := by
          rintro rfl
          rw [outside x request rfl] at swaps
          cases swaps
        exact CallState.swapping_congr (effect.calls x other) (effect.writers x other)
    | flusher v =>
      obtain ⟨core, next, rfl⟩ := Option.map_eq_some_iff.mp step
      have writers := (drain_effect calls.handOff next).writers
      exact ⟨drainNext_frame next, fun w _ => CallState.swapping_congr rfl (congrFun writers w)⟩
    | syncer k =>
      obtain ⟨core, next, rfl⟩ := Option.map_eq_some_iff.mp step
      have writers := (sync_effect calls.handOff next).1
      exact ⟨syncerNext_frame next, fun w _ => CallState.swapping_congr rfl (congrFun writers w)⟩
    | balloon b =>
      obtain ⟨_, _, same, ⟨_, core⟩ | ⟨_, _, _, core⟩⟩ := balloonNext_core step
      all_goals
        rw [core]
        exact ⟨⟨rfl, rfl, rfl⟩, fun w _ =>
          CallState.swapping_congr (congrFun same w) (by rw [core])⟩

end Frames

section Accesses

variable {C : CuckoohashMap} {W : Type} {N S : Nat}

namespace Access

def ownerless : Access N → BlockIdx N
  | .copy ownerless _ | .storeVolume ownerless | .storeInode ownerless => ownerless

/-- How many bytes of the request are in the ownerless block. -/
def copied (r : Request N) : Access N → Nat
  | .copy _ copied => copied
  | .storeVolume _ | .storeInode _ => r.localCount

/-- The block index of the volume has been stored. -/
def stored : Access N → Bool
  | .storeInode _ => true
  | .copy _ _ | .storeVolume _ => false

end Access

/-- Where call `w` is in writeDataToNvmBlock, and what it has changed there of `u`. -/
structure Swapping (s : SwapCallState C W N S) (u : CallState C W N S) (w : W) (x : Access N)
    (c : Call) (r : Request N) (oldState : InodeState) : Prop where
  here : u.swapping w = some (c, r, oldState)
  block : x.ownerless = u.core.volumeBlock c.volume
  fits : x.copied r ≤ r.localCount
  bytes : s.calls.core.blockTable x.ownerless =
    memcpy (u.core.blockTable x.ownerless) r.buf (x.copied r)
  volume : x.stored = true → s.calls.core.volumeBlock c.volume = u.core.blockIndex r.inode

/-- What the calls have done in effect, without the swaps that are under way. -/
structure Effective (s : SwapCallState C W N S) (u : CallState C W N S) : Prop where
  calls : s.calls = u.withBlocks s.calls.core.blockTable s.calls.core.volumeBlock
  swaps : ∀ w x, s.access w = some x → ∃ c r oldState, Swapping s u w x c r oldState
  alone : ∀ w y c d rest rest', (s.access w).isSome → (s.access y).isSome →
    u.swapping w = some (c, rest) → u.swapping y = some (d, rest') → c.volume = d.volume → w = y
  blocks : ∀ b, (∀ w x, s.access w = some x → x.ownerless ≠ b) →
    s.calls.core.blockTable b = u.core.blockTable b
  volumes : ∀ v, (∀ w x c rest, s.access w = some x → x.stored = true →
    u.swapping w = some (c, rest) → c.volume ≠ v) →
    s.calls.core.volumeBlock v = u.core.volumeBlock v

/-- A swap of another volume has another block. -/
theorem Swapping.ownerless_apart {s : SwapCallState C W N S} {u : CallState C W N S} {w : W}
    {x : Access N} {c : Call} {r : Request N} {oldState : InodeState} {a : Assignment N}
    (swap : Swapping s u w x c r oldState) (ok : BlocksOk a u) {v : VolumeIdx}
    (other : c.volume ≠ v) : x.ownerless ≠ u.core.volumeBlock v := by
  intro same
  have volumes : Sum.inr c.volume = Sum.inr v :=
    ok.durability.owned (swap.block.symm.trans same)
  exact other (Sum.inr.inj volumes)

/-- A call reads the block index of its volume while no other call is exchanging it. -/
def ReadsAlone (s : SwapCallState C W N S) (e : SwapCallEvent W S) : Prop :=
  ∀ w request c rest, e.event = .step (.call w request) → s.access w = none →
    s.calls.swapping w = some (c, rest) → ∀ y d rest', y ≠ w → (s.access y).isSome →
      s.calls.swapping y = some (d, rest') → d.volume ≠ c.volume

namespace Effective

variable {s t : SwapCallState C W N S} {u v : CallState C W N S} {w : W} {c : Call} {r : Request N}
  {oldState : InodeState}

theorem swapping_eq (effect : Effective s u) (w : W) : s.calls.swapping w = u.swapping w := by
  rw [effect.calls]
  rfl

/-- The blocks of different calls in a swap differ. -/
theorem ownerless_apart (effect : Effective s u) {a : Assignment N} (ok : BlocksOk a u)
    (here : u.swapping w = some (c, r, oldState)) (inside : (s.access w).isSome) {y : W}
    {x : Access N} (other : y ≠ w) (swaps : s.access y = some x) :
    x.ownerless ≠ u.core.volumeBlock c.volume := by
  obtain ⟨d, q, old, swap⟩ := effect.swaps y x swaps
  refine swap.ownerless_apart ok fun volumes => other ?_
  exact effect.alone y w d c _ _ (by rw [swaps]; rfl) inside swap.here here volumes

/-- What inodes show, all calls have written. -/
theorem blockOf_eq (effect : Effective s u) {a : Assignment N} (ok : BlocksOk a u)
    (i : InodeIdx N) : s.calls.core.blockTable (u.core.blockIndex i) = u.core.blockOf i := by
  refine effect.blocks _ fun w x swaps same => ?_
  obtain ⟨c, r, oldState, swap⟩ := effect.swaps w x swaps
  have clash : Sum.inr c.volume = Sum.inl i :=
    ok.durability.owned (swap.block.symm.trans same)
  cases clash

theorem start (initial : ∀ w, s.access w = none) : Effective s s.calls where
  calls := rfl
  swaps w x swaps := by
    rw [initial] at swaps
    cases swaps
  alone w y c d rest rest' inside := by
    rw [initial] at inside
    cases inside
  blocks _ _ := rfl
  volumes _ _ := rfl

/-- A step outside writeDataToNvmBlock. -/
theorem outside [Fintype W] [DecidableEq W] [NeZero S] (effect : Effective s u) (calls : CallsOk u)
    {a : Assignment N} (ok : BlocksOk a u) {e : StorageEvent W S}
    (outside : ∀ w request, e = .step (.call w request) → u.swapping w = none)
    {next : CallState C W N S} (step : storageNext s.calls e = some next) :
    ∃ v, storageNext u e = some v ∧ Effective { s with calls := next } v := by
  rw [effect.calls, storageNext_withBlocks outside (effect.blockOf_eq ok)] at step
  obtain ⟨v, moved, rfl⟩ := Option.map_eq_some_iff.mp step
  obtain ⟨⟨blockIndex, volumeBlock, blockTable⟩, stay⟩ := storageNext_frame calls outside moved
  refine ⟨v, moved, rfl, fun w x swaps => ?_, fun w y c d rest rest' inside inside' => ?_,
    fun b none => ?_, fun volume none => ?_⟩
  · obtain ⟨c, r, oldState, swap⟩ := effect.swaps w x swaps
    refine ⟨c, r, oldState, (stay w (by rw [swap.here]; rfl)).trans swap.here, ?_, swap.fits, ?_,
      ?_⟩
    · rw [volumeBlock]
      exact swap.block
    · rw [blockTable]
      exact swap.bytes
    · rw [blockIndex]
      exact swap.volume
  · have stays : ∀ z, (s.access z).isSome → v.swapping z = u.swapping z := by
      intro z busy
      obtain ⟨x, swaps⟩ := Option.isSome_iff_exists.mp busy
      obtain ⟨_, _, _, swap⟩ := effect.swaps z x swaps
      exact stay z (by rw [swap.here]; rfl)
    rw [stays w inside, stays y inside']
    exact effect.alone w y c d rest rest' inside inside'
  · rw [blockTable]
    exact effect.blocks b none
  · rw [volumeBlock]
    refine effect.volumes volume fun w x c rest swaps stored here => ?_
    exact none w x c rest swaps stored ((stay w (by rw [here]; rfl)).trans here)

/-- An access that moves the swap of `w` on, under which `u` stays as it is. -/
theorem moves (effect : Effective s u) [DecidableEq W] {a : Assignment N} (ok : BlocksOk a u)
    (blockTable : BlockIdx N → Block) (volumeBlock : VolumeIdx → BlockIdx N) {x : Access N}
    (mine : Swapping ⟨s.calls.withBlocks blockTable volumeBlock,
      Function.update s.access w (some x)⟩ u w x c r oldState)
    (alone : ∀ y d rest, y ≠ w → (s.access y).isSome → u.swapping y = some (d, rest) →
      d.volume ≠ c.volume)
    (elsewhere : ∀ b, b ≠ x.ownerless → blockTable b = s.calls.core.blockTable b)
    (volumes : ∀ volume, volume ≠ c.volume →
      volumeBlock volume = s.calls.core.volumeBlock volume)
    (unstored : x.stored = false → volumeBlock c.volume = u.core.volumeBlock c.volume) :
    Effective ⟨s.calls.withBlocks blockTable volumeBlock,
      Function.update s.access w (some x)⟩ u := by
  have other_of : ∀ {y}, y ≠ w → Function.update s.access w (some x) y = s.access y :=
    fun other => Function.update_of_ne other _ _
  refine ⟨?_, fun y z swaps => ?_, fun y z d e rest rest' inside inside' here here' same => ?_,
    fun b none => ?_, fun volume none => ?_⟩
  · rw [effect.calls]
    rfl
  · by_cases self : y = w
    · subst self
      simp only [Function.update_self] at swaps
      cases swaps
      exact ⟨c, r, oldState, mine⟩
    · simp only [other_of self] at swaps
      obtain ⟨d, q, old, swap⟩ := effect.swaps y z swaps
      have apart := alone y d _ self (by rw [swaps]; rfl) swap.here
      have blocks : z.ownerless ≠ x.ownerless := by
        rw [mine.block]
        exact swap.ownerless_apart ok apart
      refine ⟨d, q, old, swap.here, swap.block, swap.fits, ?_, fun stored => ?_⟩
      · exact (elsewhere _ blocks).trans swap.bytes
      · exact (volumes _ apart).trans (swap.volume stored)
  · by_cases self : y = w <;> by_cases self' : z = w
    · rw [self, self']
    · subst self
      simp only [other_of self'] at inside'
      cases here.symm.trans mine.here
      exact absurd same.symm (alone z e rest' self' inside' here')
    · subst self'
      simp only [other_of self] at inside
      cases here'.symm.trans mine.here
      exact absurd same (alone y d rest self inside here)
    · simp only [other_of self] at inside
      simp only [other_of self'] at inside'
      exact effect.alone y z d e rest rest' inside inside' here here' same
  · have apart : b ≠ x.ownerless := fun same =>
      none w x (Function.update_self w _ _) same.symm
    refine (elsewhere b apart).trans (effect.blocks b fun y z swaps => ?_)
    by_cases self : y = w
    · subst self
      obtain ⟨d, q, old, swap⟩ := effect.swaps y z swaps
      cases swap.here.symm.trans mine.here
      rw [swap.block, ← mine.block]
      exact apart.symm
    · exact none y z ((other_of self).trans swaps)
  · by_cases home : volume = c.volume
    · subst home
      refine unstored (Bool.eq_false_iff.mpr fun stored => ?_)
      exact none w x c _ (Function.update_self w _ _) stored mine.here rfl
    · refine (volumes volume home).trans
        (effect.volumes volume fun y z d rest swaps stored here => ?_)
      by_cases self : y = w
      · subst self
        cases here.symm.trans mine.here
        exact Ne.symm home
      · exact none y z d rest ((other_of self).trans swaps) stored here

/-- What a call reads as the block index of its volume, and the bytes there. -/
theorem current (effect : Effective s u) {a : Assignment N} (ok : BlocksOk a u)
    (here : u.swapping w = some (c, r, oldState)) (none : s.access w = none)
    (alone : ∀ y d rest, y ≠ w → (s.access y).isSome → u.swapping y = some (d, rest) →
      d.volume ≠ c.volume) :
    s.calls.core.volumeBlock c.volume = u.core.volumeBlock c.volume ∧
      s.calls.core.blockTable (u.core.volumeBlock c.volume) =
        u.core.blockTable (u.core.volumeBlock c.volume) := by
  have other : ∀ {y x}, s.access y = some x → y ≠ w := by
    rintro y x swaps rfl
    cases swaps.symm.trans none
  refine ⟨effect.volumes _ fun y x d rest swaps _ there => ?_, effect.blocks _ fun y x swaps => ?_⟩
  · exact alone y d rest (other swaps) (by rw [swaps]; rfl) there
  · obtain ⟨d, q, old, swap⟩ := effect.swaps y x swaps
    exact swap.ownerless_apart ok (alone y d _ (other swaps) (by rw [swaps]; rfl) swap.here)

variable [DecidableEq W] {a : Assignment N}

/-- The read of the volume's block index. -/
theorem reads (effect : Effective s u) (ok : BlocksOk a u)
    (here : u.swapping w = some (c, r, oldState)) (none : s.access w = none)
    (alone : ∀ y d rest, y ≠ w → (s.access y).isSome → u.swapping y = some (d, rest) →
      d.volume ≠ c.volume) :
    Effective ⟨s.calls, Function.update s.access w
      (some (.copy (s.calls.core.volumeBlock c.volume) 0))⟩ u := by
  obtain ⟨current, bytes⟩ := effect.current ok here none alone
  refine effect.moves ok s.calls.core.blockTable s.calls.core.volumeBlock
    ⟨here, current, Nat.zero_le _, ?_, fun stored => by cases stored⟩ alone (fun _ _ => rfl)
    (fun _ _ => rfl) fun _ => current
  simp only [Access.ownerless, Access.copied, memcpy_zero, current]
  exact bytes

/-- More bytes of the memcpy. -/
theorem copies (effect : Effective s u) (ok : BlocksOk a u)
    (here : u.swapping w = some (c, r, oldState)) {ownerless : BlockIdx N} {copied : Nat}
    (at_ : s.access w = some (.copy ownerless copied)) (bytes : Nat)
    (alone : ∀ y d rest, y ≠ w → (s.access y).isSome → u.swapping y = some (d, rest) →
      d.volume ≠ c.volume) {x : Access N} (same : x.ownerless = ownerless)
    (more : x.copied r = min (copied + bytes) r.localCount) (unstored : x.stored = false) :
    Effective ⟨s.calls.withBlocks (Function.update s.calls.core.blockTable ownerless
        (memcpy (s.calls.core.blockTable ownerless) r.buf (min (copied + bytes) r.localCount)))
      s.calls.core.volumeBlock, Function.update s.access w (some x)⟩ u := by
  obtain ⟨d, q, old, swap⟩ := effect.swaps w _ at_
  cases swap.here.symm.trans here
  have fits : copied ≤ r.localCount := swap.fits
  have before : s.calls.core.blockTable ownerless =
      memcpy (u.core.blockTable ownerless) r.buf copied := swap.bytes
  have volume : s.calls.core.volumeBlock c.volume = u.core.volumeBlock c.volume := by
    refine effect.volumes _ fun y z d rest swaps stored there => ?_
    have other : y ≠ w := by
      rintro rfl
      cases at_.symm.trans swaps
      cases stored
    exact alone y d rest other (by rw [swaps]; rfl) there
  refine effect.moves ok _ _ ⟨here, ?_, ?_, ?_, fun stored => ?_⟩ alone (fun b other => ?_)
    (fun _ _ => rfl) fun _ => volume
  · exact same.trans swap.block
  · omega
  · subst same
    simp only [CallState.withBlocks, ThreadState.withBlocks, Function.update_self, more, before]
    exact memcpy_memcpy _ _ (by omega)
  · rw [unstored] at stored
    cases stored
  · subst same
    exact Function.update_of_ne other _ _

/-- The store of the volume's block index. -/
theorem storesVolume (effect : Effective s u) (ok : BlocksOk a u)
    (here : u.swapping w = some (c, r, oldState)) {ownerless : BlockIdx N}
    (at_ : s.access w = some (.storeVolume ownerless))
    (alone : ∀ y d rest, y ≠ w → (s.access y).isSome → u.swapping y = some (d, rest) →
      d.volume ≠ c.volume) :
    Effective ⟨s.calls.withBlocks s.calls.core.blockTable
        (Function.update s.calls.core.volumeBlock c.volume (u.core.blockIndex r.inode)),
      Function.update s.access w (some (.storeInode ownerless))⟩ u := by
  obtain ⟨d, q, old, swap⟩ := effect.swaps w _ at_
  cases swap.here.symm.trans here
  exact effect.moves ok _ _
    ⟨here, swap.block, swap.fits, swap.bytes, fun _ => Function.update_self _ _ _⟩ alone
    (fun _ _ => rfl) (fun volume other => Function.update_of_ne other _ _) fun stored => by
      cases stored

/-- After the last store of `w` its swap is made in `v` too. -/
theorem swapped (effect : Effective s u) (ok : BlocksOk a u)
    (here : u.swapping w = some (c, r, oldState)) {x : Access N} (at_ : s.access w = some x)
    (last : x.stored = true) (whole : x.copied r = r.localCount)
    (alone : ∀ y d rest, y ≠ w → (s.access y).isSome → u.swapping y = some (d, rest) →
      d.volume ≠ c.volume)
    (inodes : ∀ y d q old, y ≠ w → u.swapping y = some (d, q, old) → q.inode ≠ r.inode)
    (stays : ∀ y, y ≠ w → v.swapping y = u.swapping y)
    (blockTable : v.core.blockTable = Function.update u.core.blockTable
      (u.core.volumeBlock c.volume)
      (memcpy (u.core.blockTable (u.core.volumeBlock c.volume)) r.buf r.localCount))
    (volumeBlock : v.core.volumeBlock =
      Function.update u.core.volumeBlock c.volume (u.core.blockIndex r.inode))
    (blockIndex : v.core.blockIndex =
      Function.update u.core.blockIndex r.inode (u.core.volumeBlock c.volume)) :
    Effective ⟨v.withBlocks s.calls.core.blockTable s.calls.core.volumeBlock,
      Function.update s.access w none⟩ v := by
  obtain ⟨d, q, old, swap⟩ := effect.swaps w x at_
  cases swap.here.symm.trans here
  have bytes := swap.bytes
  rw [swap.block, whole] at bytes
  have others : ∀ {y}, y ≠ w → Function.update s.access w none y = s.access y :=
    fun other => Function.update_of_ne other _ _
  have still : ∀ {y z}, Function.update s.access w none y = some z →
      y ≠ w ∧ s.access y = some z := by
    intro y z swaps
    have other : y ≠ w := by
      rintro rfl
      rw [Function.update_self] at swaps
      cases swaps
    exact ⟨other, (others other).symm.trans swaps⟩
  refine ⟨rfl, fun y z swaps => ?_, fun y z d e rest rest' busy busy' there there' same => ?_,
    fun b none => ?_, fun volume none => ?_⟩
  · obtain ⟨other, swaps⟩ := still swaps
    obtain ⟨d, q, old, theirs⟩ := effect.swaps y z swaps
    have volumes := alone y d _ other (by rw [swaps]; rfl) theirs.here
    refine ⟨d, q, old, (stays y other).trans theirs.here, ?_, theirs.fits, ?_, fun stored => ?_⟩
    · rw [volumeBlock, Function.update_of_ne volumes]
      exact theirs.block
    · rw [blockTable, Function.update_of_ne (theirs.ownerless_apart ok volumes)]
      exact theirs.bytes
    · rw [blockIndex, Function.update_of_ne (inodes y d q old other theirs.here)]
      exact theirs.volume stored
  · obtain ⟨_, swaps⟩ := Option.isSome_iff_exists.mp busy
    obtain ⟨_, swaps'⟩ := Option.isSome_iff_exists.mp busy'
    obtain ⟨other, swaps⟩ := still swaps
    obtain ⟨other', swaps'⟩ := still swaps'
    rw [stays y other] at there
    rw [stays z other'] at there'
    exact effect.alone y z d e rest rest' (by rw [swaps]; rfl) (by rw [swaps']; rfl) there there'
      same
  · rw [blockTable]
    by_cases mine : b = u.core.volumeBlock c.volume
    · subst mine
      rw [Function.update_self]
      exact bytes
    · rw [Function.update_of_ne mine]
      refine effect.blocks b fun y z swaps => ?_
      by_cases self : y = w
      · subst self
        cases at_.symm.trans swaps
        rw [swap.block]
        exact Ne.symm mine
      · exact none y z ((others self).trans swaps)
  · rw [volumeBlock]
    by_cases home : volume = c.volume
    · subst home
      rw [Function.update_self]
      exact swap.volume last
    · rw [Function.update_of_ne home]
      refine effect.volumes volume fun y z d rest swaps stored there => ?_
      by_cases self : y = w
      · subst self
        cases here.symm.trans there
        exact Ne.symm home
      · exact none y z d rest ((others self).trans swaps) stored ((stays y self).trans there)

/-- The store of the inode's block index: in effect the whole swap. -/
theorem storesInode [Fintype W] [NeZero S] (effect : Effective s u) (calls : CallsOk u)
    (ok : BlocksOk a u) (here : u.swapping w = some (c, r, oldState)) {ownerless : BlockIdx N}
    (at_ : s.access w = some (.storeInode ownerless))
    (alone : ∀ y d rest, y ≠ w → (s.access y).isSome → u.swapping y = some (d, rest) →
      d.volume ≠ c.volume) (request : Call) :
    ∃ v, callNext w request u = some v ∧ Effective ⟨{ s.calls with
      core := { s.calls.core with
        blockIndex := Function.update s.calls.core.blockIndex r.inode ownerless }.toWriter w
          (.countDirty r oldState) }, Function.update s.access w none⟩ v := by
  obtain ⟨⟨p, inside⟩, writing⟩ := CallState.swapping_iff.mp here
  obtain ⟨d, q, old, swap⟩ := effect.swaps w _ at_
  cases swap.here.symm.trans here
  have asked : (u.core.writer w).request = some r := by
    rw [writing]
    rfl
  obtain ⟨home, _⟩ := calls.key_inside inside asked
  have index := inodeIdxOfPointer_of_lt (calls.handOff.narrow w r asked)
  obtain rfl : ownerless = u.core.volumeBlock c.volume := swap.block
  obtain ⟨v, made⟩ : ∃ v, v = { u with
      core := (writeThreadData (blocksOf N c.volume) r.inode r.buf r.localCount u.core).toWriter w
        (.countDirty r oldState) } := ⟨_, rfl⟩
  have step : callNext w request u = some v := by
    simp only [made, callNext, inside, writing, blockNext, index, home, Option.map_some]
  have stays : ∀ y, y ≠ w → v.swapping y = u.swapping y := by
    intro y other
    rw [made]
    exact CallState.swapping_congr rfl (ThreadState.toWriter_other _ other _)
  refine ⟨v, step, ?_⟩
  have after := effect.swapped ok here at_ rfl rfl alone
    (fun _ _ _ _ other there => calls.swapping_apart here there other) stays (by rw [made]; rfl)
    (by rw [made]; rfl) (by rw [made]; rfl)
  rw [made] at after ⊢
  rw [effect.calls]
  exact after

/-- The next access of a call that is in writeDataToNvmBlock. -/
theorem accesses [Fintype W] [NeZero S] (effect : Effective s u) (calls : CallsOk u)
    (ok : BlocksOk a u) (here : u.swapping w = some (c, r, oldState))
    (alone : ∀ y d rest, y ≠ w → (s.access y).isSome → u.swapping y = some (d, rest) →
      d.volume ≠ c.volume) (request : Call) {bytes : Nat} {core : ThreadState W N S}
    {access : Option (Access N)}
    (step : accessNext s.calls.volume w r oldState bytes s.calls.core (s.access w) =
      some (core, access)) :
    (Effective ⟨{ s.calls with core := core }, Function.update s.access w access⟩ u ∧
        ∀ x, s.access w = some x → x.stored = false) ∨
      (∃ v, callNext w request u = some v ∧
        Effective ⟨{ s.calls with core := core }, Function.update s.access w access⟩ v) ∧
        ∃ ownerless, s.access w = some (.storeInode ownerless) := by
  obtain ⟨⟨p, inside⟩, writing⟩ := CallState.swapping_iff.mp here
  have asked : (u.core.writer w).request = some r := by
    rw [writing]
    rfl
  have index := inodeIdxOfPointer_of_lt (calls.handOff.narrow w r asked)
  have home : s.calls.volume r.inode = some c.volume := by
    rw [effect.calls]
    exact (calls.key_inside inside asked).1
  cases at_ : s.access w with
  | none =>
    simp only [accessNext, at_, index, home, Option.map_some] at step
    cases step
    exact .inl ⟨effect.reads ok here at_ alone, by rintro x ⟨⟩⟩
  | some x =>
    cases x with
    | copy ownerless copied =>
      simp only [accessNext, at_] at step
      cases step
      refine .inl ⟨effect.copies ok here at_ bytes alone ?_ ?_ ?_, by rintro x ⟨⟩; rfl⟩
      · split <;> rfl
      · split
        · rfl
        · simp only [Access.copied]
          omega
      · split <;> rfl
    | storeVolume ownerless =>
      simp only [accessNext, at_, index, home, Option.map_some] at step
      cases step
      have shown : s.calls.core.blockIndex = u.core.blockIndex := by
        rw [effect.calls]
        rfl
      refine .inl ⟨?_, by rintro x ⟨⟩; rfl⟩
      have after := effect.storesVolume ok here at_ alone
      rw [← shown] at after
      exact after
    | storeInode ownerless =>
      simp only [accessNext, at_, index] at step
      cases step
      exact .inr ⟨effect.storesInode calls ok here at_ alone request, ownerless, rfl⟩

/-- A step is that of the calls in effect, or changes nothing there. -/
theorem next [Fintype W] [NeZero S] (effect : Effective s u) (calls : CallsOk u)
    (ok : BlocksOk a u) {e : SwapCallEvent W S} (alone : ReadsAlone s e)
    (step : swapCallsNext s e = some t) :
    Effective t u ∧ swapWrites s e = [] ∨
      ∃ v, storageNext u e.event = some v ∧ Effective t v ∧
        swapWrites s e = callWrites u e.event := by
  obtain ⟨event, bytes⟩ := e
  have elsewhere : ∀ {next}, (∀ w request, event = .step (.call w request) →
      u.swapping w = none) → storageNext s.calls event = some next → t = { s with calls := next } →
      swapWrites s ⟨event, bytes⟩ = callWrites u event →
      ∃ v, storageNext u event = some v ∧ Effective t v ∧
        swapWrites s ⟨event, bytes⟩ = callWrites u event := by
    rintro next outside moved rfl writes
    obtain ⟨v, moved', after⟩ := effect.outside calls ok outside moved
    exact ⟨v, moved', after, writes⟩
  have same := effect.swapping_eq
  cases event with
  | writeBack written =>
    simp only [swapCallsNext] at step
    obtain ⟨next, moved, done⟩ := Option.map_eq_some_iff.mp step
    exact .inr (elsewhere (by rintro w request ⟨⟩) moved done.symm rfl)
  | step e =>
    cases e with
    | flusher v | syncer k | balloon b =>
      simp only [swapCallsNext] at step
      obtain ⟨next, moved, done⟩ := Option.map_eq_some_iff.mp step
      exact .inr (elsewhere (by rintro w request ⟨⟩) moved done.symm rfl)
    | call w request =>
      cases here : u.swapping w with
      | none =>
        simp only [swapCallsNext, same, here] at step
        obtain ⟨next, moved, done⟩ := Option.map_eq_some_iff.mp step
        refine .inr (elsewhere ?_ moved done.symm ?_)
        · rintro x request ⟨⟩
          exact here
        · simp only [swapWrites, same, here, callWrites_eq, Option.elim_none]
      | some rest =>
        obtain ⟨c, r, oldState⟩ := rest
        simp only [swapCallsNext, same, here] at step
        obtain ⟨⟨core, access⟩, moved, done⟩ := Option.map_eq_some_iff.mp step
        cases done
        have apart : ∀ y d rest, y ≠ w → (s.access y).isSome → u.swapping y = some (d, rest) →
            d.volume ≠ c.volume := by
          intro y d rest other busy there volumes
          by_cases inside : (s.access w).isSome
          · exact other (effect.alone y w d c rest _ busy inside there here volumes)
          · exact alone w request c _ rfl (Option.not_isSome_iff_eq_none.mp inside)
              ((same w).trans here) y d rest other busy ((same y).trans there) volumes
        rcases effect.accesses calls ok here apart request moved with
          ⟨after, unstored⟩ | ⟨⟨v, moved', after⟩, ownerless, at_⟩
        · refine .inl ⟨after, ?_⟩
          cases at_ : s.access w with
          | none => simp only [swapWrites, same, here, at_]
          | some x =>
            have early := unstored x at_
            cases x with
            | storeInode => cases early
            | _ => simp only [swapWrites, same, here, at_]
        · refine .inr ⟨v, moved', after, ?_⟩
          simp only [swapWrites, same, here, at_, callWrites_eq, Option.elim_some]

end Effective

/-- A step of a call leaves the other calls where they are. -/
theorem swapCallsNext_others [DecidableEq W] [NeZero S] {s t : SwapCallState C W N S} {w x : W}
    {request : Call} {bytes : Nat}
    (step : swapCallsNext s ⟨.step (.call w request), bytes⟩ = some t) (other : x ≠ w) :
    t.calls.call x = s.calls.call x ∧ t.access x = s.access x := by
  cases here : s.calls.swapping w with
  | none =>
    simp only [swapCallsNext, here] at step
    obtain ⟨next, moved, rfl⟩ := Option.map_eq_some_iff.mp step
    exact ⟨callNext_others moved other, rfl⟩
  | some rest =>
    simp only [swapCallsNext, here] at step
    obtain ⟨_, _, rfl⟩ := Option.map_eq_some_iff.mp step
    exact ⟨rfl, Function.update_of_ne other _ _⟩

end Accesses

end BurstBuffer.Source
