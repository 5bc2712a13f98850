import BurstBuffer.Invariants.BlockSwap
import BurstBuffer.Invariants.HandOff
import BurstBuffer.Invariants.WideIndex

/-!
# Concurrent writers and the blocks they copy into

The locks of a block step belong to its hash node and its inode, the ownerless
block to the volume. Two writers of one volume stay apart as long as neither reads
the block index of the volume while the other is exchanging it; the locks do not
see to that.
-/
namespace BurstBuffer.Guarantees

open Library Source

variable {W : Type} {N : Nat}

/-- A call copies into the block whose index it has read. Until it has stored that
index in its inode no other call has read the same, and when no call is in flight
every block has at most one owner. -/
structure SwapsApart (s : SwapState W N) : Prop where
  targets : ∀ w w' x x', w ≠ w' → (s.writer w).swapping = some x →
    (s.writer w').swapping = some x' → x.2 ≠ x'.2
  owned : (∀ w, s.writer w = .idle) → Function.Injective (Sum.elim s.blockIndex s.volumeBlock)

section Derive

variable {a : Assignment N} {s : SwapState W N}

/-- A call that has given its block away is about to own what it copied into; one
that has not copies into what is still the volume's. -/
theorem targets_apart (ok : SwapOk a s) {w w' : W} {x x' : Request N × BlockIdx N} (other : w ≠ w')
    (first : (s.writer w).swapping = some x) (second : (s.writer w').swapping = some x') :
    x.2 ≠ x'.2 := by
  obtain ⟨owner, effect⟩ := ok.owned
  have distinct : ∀ o o', Sum.elim owner s.volumeBlock o = Sum.elim owner s.volumeBlock o' →
      o = o' := fun o o' => @effect.distinct o o'
  intro same
  rcases SwapPc.reading_or_storing first with reads | stores
  · have mine := ok.read w x reads
    rcases SwapPc.reading_or_storing second with reads' | stores'
    · have theirs := ok.read w' x' reads'
      rw [mine, theirs] at same
      have volumes := distinct (Sum.inr _) (Sum.inr _) same
      exact other (ok.volumes w w' x x' reads reads' (Sum.inr.inj volumes))
    · have theirs := effect.storing w' x' stores'
      rw [mine, ← theirs] at same
      have clash := distinct (Sum.inr _) (Sum.inl _) same
      cases clash
  · have mine := effect.storing w x stores
    rcases SwapPc.reading_or_storing second with reads' | stores'
    · have theirs := ok.read w' x' reads'
      rw [← mine, theirs] at same
      have clash := distinct (Sum.inl _) (Sum.inr _) same
      cases clash
    · have theirs := effect.storing w' x' stores'
      rw [← mine, ← theirs] at same
      have inodes := distinct (Sum.inl _) (Sum.inl _) same
      exact other (ok.indices w w' x x' first second (Sum.inl.inj inodes))

theorem owned_at_rest (ok : SwapOk a s) (idle : ∀ w, s.writer w = .idle) :
    Function.Injective (Sum.elim s.blockIndex s.volumeBlock) := by
  obtain ⟨owner, effect⟩ := ok.owned
  have same : owner = s.blockIndex := by
    funext i
    apply effect.shown i
    intro w x stores
    rw [idle] at stores
    cases stores
  rw [← same]
  exact effect.distinct

/-- With at most `2^26` inodes no two inodes have the same computed index. -/
theorem indexFree_of_small (small : N ≤ 2 ^ 26) (s : SwapState W N) (w : W) (r : Request N) :
    IndexFree s w r := by
  intro w' x _ _ apart same
  apply apart
  have low := r.inode.isLt
  have low' := x.1.inode.isLt
  unfold Request.idx at same
  rwa [inodeIdxOfPointer_of_lt (by omega), inodeIdxOfPointer_of_lt (by omega)] at same

end Derive

/-- In every run in which a volume's block index is only read while no other call
is exchanging it, and the calls in flight have different computed indices, writers
stay apart. The first read that breaks the condition on the volume parts with it. -/
theorem writers_apart (W : Type) [DecidableEq W] (N : Nat) (a : Assignment N) (s : SwapState W N)
    (reach : (swaps W a).ReachableBy (OneSwap a) s) :
    SwapsApart s ∧ ∀ w request r t, s.writer w = .readVolume r →
      swapNext a s ⟨w, request⟩ = some t → ¬ VolumeFree a s w r → ¬ SwapsApart t := by
  have ok := SwapOk.of_reachable reach
  refine ⟨⟨fun w w' x x' other => targets_apart ok other, owned_at_rest ok⟩, ?_⟩
  intro w request r t pc step taken apart
  simp only [swapNext, pc] at step
  cases step
  unfold VolumeFree at taken
  push Not at taken
  obtain ⟨w', x, other, reads, same⟩ := taken
  apply apart.targets w w' (r, s.volumeBlock (a.volume r.idx)) x other.symm
  · rw [SwapState.goto_writer, Function.update_self]
    rfl
  · rw [SwapState.goto_writer, Function.update_of_ne other]
    exact SwapPc.swapping_of_reading reads
  · rw [ok.read w' x reads, same]

/-- The tables as they are laid out, nobody writing. -/
def blankSwaps (W : Type) (N : Nat) : SwapState W N where
  lock _ := false
  mutex _ := false
  blockIndex i := Fin.castAdd maxVolumeEntry i
  volumeBlock v := Fin.natAdd N v
  blockTable _ := fun _ => 1
  writer _ := .idle

theorem blankSwaps_start : SwapStart (blankSwaps W N) where
  unlocked _ := ⟨rfl, rfl⟩
  owned := (blankThreads_start (W := W) (S := 1)).owned
  idle _ := rfl

/-- The next `n` steps of a write to inode `i`: the fourth reads the volume's block index, the
sixth stores it. -/
def writeSteps (w : W) (i : InodeIdx N) (n : Nat) : List (SwapEvent W N) :=
  List.replicate n ⟨w, ⟨i, fun _ => 0, blockSize⟩⟩

/-- Steps of one writer while no other is between its read and its store. -/
theorem writes_apart [DecidableEq W] {a : Assignment N} (small : N ≤ 2 ^ 26) {s t : SwapState W N}
    (reach : (swaps W a).ReachableBy (OneSwap a) s) {w : W}
    (alone : ∀ w', w' ≠ w → (s.writer w').reading = none) {i : InodeIdx N} {n : Nat}
    (steps : (swaps W a).run s (writeSteps w i n) = some t) :
    (swaps W a).ReachableBy (OneSwap a) t := by
  refine (reach.run_while (I := fun u => ∀ w', w' ≠ w → (u.writer w').reading = none) ?_ alone
    steps).1
  intro u e v before member step
  obtain rfl : e.writer = w := by rw [(List.mem_replicate.mp member).2]
  refine ⟨fun r _ => ⟨fun w' x other reads => ?_, indexFree_of_small small u e.writer r⟩,
    fun w' other => ?_⟩
  · rw [before w' other] at reads
    cases reads
  · rw [swapNext_others step other]
    exact before w' other

theorem alone_of_not {s : SwapState Bool N} {w : Bool} (quiet : (s.writer !w).reading = none) :
    ∀ w', w' ≠ w → (s.writer w').reading = none := by
  intro w' other
  rw [Bool.eq_not_of_ne other]
  exact quiet

/-- Two writes to one volume: the second reads its block index once the first has stored it,
and both are in their swaps; then both are through. -/
theorem writers_apart_two : ∃ s t : SwapState Bool 2,
    (s.writer false).swapping.isSome ∧ (s.writer true).swapping.isSome ∧ SwapsApart s ∧
      (∀ w, t.writer w = .idle) ∧ SwapsApart t := by
  obtain ⟨r, s, u, t, first, second, third, fourth, stored, passed, swapping, reads, through,
      idle⟩ : ∃ r s u t : SwapState Bool 2,
        (swaps Bool (oneVolume 2 zeroVolume)).run (blankSwaps Bool 2) (writeSteps false 0 6) =
          some r ∧
        (swaps Bool (oneVolume 2 zeroVolume)).run r (writeSteps true 1 4) = some s ∧
        (swaps Bool (oneVolume 2 zeroVolume)).run s (writeSteps true 1 5) = some u ∧
        (swaps Bool (oneVolume 2 zeroVolume)).run u (writeSteps false 0 3) = some t ∧
        (r.writer false).reading = none ∧ (s.writer false).reading = none ∧
        (s.writer false).swapping.isSome ∧ (s.writer true).swapping.isSome ∧
        (u.writer true).reading = none ∧ ∀ w, t.writer w = .idle :=
    ⟨_, _, _, _, rfl, rfl, rfl, rfl, rfl, rfl, rfl, rfl, rfl, Bool.rec rfl rfl⟩
  have small : 2 ≤ 2 ^ 26 := by decide
  have reachR := writes_apart small (.init blankSwaps_start) (alone_of_not rfl) first
  have reachS := writes_apart small reachR (alone_of_not (w := true) stored) second
  have reachU := writes_apart small reachS (alone_of_not (w := true) passed) third
  have reachT := writes_apart small reachU (alone_of_not (w := false) through) fourth
  exact ⟨s, t, swapping, reads, (writers_apart Bool 2 (oneVolume 2 zeroVolume) s reachS).1, idle,
    (writers_apart Bool 2 (oneVolume 2 zeroVolume) t reachT).1⟩

/-- Two writers of one volume read its block index one after the other, and are
about to copy two blocks into the same place. -/
theorem writers_apart_race : ¬ ∀ s : SwapState Bool 2,
    (swaps Bool (oneVolume 2 zeroVolume)).Reachable s → SwapsApart s := by
  intro apart
  obtain ⟨s, steps, first, second⟩ : ∃ s,
      (swaps Bool (oneVolume 2 zeroVolume)).run (blankSwaps Bool 2)
        (writeSteps false 0 4 ++ writeSteps true 1 4) = some s ∧
      s.writer false = .copy ⟨0, fun _ => 0, blockSize⟩ (Fin.natAdd 2 zeroVolume) ∧
      s.writer true = .copy ⟨1, fun _ => 0, blockSize⟩ (Fin.natAdd 2 zeroVolume) :=
    ⟨_, rfl, rfl, rfl⟩
  have reach : (swaps Bool (oneVolume 2 zeroVolume)).Reachable s :=
    .run (.init blankSwaps_start) steps
  apply (apart s reach).targets false true _ _ (by decide)
  · rw [first]
    rfl
  · rw [second]
    rfl
  · rfl

end BurstBuffer.Guarantees
