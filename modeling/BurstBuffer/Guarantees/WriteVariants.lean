import BurstBuffer.Guarantees.WriteRange
import BurstBuffer.Invariants.WriteDebug

/-!
# The two variants of a write

With WRITE_DEBUG the first round stops at the end of the request and the last one does
not, without it is the other way round.
-/
namespace BurstBuffer.Guarantees

open Source

/-- The arguments of a block step. -/
def blockArguments (r : LoopRound) : Nat × Nat × Nat := (r.lbn, r.localOffset, r.localCount)

/-- What every call with WRITE_DEBUG does is given by its rounds. -/
def DebugRoundsAreTheCall (offset count : Nat) : Prop :=
  ∀ (C : CuckoohashMap) (N fuel vid : Nat) (buf : Nat → UInt8) (s : State C N),
    nvmDurableWriteDebug fuel vid offset buf count s =
      (getVolumeEntryIdx vid s).bind fun found =>
        (debugCallRounds fuel offset count).bind fun rounds =>
          (rounds.foldlM (doRound found.1 buf) found.2).map fun t => (bytesWritten rounds, t)

/-- Both loops end, after the same block steps and with the same result. -/
structure VariantsAgree (offset count : Nat) : Prop where
  steps : ∃ fuel rounds debug, callRounds fuel offset count = some rounds ∧
    debugCallRounds fuel offset count = some debug ∧
    rounds.map blockArguments = debug.map blockArguments ∧
    bytesWritten rounds = bytesWritten debug

section Variants

variable {offset count j : Nat}

/-- Round for round, the variants agree if the request ends at the end of a block. -/
theorem blockArguments_agree (fits : offset + count ≤ 2 ^ 45) (positive : 0 < count)
    (ends : blockSize ∣ offset + count) (inside : j < callBlocks offset count) :
    blockArguments (roundAt offset count j) = blockArguments (debugRoundAt offset count j) := by
  have same : chunk offset count j = (debugRoundAt offset count j).localCount := by
    obtain ⟨blocks, sum⟩ := ends
    rw [callBlocks, blockSize_eq] at inside
    rw [blockSize_eq] at sum
    simp only [chunk, debugRoundAt, debugRound, blockSize_eq]
    by_cases first : j = 0
    · simp only [first, if_true]
      split <;> omega
    · simp only [first, if_false]
      split <;> omega
  unfold blockArguments
  rw [← same]
  rfl

/-- The last round tells whether it does. -/
theorem ends_of_last (positive : 0 < count)
    (last : j + 1 = callBlocks offset count)
    (same : chunk offset count j = (debugRoundAt offset count j).localCount) :
    blockSize ∣ offset + count := by
  apply Nat.dvd_of_mod_eq_zero
  rw [callBlocks, blockSize_eq] at last
  simp only [chunk, debugRoundAt, debugRound, blockSize_eq] at same
  rw [blockSize_eq]
  by_cases first : j = 0
  · simp only [first, if_true] at same
    split at same <;> omega
  · simp only [first, if_false] at same
    split at same <;> omega

theorem variantsAgree_of_ends (fits : offset + count ≤ 2 ^ 45) (positive : 0 < count)
    (ends : blockSize ∣ offset + count) : VariantsAgree offset count := by
  have steps : ((List.range (callBlocks offset count)).map (roundAt offset count)).map
      blockArguments =
        ((List.range (callBlocks offset count)).map (debugRoundAt offset count)).map
          blockArguments := by
    rw [List.map_map, List.map_map]
    apply List.map_congr_left
    intro j member
    exact blockArguments_agree fits positive ends (List.mem_range.mp member)
  constructor
  refine ⟨callBlocks offset count + 1, _, _,
    callRounds_eq fits positive (Nat.le_succ _),
    debugCallRounds_eq fits positive (Nat.lt_succ_self _), steps, ?_⟩
  have counts := congrArg (List.map fun arguments => arguments.2.2) steps
  rw [bytesWritten, bytesWritten, List.map_map, List.map_map]
  rw [List.map_map, List.map_map, List.map_map, List.map_map] at counts
  exact congrArg List.sum counts

theorem ends_of_variantsAgree (fits : offset + count ≤ 2 ^ 45) (positive : 0 < count)
    (agree : VariantsAgree offset count) : blockSize ∣ offset + count := by
  obtain ⟨fuel, rounds, debug, ended, ended', steps, _⟩ := agree.steps
  have more := loopRounds_mono ended (Nat.le_add_right fuel (callBlocks offset count))
  have more' := debugRounds_mono ended' (Nat.le_add_right fuel (callBlocks offset count + 1))
  rw [← callRounds, callRounds_eq fits positive (Nat.le_add_left _ _)] at more
  rw [← debugCallRounds, debugCallRounds_eq fits positive (by omega)] at more'
  cases more
  cases more'
  obtain ⟨j, last⟩ : ∃ j, j + 1 = callBlocks offset count := ⟨_, rfl⟩
  have arguments := congrArg (fun steps => steps[j]?) steps
  simp only [List.getElem?_map, List.getElem?_range (by omega : j < callBlocks offset count),
    Option.map_some, Option.some.injEq, blockArguments, Prod.mk.injEq] at arguments
  exact ends_of_last positive last arguments.2.2

end Variants

/-- The variants agree exactly on the requests that end at the end of a block. -/
theorem write_variants (offset count : Nat) (positive : 1 ≤ count)
    (fits : offset + count ≤ 2 ^ 45) :
    RoundsAreTheCall offset count ∧ DebugRoundsAreTheCall offset count ∧
      (VariantsAgree offset count ↔ blockSize ∣ offset + count) := by
  refine ⟨?_, ?_, ?_⟩
  · intro C N fuel vid buf s
    exact nvmDurableWrite_eq_rounds fuel vid offset buf count s
  · intro C N fuel vid buf s
    exact nvmDurableWriteDebug_eq_rounds fuel vid offset buf count s
  · constructor
    · exact ends_of_variantsAgree fits positive
    · exact variantsAgree_of_ends fits positive

/-- From the middle of block `1` to the end of block `2`. -/
theorem write_variants_aligned : VariantsAgree 24576 24576 :=
  (write_variants 24576 24576 (by decide) (by decide)).2.2.mpr (by decide)

/-- One byte at offset `0`: a whole block without WRITE_DEBUG, one byte with it. -/
theorem write_variants_byte : callRounds 2 0 1 = some [⟨0, 0, 16384, 1⟩] ∧
    debugCallRounds 2 0 1 = some [⟨0, 0, 1, 1⟩] ∧ ¬ VariantsAgree 0 1 := by
  refine ⟨by decide, by decide, fun agree => ?_⟩
  have ends := ends_of_variantsAgree (by decide) (by decide) agree
  exact absurd ends (by decide)

end BurstBuffer.Guarantees
