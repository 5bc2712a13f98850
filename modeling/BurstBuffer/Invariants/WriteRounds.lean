import Mathlib.Data.List.Range
import BurstBuffer.Invariants.DurableWrite

/-!
# The rounds of the block loop

The control of the block loop of nvm_durable_write does not depend on the memory:
writeDataToNvmBlock always returns the count it was asked for. So the rounds of a
call can be listed from its arguments, and the call does what its rounds do.
-/
namespace BurstBuffer.Source

variable {C : CuckoohashMap} {N : Nat}

/-- The variables of the block loop before a round. -/
structure LoopRound where
  lbn : Nat
  localOffset : Nat
  localCount : Nat
  count : Nat
  deriving DecidableEq

namespace LoopRound

/-- The first byte of the file that the round is about. -/
def position (r : LoopRound) : Nat := blockSize * r.lbn + r.localOffset

/-- The variables after the round. -/
def next (r : LoopRound) : LoopRound :=
  let count := (r.count + 2 ^ 64 - r.localCount) % 2 ^ 64
  { lbn := (r.lbn + 1) % 2 ^ 32
    localOffset := 0
    localCount := if count > blockSize then blockSize else count % 2 ^ 32
    count := count }

end LoopRound

/-- The rounds of the do-while loop, if it ends within `fuel` rounds. -/
def loopRounds (lbnEnd : Nat) : Nat → LoopRound → Option (List LoopRound)
  | 0, _ => none
  | fuel + 1, r =>
    if r.next.lbn ≤ lbnEnd then (loopRounds lbnEnd fuel r.next).map (r :: ·) else some [r]

/-- `lbn_end` of a call. -/
def lastLbn (offset count : Nat) : Nat :=
  (offset + count + 2 ^ 64 - 1) % 2 ^ 64 / blockSize % 2 ^ 32

/-- The variables of a call before its first round. -/
def firstRound (offset count : Nat) : LoopRound where
  lbn := offset / blockSize % 2 ^ 32
  localOffset := offset % blockSize
  localCount := blockSize - offset % blockSize
  count := count

/-- The rounds of a call. -/
def callRounds (fuel offset count : Nat) : Option (List LoopRound) :=
  loopRounds (lastLbn offset count) fuel (firstRound offset count)

/-- The value of `bytes_written` after some rounds. -/
def bytesWritten (rounds : List LoopRound) : Nat := (rounds.map LoopRound.localCount).sum

/-- What a round does to the memory. -/
def doRound (v : VolumeIdx) (buf : Nat → UInt8) (s : State C N) (r : LoopRound) :
    Option (State C N) :=
  (writeBlock v r.lbn r.localOffset buf r.localCount s).map Prod.snd

section Control

variable {v : VolumeIdx} {buf : Nat → UInt8} {lbnEnd fuel : Nat} {r : LoopRound}

/-- A block step returns the count it was called with. -/
theorem writeBlock_count {lbn localOffset localCount n : Nat} {s t : State C N}
    (written : writeBlock v lbn localOffset buf localCount s = some (n, t)) : n = localCount := by
  obtain ⟨_, _, rest⟩ := Option.bind_eq_some_iff.mp written
  obtain ⟨_, _, rest⟩ := Option.bind_eq_some_iff.mp rest
  obtain ⟨_, _, rest⟩ := Option.bind_eq_some_iff.mp rest
  obtain ⟨_, _, rest⟩ := Option.bind_eq_some_iff.mp rest
  obtain ⟨⟨m, u⟩, copied, rest⟩ := Option.bind_eq_some_iff.mp rest
  obtain ⟨_, _, done⟩ := Option.bind_eq_some_iff.mp rest
  obtain ⟨_, _, copied⟩ := Option.bind_eq_some_iff.mp copied
  cases copied
  cases done
  rfl

/-- The loop does its rounds and returns what they add up to. -/
theorem writeLoop_eq_rounds (lbnEnd fuel : Nat) (r : LoopRound) (before : Nat) (s : State C N) :
    writeLoop v buf lbnEnd fuel r.lbn r.localOffset r.localCount r.count before s =
      (loopRounds lbnEnd fuel r).bind fun rounds =>
        (rounds.foldlM (doRound v buf) s).map fun t => (before + bytesWritten rounds, t) := by
  induction fuel generalizing r before s with
  | zero => rfl
  | succ fuel ih =>
    rw [writeLoop, loopRounds]
    cases written : writeBlock v r.lbn r.localOffset buf r.localCount s with
    | none =>
      have blocked : doRound v buf s r = none := by rw [doRound, written]; rfl
      split
      · cases loopRounds lbnEnd fuel r.next with
        | none => rfl
        | some rounds => simp [blocked]
      · simp [blocked]
    | some result =>
      obtain ⟨n, t⟩ := result
      obtain rfl := writeBlock_count written
      have done : doRound v buf s r = some t := by rw [doRound, written]; rfl
      simp only [Option.bind_eq_bind, Option.bind_some]
      by_cases more : r.next.lbn ≤ lbnEnd
      · rw [if_pos more, if_pos (show (r.lbn + 1) % 2 ^ 32 ≤ lbnEnd from more)]
        refine (ih r.next (before + r.localCount) t).trans ?_
        cases loopRounds lbnEnd fuel r.next with
        | none => rfl
        | some rounds => simp [done, bytesWritten, Nat.add_assoc]
      · rw [if_neg more, if_neg (show ¬ (r.lbn + 1) % 2 ^ 32 ≤ lbnEnd from more)]
        simp [done, bytesWritten]

/-- A call does the rounds of its range, whatever the memory holds. -/
theorem nvmDurableWrite_eq_rounds (fuel vid offset : Nat) (buf : Nat → UInt8) (count : Nat)
    (s : State C N) :
    nvmDurableWrite fuel vid offset buf count s =
      (getVolumeEntryIdx vid s).bind fun found =>
        (callRounds fuel offset count).bind fun rounds =>
          (rounds.foldlM (doRound found.1 buf) found.2).map fun t => (bytesWritten rounds, t) := by
  rw [nvmDurableWrite]
  cases getVolumeEntryIdx vid s with
  | none => rfl
  | some found =>
    refine (writeLoop_eq_rounds (lastLbn offset count) fuel (firstRound offset count) 0
      found.2).trans ?_
    simp only [Nat.zero_add, Option.bind_some]
    rfl

end Control

section Range

variable {offset count j fuel : Nat}

/-- Round `j` of a call that asks for at least one byte. -/
def roundAt (offset count j : Nat) : LoopRound where
  lbn := offset / blockSize + j
  localOffset := if j = 0 then offset % blockSize else 0
  localCount := chunk offset count j
  count := bytesLeft offset count j

theorem firstRound_eq (fits : offset + count ≤ 2 ^ 45) :
    firstRound offset count = roundAt offset count 0 := by
  rw [firstRound, lbnStart_eq fits]
  simp [roundAt, chunk, bytesLeft]

theorem roundAt_next (fits : offset + count ≤ 2 ^ 45) (positive : 0 < count)
    (more : j + 1 < callBlocks offset count) :
    (roundAt offset count j).next = roundAt offset count (j + 1) := by
  have bound := round_inside fits positive (Nat.le_refl (2 ^ 31)) more
  have lbn : (offset / blockSize + j + 1) % 2 ^ 32 = offset / blockSize + (j + 1) :=
    Nat.mod_eq_of_lt (by omega)
  rw [LoopRound.next, roundAt, roundAt]
  dsimp only
  rw [lbn, bytesLeft_succ fits positive more, chunk_succ, if_neg (Nat.succ_ne_zero j)]

/-- The next round begins where a round ends. -/
theorem roundAt_position (more : j + 1 < callBlocks offset count) :
    (roundAt offset count j).position + (roundAt offset count j).localCount =
      (roundAt offset count (j + 1)).position := by
  rw [callBlocks, blockSize_eq] at more
  simp only [LoopRound.position, roundAt, chunk, Nat.succ_ne_zero, if_false]
  rw [blockSize_eq]
  split <;> omega

theorem lastLbn_eq (fits : offset + count ≤ 2 ^ 45) (positive : 0 < count) :
    lastLbn offset count + 1 = offset / blockSize + callBlocks offset count := by
  have order : offset / blockSize ≤ (offset + count - 1) / blockSize :=
    Nat.div_le_div_right (by omega)
  rw [lastLbn, lbnEnd_eq fits positive, callBlocks]
  omega

theorem loopRounds_from (fits : offset + count ≤ 2 ^ 45) (positive : 0 < count)
    (left : Nat) (inside : j + left + 1 = callBlocks offset count) (enough : left < fuel) :
    loopRounds (lastLbn offset count) fuel (roundAt offset count j) =
      some ((List.range' j (left + 1)).map (roundAt offset count)) := by
  have last := lastLbn_eq fits positive
  induction left generalizing j fuel with
  | zero =>
    obtain ⟨fuel, rfl⟩ := Nat.exists_eq_add_one_of_ne_zero (Nat.ne_of_gt enough)
    have bound := round_inside fits positive (Nat.le_refl (2 ^ 31)) (j := j) (by omega)
    have done : ¬ (roundAt offset count j).next.lbn ≤ lastLbn offset count := by
      change ¬ (offset / blockSize + j + 1) % 2 ^ 32 ≤ lastLbn offset count
      omega
    rw [loopRounds, if_neg done]
    rfl
  | succ left ih =>
    obtain ⟨fuel, rfl⟩ := Nat.exists_eq_add_one_of_ne_zero (Nat.ne_of_gt (Nat.zero_lt_of_lt enough))
    have next := roundAt_next (j := j) fits positive (by omega)
    have again : (roundAt offset count (j + 1)).lbn ≤ lastLbn offset count := by
      change offset / blockSize + (j + 1) ≤ lastLbn offset count
      omega
    rw [loopRounds, next, if_pos again, ih (by omega) (by omega), List.range'_succ (n := left + 1)]
    rfl

/-- The rounds of a call are those of its blocks. -/
theorem callRounds_eq (fits : offset + count ≤ 2 ^ 45) (positive : 0 < count)
    (enough : callBlocks offset count ≤ fuel) :
    callRounds fuel offset count =
      some ((List.range (callBlocks offset count)).map (roundAt offset count)) := by
  have some : callBlocks offset count = (callBlocks offset count - 1) + 1 :=
    (Nat.succ_pred_eq_of_pos (Nat.succ_pos _)).symm
  rw [callRounds, firstRound_eq fits, List.range_eq_range', some]
  apply loopRounds_from fits positive
  · omega
  · omega

/-- More fuel changes nothing. -/
theorem loopRounds_mono {lbnEnd fuel more : Nat} {r : LoopRound} {rounds : List LoopRound}
    (ended : loopRounds lbnEnd fuel r = some rounds) (order : fuel ≤ more) :
    loopRounds lbnEnd more r = some rounds := by
  induction fuel generalizing more r rounds with
  | zero => cases ended
  | succ fuel ih =>
    obtain ⟨more, rfl⟩ : ∃ n, more = n + 1 := ⟨more - 1, by omega⟩
    rw [loopRounds] at ended ⊢
    split at ended
    · rename_i again
      obtain ⟨rest, later, rfl⟩ := Option.map_eq_some_iff.mp ended
      rw [if_pos again, ih later (by omega)]
      rfl
    · rename_i done
      rw [if_neg done]
      exact ended

end Range

section Ends

variable {lbnEnd fuel : Nat} {r : LoopRound} {rounds : List LoopRound}

/-- How often the loop body runs from block `lbn` on, with 32-bit block numbers:
behind `lbn_end` it runs once, except that the number after the last is `0`. -/
def roundCount (lbnEnd lbn : Nat) : Nat :=
  if lbn ≤ lbnEnd then lbnEnd - lbn + 1 else if lbn = 2 ^ 32 - 1 then lbnEnd + 2 else 1

theorem roundCount_again {lbn : Nat} (small : lbn < 2 ^ 32) (bounded : lbnEnd < 2 ^ 32 - 1)
    (again : (lbn + 1) % 2 ^ 32 ≤ lbnEnd) :
    roundCount lbnEnd lbn = roundCount lbnEnd ((lbn + 1) % 2 ^ 32) + 1 := by
  have next : roundCount lbnEnd ((lbn + 1) % 2 ^ 32) = lbnEnd - (lbn + 1) % 2 ^ 32 + 1 :=
    if_pos again
  rw [next, roundCount]
  by_cases last : lbn = 2 ^ 32 - 1
  · rw [if_neg (by omega), if_pos last]
    omega
  · rw [if_pos (by omega)]
    omega

theorem roundCount_done {lbn : Nat} (small : lbn < 2 ^ 32)
    (done : ¬ (lbn + 1) % 2 ^ 32 ≤ lbnEnd) : roundCount lbnEnd lbn = 1 := by
  unfold roundCount
  split
  · omega
  · rw [if_neg (by omega)]

theorem loopRounds_length (small : r.lbn < 2 ^ 32) (bounded : lbnEnd < 2 ^ 32 - 1)
    (ended : loopRounds lbnEnd fuel r = some rounds) :
    rounds.length = roundCount lbnEnd r.lbn := by
  induction fuel generalizing r rounds with
  | zero => cases ended
  | succ fuel ih =>
    rw [loopRounds] at ended
    split at ended
    · rename_i again
      obtain ⟨rest, later, rfl⟩ := Option.map_eq_some_iff.mp ended
      have length := ih (Nat.mod_lt _ (by decide)) later
      rw [List.length_cons, length]
      exact (roundCount_again small bounded again).symm
    · rename_i done
      cases ended
      exact (roundCount_done small done).symm

/-- Before the last block number the loop ends. -/
theorem loopRounds_ends (small : r.lbn < 2 ^ 32) (bounded : lbnEnd < 2 ^ 32 - 1)
    (enough : roundCount lbnEnd r.lbn ≤ fuel) :
    ∃ rounds, loopRounds lbnEnd fuel r = some rounds := by
  induction fuel generalizing r with
  | zero =>
    unfold roundCount at enough
    split at enough
    · omega
    · split at enough <;> omega
  | succ fuel ih =>
    rw [loopRounds]
    by_cases again : r.next.lbn ≤ lbnEnd
    · have count := roundCount_again small bounded again
      obtain ⟨rest, later⟩ := ih (r := r.next) (Nat.mod_lt _ (by decide)) (by
        change roundCount lbnEnd ((r.lbn + 1) % 2 ^ 32) ≤ fuel
        omega)
      rw [if_pos again, later]
      exact ⟨r :: rest, rfl⟩
    · rw [if_neg again]
      exact ⟨[r], rfl⟩

/-- With the last 32-bit number as `lbn_end` it never ends. -/
theorem loopRounds_endless (fuel : Nat) (r : LoopRound) :
    loopRounds (2 ^ 32 - 1) fuel r = none := by
  induction fuel generalizing r with
  | zero => rfl
  | succ fuel ih =>
    have again : r.next.lbn ≤ 2 ^ 32 - 1 := Nat.le_of_lt_succ (Nat.mod_lt _ (by decide))
    rw [loopRounds, if_pos again, ih]
    rfl

end Ends

end BurstBuffer.Source
