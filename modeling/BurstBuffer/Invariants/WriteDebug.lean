import BurstBuffer.Invariants.WriteRounds
import BurstBuffer.Source.WriteDebug

/-!
# The rounds of the loop with WRITE_DEBUG

They are listed from the arguments too. `count` never shrinks, so the last round clips
against the whole request instead of what is left of it.
-/
namespace BurstBuffer.Source

variable {C : CuckoohashMap} {N : Nat}

/-- The variables of the body in a round. -/
def debugRound (lbn localOffset count : Nat) : LoopRound where
  lbn := lbn
  localOffset := localOffset
  localCount := if count > blockSize - localOffset then blockSize - localOffset else count % 2 ^ 32
  count := count

/-- The rounds of the for loop, if it ends within `fuel` tests. -/
def debugRounds (lbnEnd localCount : Nat) : Nat → (lbn localOffset count : Nat) →
    Option (List LoopRound)
  | 0, _, _, _ => none
  | fuel + 1, lbn, localOffset, count =>
    if lbn ≤ lbnEnd then
      (debugRounds lbnEnd localCount fuel ((lbn + 1) % 2 ^ 32) 0
        ((count + 2 ^ 64 - localCount) % 2 ^ 64)).map (debugRound lbn localOffset count :: ·)
    else some []

/-- The rounds of a call. -/
def debugCallRounds (fuel offset count : Nat) : Option (List LoopRound) :=
  debugRounds (lastLbn offset count) 0 fuel (offset / blockSize % 2 ^ 32) (offset % blockSize) count

section Control

variable {v : VolumeIdx} {buf : Nat → UInt8}

/-- The loop does its rounds and returns what they add up to. -/
theorem writeDebugLoop_eq_rounds (lbnEnd localCount fuel lbn localOffset count before : Nat)
    (s : State C N) :
    writeDebugLoop v buf lbnEnd localCount fuel lbn localOffset count before s =
      (debugRounds lbnEnd localCount fuel lbn localOffset count).bind fun rounds =>
        (rounds.foldlM (doRound v buf) s).map fun t => (before + bytesWritten rounds, t) := by
  induction fuel generalizing lbn localOffset count before s with
  | zero => rfl
  | succ fuel ih =>
    unfold writeDebugLoop debugRounds
    by_cases more : lbn ≤ lbnEnd
    · rw [if_pos more, if_pos more]
      cases written : writeBlock v lbn localOffset buf
          (debugRound lbn localOffset count).localCount s with
      | none =>
        have blocked : doRound v buf s (debugRound lbn localOffset count) = none := by
          rw [doRound]
          exact congrArg (Option.map Prod.snd) written
        refine (congrArg (Option.bind · _) written).trans ?_
        cases debugRounds lbnEnd localCount fuel ((lbn + 1) % 2 ^ 32) 0
            ((count + 2 ^ 64 - localCount) % 2 ^ 64) with
        | none => rfl
        | some rounds => simp [blocked]
      | some result =>
        obtain ⟨n, t⟩ := result
        obtain rfl := writeBlock_count written
        have done : doRound v buf s (debugRound lbn localOffset count) = some t := by
          rw [doRound]
          exact congrArg (Option.map Prod.snd) written
        refine (congrArg (Option.bind · _) written).trans ?_
        refine (ih _ _ _ _ t).trans ?_
        cases debugRounds lbnEnd localCount fuel ((lbn + 1) % 2 ^ 32) 0
            ((count + 2 ^ 64 - localCount) % 2 ^ 64) with
        | none => rfl
        | some rounds => simp [done, bytesWritten, Nat.add_assoc]
    · rw [if_neg more, if_neg more]
      rfl

theorem nvmDurableWriteDebug_eq_rounds (fuel vid offset : Nat) (buf : Nat → UInt8) (count : Nat)
    (s : State C N) :
    nvmDurableWriteDebug fuel vid offset buf count s =
      (getVolumeEntryIdx vid s).bind fun found =>
        (debugCallRounds fuel offset count).bind fun rounds =>
          (rounds.foldlM (doRound found.1 buf) found.2).map fun t => (bytesWritten rounds, t) := by
  rw [nvmDurableWriteDebug]
  cases getVolumeEntryIdx vid s with
  | none => rfl
  | some found =>
    refine (writeDebugLoop_eq_rounds (lastLbn offset count) 0 fuel _ _ count 0 found.2).trans ?_
    simp only [Nat.zero_add, Option.bind_some]
    rfl

end Control

section Range

variable {offset count j fuel : Nat}

/-- Round `j` of a call that asks for at least one byte. -/
def debugRoundAt (offset count j : Nat) : LoopRound :=
  debugRound (offset / blockSize + j) (if j = 0 then offset % blockSize else 0) count

theorem debugRounds_from (fits : offset + count ≤ 2 ^ 45) (positive : 0 < count)
    (left : Nat) (inside : j + left = callBlocks offset count) (enough : left < fuel) :
    debugRounds (lastLbn offset count) 0 fuel (offset / blockSize + j)
      (if j = 0 then offset % blockSize else 0) count =
        some ((List.range' j left).map (debugRoundAt offset count)) := by
  have last := lastLbn_eq fits positive
  induction left generalizing j fuel with
  | zero =>
    obtain ⟨fuel, rfl⟩ := Nat.exists_eq_add_one_of_ne_zero (Nat.ne_of_gt enough)
    have done : ¬ offset / blockSize + j ≤ lastLbn offset count := by omega
    rw [debugRounds, if_neg done]
    rfl
  | succ left ih =>
    obtain ⟨fuel, rfl⟩ := Nat.exists_eq_add_one_of_ne_zero (Nat.ne_of_gt (Nat.zero_lt_of_lt enough))
    have again : offset / blockSize + j ≤ lastLbn offset count := by omega
    have bound := round_inside fits positive (Nat.le_refl (2 ^ 31)) (j := j) (by omega)
    have lbn : (offset / blockSize + j + 1) % 2 ^ 32 = offset / blockSize + (j + 1) :=
      Nat.mod_eq_of_lt (by omega)
    have same : (count + 2 ^ 64 - 0) % 2 ^ 64 = count := by omega
    have inside' : j + 1 + left = callBlocks offset count := by omega
    have enough' : left < fuel := Nat.lt_of_succ_lt_succ enough
    have later := ih inside' enough'
    rw [if_neg (Nat.succ_ne_zero j)] at later
    rw [debugRounds, if_pos again, lbn, same, later, List.range'_succ]
    rfl

/-- The rounds of a call are those of its blocks, as in the other variant. -/
theorem debugCallRounds_eq (fits : offset + count ≤ 2 ^ 45) (positive : 0 < count)
    (enough : callBlocks offset count < fuel) :
    debugCallRounds fuel offset count =
      some ((List.range (callBlocks offset count)).map (debugRoundAt offset count)) := by
  have rounds := debugRounds_from (j := 0) fits positive _ (Nat.zero_add _) enough
  rw [if_pos rfl, Nat.add_zero] at rounds
  rw [debugCallRounds, lbnStart_eq fits, rounds, List.range_eq_range']

/-- More fuel changes nothing. -/
theorem debugRounds_mono {lbnEnd localCount lbn localOffset more : Nat} {rounds : List LoopRound}
    (ended : debugRounds lbnEnd localCount fuel lbn localOffset count = some rounds)
    (order : fuel ≤ more) :
    debugRounds lbnEnd localCount more lbn localOffset count = some rounds := by
  induction fuel generalizing more lbn localOffset count rounds with
  | zero => cases ended
  | succ fuel ih =>
    obtain ⟨more, rfl⟩ : ∃ n, more = n + 1 := ⟨more - 1, by omega⟩
    unfold debugRounds at ended ⊢
    split at ended
    · rename_i again
      obtain ⟨rest, later, rfl⟩ := Option.map_eq_some_iff.mp ended
      rw [if_pos again, ih later (by omega)]
      rfl
    · rename_i done
      rw [if_neg done]
      exact ended

end Range

end BurstBuffer.Source
