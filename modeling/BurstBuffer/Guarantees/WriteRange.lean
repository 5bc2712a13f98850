import Mathlib.Data.Finset.Image
import Mathlib.Order.Interval.Finset.Nat
import BurstBuffer.Invariants.WriteRounds

/-!
# The range of a write

Which blocks a call of nvm_durable_write goes through, which bytes of the file
its rounds stand for, and whether its loop ends.
-/
namespace BurstBuffer.Guarantees

open Source

/-- The rounds go once through the blocks of the request in order, their ranges
lie one behind the other and make up the request, `count` does not underflow, no
round reads behind the buffer, and the result is `count`. -/
structure TilesRange (offset count : Nat) (rounds : List LoopRound) : Prop where
  blocks : rounds.map LoopRound.lbn = List.range' (offset / blockSize)
    ((offset + count - 1) / blockSize - offset / blockSize + 1)
  consecutive : ∀ (k : Nat) r next, rounds[k]? = some r → rounds[k + 1]? = some next →
    r.position + r.localCount = next.position
  covers : ∀ p, (∃ r ∈ rounds, r.position ≤ p ∧ p < r.position + r.localCount) ↔
    offset ≤ p ∧ p < offset + count
  noUnderflow : ∀ r ∈ rounds, r.localCount ≤ r.count
  insideBuf : ∀ r ∈ rounds, r.localCount ≤ count
  returned : bytesWritten rounds = count

/-- The loop ends after rounds that tile the request. -/
def Tiled (offset count : Nat) : Prop :=
  ∃ fuel rounds, callRounds fuel offset count = some rounds ∧ TilesRange offset count rounds

section Tiling

variable {offset count j : Nat}

theorem mem_rounds {r : LoopRound} :
    r ∈ (List.range (callBlocks offset count)).map (roundAt offset count) ↔
      ∃ j < callBlocks offset count, roundAt offset count j = r := by
  simp

theorem getElem?_rounds {r : LoopRound}
    (here : ((List.range (callBlocks offset count)).map (roundAt offset count))[j]? = some r) :
    j < callBlocks offset count ∧ roundAt offset count j = r := by
  rw [List.getElem?_map, Option.map_eq_some_iff] at here
  obtain ⟨k, inside, rfl⟩ := here
  obtain ⟨bound, rfl⟩ := List.getElem?_eq_some_iff.mp inside
  rw [List.length_range] at bound
  rw [List.getElem_range]
  exact ⟨bound, rfl⟩

/-- Where the first `j + 1` rounds end. -/
theorem sum_chunk (reaches : blockSize ≤ offset % blockSize + count)
    (inside : j < callBlocks offset count) :
    offset + ((List.range (j + 1)).map (chunk offset count)).sum =
      min (offset + count) (blockSize * (offset / blockSize + j + 1)) := by
  rw [callBlocks] at inside
  rw [blockSize_eq] at *
  induction j with
  | zero =>
    rw [List.range_one, List.map_singleton, List.sum_singleton, chunk, blockSize_eq]
    simp only [if_true]
    omega
  | succ j ih =>
    have before := ih (by omega)
    rw [List.range_succ, List.map_append, List.sum_append, List.map_singleton,
      List.sum_singleton, ← Nat.add_assoc, before, chunk, blockSize_eq,
      if_neg (Nat.succ_ne_zero j)]
    omega

/-- The round that stands for a byte of the request. -/
theorem round_of_byte {p : Nat} (low : offset ≤ p) (high : p < offset + count) :
    ∃ j < callBlocks offset count, (roundAt offset count j).position ≤ p ∧
      p < (roundAt offset count j).position + (roundAt offset count j).localCount := by
  refine ⟨p / blockSize - offset / blockSize, ?_, ?_⟩
  · rw [callBlocks, blockSize_eq]
    omega
  · simp only [LoopRound.position, roundAt, chunk]
    rw [blockSize_eq]
    split <;> omega

theorem byte_of_round {p : Nat} (reaches : blockSize ≤ offset % blockSize + count)
    (low : (roundAt offset count j).position ≤ p)
    (high : p < (roundAt offset count j).position + (roundAt offset count j).localCount) :
    offset ≤ p ∧ p < offset + count := by
  simp only [LoopRound.position, roundAt, chunk] at low high
  rw [blockSize_eq] at *
  by_cases first : j = 0
  · simp only [first, if_true] at low high
    omega
  · simp only [first, if_false] at low high
    omega

theorem share_le (reaches : blockSize ≤ offset % blockSize + count) :
    chunk offset count j ≤ bytesLeft offset count j ∧ bytesLeft offset count j ≤ count := by
  rw [chunk, bytesLeft]
  rw [blockSize_eq] at *
  split <;> omega

theorem tilesRange (reaches : blockSize ≤ offset % blockSize + count) :
    TilesRange offset count
      ((List.range (callBlocks offset count)).map (roundAt offset count)) where
  blocks := by
    rw [List.map_map, List.range_eq_range', ← callBlocks, List.range'_eq_map_range,
      List.range'_eq_map_range, List.map_map]
    apply List.map_congr_left
    intro j _
    change offset / blockSize + (0 + j) = offset / blockSize + j
    rw [Nat.zero_add]
  consecutive k r next here there := by
    obtain ⟨_, rfl⟩ := getElem?_rounds here
    obtain ⟨more, rfl⟩ := getElem?_rounds there
    exact roundAt_position more
  covers p := by
    constructor
    · rintro ⟨r, member, low, high⟩
      obtain ⟨j, inside, rfl⟩ := mem_rounds.mp member
      exact byte_of_round reaches low high
    · rintro ⟨low, high⟩
      obtain ⟨j, inside, covered⟩ := round_of_byte low high
      exact ⟨roundAt offset count j, mem_rounds.mpr ⟨j, inside, rfl⟩, covered⟩
  noUnderflow r member := by
    obtain ⟨j, _, rfl⟩ := mem_rounds.mp member
    exact (share_le reaches).1
  insideBuf r member := by
    obtain ⟨j, _, rfl⟩ := mem_rounds.mp member
    have bounds := share_le (j := j) reaches
    exact Nat.le_trans bounds.1 bounds.2
  returned := by
    have last : callBlocks offset count - 1 + 1 = callBlocks offset count :=
      Nat.succ_pred_eq_of_pos (Nat.succ_pos _)
    have total := sum_chunk (j := callBlocks offset count - 1) reaches (by omega)
    rw [last] at total
    have ending : offset + count ≤
        blockSize * (offset / blockSize + (callBlocks offset count - 1) + 1) := by
      rw [callBlocks, blockSize_eq]
      omega
    rw [Nat.min_eq_left ending] at total
    rw [bytesWritten, List.map_map]
    exact Nat.add_left_cancel total

/-- A request that ends inside its first block copies more than it has. -/
theorem reaches_of_tiled (fits : offset + count ≤ 2 ^ 45) (positive : 0 < count)
    (tiled : Tiled offset count) : blockSize ≤ offset % blockSize + count := by
  obtain ⟨fuel, rounds, ended, tiles⟩ := tiled
  have more := loopRounds_mono ended (Nat.le_add_right fuel (callBlocks offset count))
  rw [← callRounds, callRounds_eq fits positive (Nat.le_add_left _ _)] at more
  cases more
  have first := tiles.insideBuf (roundAt offset count 0)
    (mem_rounds.mpr ⟨0, Nat.succ_pos _, rfl⟩)
  change blockSize - offset % blockSize ≤ count at first
  omega

theorem tiled_iff (fits : offset + count ≤ 2 ^ 45) (positive : 0 < count) :
    Tiled offset count ↔ blockSize ≤ offset % blockSize + count :=
  ⟨reaches_of_tiled fits positive, fun reaches =>
    ⟨_, _, callRounds_eq fits positive (Nat.le_refl _), tilesRange reaches⟩⟩

end Tiling

/-- What every call does is given by its rounds. -/
def RoundsAreTheCall (offset count : Nat) : Prop :=
  ∀ (C : CuckoohashMap) (N fuel vid : Nat) (buf : Nat → UInt8) (s : State C N),
    nvmDurableWrite fuel vid offset buf count s =
      (getVolumeEntryIdx vid s).bind fun found =>
        (callRounds fuel offset count).bind fun rounds =>
          (rounds.foldlM (doRound found.1 buf) found.2).map fun t => (bytesWritten rounds, t)

/-- The rounds tile exactly the requests that reach the end of their first block. -/
theorem write_tiles_range (offset count : Nat) (positive : 1 ≤ count)
    (fits : offset + count ≤ 2 ^ 45) :
    RoundsAreTheCall offset count ∧
      (Tiled offset count ↔ blockSize ≤ offset % blockSize + count) :=
  ⟨fun _ _ fuel vid buf s => nvmDurableWrite_eq_rounds fuel vid offset buf count s,
    tiled_iff fits positive⟩

/-- Two blocks and a half from the middle of block `1` on. -/
theorem write_tiles_range_middle : Tiled 24576 40960 :=
  (write_tiles_range 24576 40960 (by decide) (by decide)).2.mpr (by decide)

/-- One byte at offset `0` copies a whole block. -/
theorem write_tiles_range_byte : ¬ ∀ offset count, 1 ≤ count → offset + count ≤ 2 ^ 45 →
    Tiled offset count := by
  intro all
  have reaches := reaches_of_tiled (by decide) (by decide) (all 0 1 (by decide) (by decide))
  exact absurd reaches (by decide)

/-- The blocks of the file that a request touches. -/
def overlapping (offset count : Nat) : Finset Nat :=
  (Finset.Ico offset (offset + count)).image (· / blockSize)

/-- The loop ends after as many rounds as the request touches blocks. -/
def EndsInTime (offset count : Nat) : Prop :=
  ∃ fuel rounds, callRounds fuel offset count = some rounds ∧
    rounds.length = (overlapping offset count).card

section Ending

variable {offset count : Nat}

theorem card_overlapping (positive : 0 < count) :
    (overlapping offset count).card =
      (offset + count - 1) / blockSize - offset / blockSize + 1 := by
  have blocks : overlapping offset count =
      Finset.Icc (offset / blockSize) ((offset + count - 1) / blockSize) := by
    ext b
    rw [overlapping, Finset.mem_image, Finset.mem_Icc, blockSize_eq]
    constructor
    · rintro ⟨p, inside, rfl⟩
      rw [Finset.mem_Ico] at inside
      omega
    · rintro ⟨low, high⟩
      refine ⟨max offset (16384 * b), ?_, ?_⟩
      · rw [Finset.mem_Ico]
        omega
      · omega
  have order : offset / blockSize ≤ (offset + count - 1) / blockSize :=
    Nat.div_le_div_right (by omega)
  rw [blocks, Nat.card_Icc]
  omega

theorem lastLbn_of_fits (positive : 0 < count) (fits : offset + count < 2 ^ 63) :
    lastLbn offset count = (offset + count - 1) / blockSize % 2 ^ 32 := by
  have wrapped : (offset + count + 2 ^ 64 - 1) % 2 ^ 64 = offset + count - 1 := by omega
  rw [lastLbn, wrapped]

/-- A loop that ends makes at least one round. -/
theorem rounds_ne_nil {lbnEnd fuel : Nat} {r : LoopRound} {rounds : List LoopRound}
    (ended : loopRounds lbnEnd fuel r = some rounds) : rounds.length ≠ 0 := by
  cases fuel with
  | zero => cases ended
  | succ fuel =>
    rw [loopRounds] at ended
    split at ended
    · obtain ⟨rest, _, rfl⟩ := Option.map_eq_some_iff.mp ended
      exact Nat.succ_ne_zero _
    · cases ended
      exact Nat.succ_ne_zero _

/-- The first and the last block of the request agree but for their low 32 bits,
or the first is the last before the low 32 bits start again. -/
def SameHigh (first last : Nat) : Prop :=
  first / 2 ^ 32 = last / 2 ^ 32 ∨
    first % 2 ^ 32 = 2 ^ 32 - 1 ∧ last / 2 ^ 32 = first / 2 ^ 32 + 1

theorem roundCount_eq_iff {first last : Nat} (order : first ≤ last)
    (bounded : last % 2 ^ 32 ≠ 2 ^ 32 - 1) :
    roundCount (last % 2 ^ 32) (first % 2 ^ 32) = last - first + 1 ↔ SameHigh first last := by
  unfold roundCount SameHigh
  split
  · omega
  · split <;> omega

theorem endsInTime_iff (fits : offset + count < 2 ^ 63) :
    EndsInTime offset count ↔ 0 < count ∧
      (offset + count - 1) / blockSize % 2 ^ 32 ≠ 2 ^ 32 - 1 ∧
      SameHigh (offset / blockSize) ((offset + count - 1) / blockSize) := by
  have small : (firstRound offset count).lbn < 2 ^ 32 := Nat.mod_lt _ (by decide)
  constructor
  · rintro ⟨fuel, rounds, ended, length⟩
    have positive : 0 < count := by
      rcases Nat.eq_zero_or_pos count with rfl | positive
      · rw [overlapping, Nat.add_zero, Finset.Ico_self, Finset.image_empty,
          Finset.card_empty] at length
        exact absurd length (rounds_ne_nil ended)
      · exact positive
    have last := lastLbn_of_fits positive fits
    rw [callRounds, last] at ended
    have bounded : (offset + count - 1) / blockSize % 2 ^ 32 ≠ 2 ^ 32 - 1 := by
      intro all
      rw [all, loopRounds_endless] at ended
      cases ended
    have order : offset / blockSize ≤ (offset + count - 1) / blockSize :=
      Nat.div_le_div_right (by omega)
    rw [card_overlapping positive, loopRounds_length small (by omega) ended] at length
    exact ⟨positive, bounded, (roundCount_eq_iff order bounded).mp length⟩
  · rintro ⟨positive, bounded, high⟩
    have last := lastLbn_of_fits positive fits
    have order : offset / blockSize ≤ (offset + count - 1) / blockSize :=
      Nat.div_le_div_right (by omega)
    have below : lastLbn offset count < 2 ^ 32 - 1 := by omega
    obtain ⟨rounds, ended⟩ := loopRounds_ends small below (Nat.le_refl _)
    refine ⟨_, rounds, ended, ?_⟩
    rw [loopRounds_length small (by omega) ended, card_overlapping positive, last]
    exact (roundCount_eq_iff order bounded).mpr high

end Ending

/-- The loop ends in time exactly for requests of at least one byte that do not
reach across a multiple of `2^46`, a file position at which the 32-bit block
numbers start again, except from the block before it on. -/
theorem block_loop_ends (offset count : Nat) (fits : offset + count < 2 ^ 63) :
    RoundsAreTheCall offset count ∧
      (EndsInTime offset count ↔ 0 < count ∧
        (offset + count - 1) / blockSize % 2 ^ 32 ≠ 2 ^ 32 - 1 ∧
        SameHigh (offset / blockSize) ((offset + count - 1) / blockSize)) :=
  ⟨fun _ _ fuel vid buf s => nvmDurableWrite_eq_rounds fuel vid offset buf count s,
    endsInTime_iff fits⟩

/-- A request that begins and ends in the middle of blocks, with one whole block between. -/
theorem block_loop_ends_blocks :
    ∃ fuel rounds, callRounds fuel 100 40000 = some rounds ∧ rounds.length = 3 := by
  have ends : EndsInTime 100 40000 :=
    (block_loop_ends 100 40000 (by decide)).2.mpr ⟨by decide, by decide, Or.inl (by decide)⟩
  obtain ⟨fuel, rounds, ended, length⟩ := ends
  rw [card_overlapping (by decide)] at length
  exact ⟨fuel, rounds, ended, length⟩

/-- An empty request at offset `0` never ends. -/
theorem block_loop_ends_empty : (∀ fuel, callRounds fuel 0 0 = none) ∧ ¬ EndsInTime 0 0 := by
  have endless : ∀ fuel, callRounds fuel 0 0 = none := by
    intro fuel
    apply loopRounds_endless
  refine ⟨endless, fun ⟨fuel, rounds, ended, _⟩ => ?_⟩
  rw [endless] at ended
  cases ended

end BurstBuffer.Guarantees
