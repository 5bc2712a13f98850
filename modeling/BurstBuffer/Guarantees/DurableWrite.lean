import BurstBuffer.Invariants.DurableWrite
import BurstBuffer.Invariants.WideIndex

/-!
# What nvm_durable_write stores and what it keeps

The loop copies from the start of `buf` to the start of a block in every round.
A request of at most one block that starts at a block boundary is stored as
asked; which bytes of any other request end up in their place, and which bytes
next to it survive, is decided exactly.
-/
namespace BurstBuffer.Guarantees

open Library Source

variable {C : CuckoohashMap} {N : Nat}

/-- The position of a file offset in its block. -/
def inBlock (offset : Nat) : Fin blockSize := Fin.ofNat blockSize offset

/-- Every byte of the request is where the caller asked for it. -/
def StoredAsAsked (t : State C N) (v : VolumeIdx) (offset : Nat) (buf : Nat → UInt8)
    (count : Nat) : Prop :=
  ∀ k < count, ∃ i, validInode t v ((offset + k) / blockSize) = some i ∧
    t.blockOf i (inBlock (offset + k)) = buf k

/-- The bytes the loop puts in place of the request are those of the request: in
the first block it copies only as many bytes as there are from `offset` to the
end of the block, and what lies behind them in the ownerless block stays. -/
def LinesUp (s : State C N) (v : VolumeIdx) (offset : Nat) (buf : Nat → UInt8)
    (count : Nat) : Prop :=
  ∀ k < count, (if k < blockSize - offset % blockSize ∧
      blockSize - offset % blockSize ≤ (offset + k) % blockSize then
    s.blockTable (s.volumeTable v).blockIndex (inBlock (offset + k))
    else buf ((offset + k) % blockSize)) = buf k

section Call

variable {limit offset count : Nat} {s t : State C N} {v : VolumeIdx} {buf : Nat → UInt8}

/-- The bytes of the request after the call. -/
theorem stored_byte (call : Rounds limit s v offset buf count (callBlocks offset count) t)
    {k : Nat} (inside : k < count) :
    ∃ i, validInode t v ((offset + k) / blockSize) = some i ∧
      t.blockOf i (inBlock (offset + k)) =
        if k < blockSize - offset % blockSize ∧
          blockSize - offset % blockSize ≤ (offset + k) % blockSize then
        s.blockTable (s.volumeTable v).blockIndex (inBlock (offset + k))
        else buf ((offset + k) % blockSize) := by
  have start : offset / blockSize ≤ (offset + k) / blockSize := Nat.div_le_div_right (by omega)
  obtain ⟨d, block⟩ := Nat.exists_eq_add_of_le start
  have last : (offset + k) / blockSize ≤ (offset + count - 1) / blockSize :=
    Nat.div_le_div_right (by omega)
  have below : d < callBlocks offset count := by
    rw [callBlocks]
    omega
  obtain ⟨i, valid, bytes⟩ := call.stored d below
  refine ⟨i, block ▸ valid, ?_⟩
  rw [bytes, memcpy]
  have position : (inBlock (offset + k)).val = (offset + k) % blockSize := rfl
  rw [position]
  rw [blockSize_eq] at block
  cases d with
  | zero =>
    have size : chunk offset count 0 = blockSize - offset % blockSize := if_pos rfl
    have early : k < blockSize - offset % blockSize := by
      rw [blockSize_eq]
      omega
    rw [size]
    by_cases copied : (offset + k) % blockSize < blockSize - offset % blockSize
    · rw [if_pos copied, if_neg fun both => absurd both.2 (Nat.not_le_of_lt copied)]
    · rw [if_neg copied, if_pos ⟨early, Nat.le_of_not_lt copied⟩]
      rfl
  | succ d =>
    have late : ¬ k < blockSize - offset % blockSize := by
      rw [blockSize_eq]
      omega
    have copied : (offset + k) % blockSize < chunk offset count (d + 1) := by
      rw [chunk, if_neg (Nat.succ_ne_zero d)]
      refine Nat.lt_min.mpr ⟨Nat.mod_lt _ (by decide), ?_⟩
      rw [blockSize_eq]
      omega
    rw [if_pos copied, if_neg fun both => late both.1]

theorem storedAsAsked_iff (call : Rounds limit s v offset buf count (callBlocks offset count) t) :
    StoredAsAsked t v offset buf count ↔ LinesUp s v offset buf count := by
  refine forall₂_congr fun k inside => ?_
  obtain ⟨i, valid, byte⟩ := stored_byte call inside
  rw [← byte]
  constructor
  · rintro ⟨j, valid', stored⟩
    cases valid.symm.trans valid'
    exact stored
  · exact fun stored => ⟨i, valid, stored⟩

/-- An aligned request of one block lines up, whatever is in the buffer. -/
theorem linesUp_of_aligned (aligned : offset % blockSize = 0) (one : count ≤ blockSize) :
    LinesUp s v offset buf count := by
  intro k inside
  have position : (offset + k) % blockSize = k := by
    rw [blockSize_eq] at aligned one ⊢
    omega
  have copied : ¬ blockSize - offset % blockSize ≤ k := by omega
  rw [position, if_neg fun both => copied both.2]

/-- For every other request some buffer does not. -/
theorem aligned_of_linesUp (positive : 0 < count)
    (all : ∀ buf, LinesUp s v offset buf count) : offset % blockSize = 0 ∧ count ≤ blockSize := by
  have aligned : offset % blockSize = 0 := by
    by_contra ragged
    have first := all (fun k => if k = 0 then
      s.blockTable (s.volumeTable v).blockIndex (inBlock offset) + 1 else
      s.blockTable (s.volumeTable v).blockIndex (inBlock offset)) 0 positive
    simp only [Nat.add_zero, if_true, ragged, if_false, ite_self] at first
    exact absurd first (by simp)
  refine ⟨aligned, ?_⟩
  by_contra long
  have next := all (fun k => if k = 0 then 0 else 1) blockSize (by omega)
  have position : (offset + blockSize) % blockSize = 0 := by
    rw [Nat.add_mod_right, aligned]
  have late : ¬ blockSize < blockSize - offset % blockSize := by omega
  rw [position, if_neg fun both => late both.1] at next
  exact absurd next (by decide)

end Call

/-- A position of block `lbn` that the request does not cover. -/
def Outside (offset count lbn p : Nat) : Prop :=
  blockSize * lbn + p < offset ∨ offset + count ≤ blockSize * lbn + p

/-- The images of the touched blocks agree outside the request. -/
def KeepsRest (s t : State C N) (v : VolumeIdx) (offset count : Nat) : Prop :=
  ∀ j < callBlocks offset count, ∃ before after,
    visibleImage s v (offset / blockSize + j) = some before ∧
    visibleImage t v (offset / blockSize + j) = some after ∧
    ∀ p, Outside offset count (offset / blockSize + j) p.val → after p = before p

/-- What the loop puts outside the request, bytes of the caller's memory or of
the block it copies into, is what was there. -/
def RestLinesUp (s : State C N) (v : VolumeIdx) (offset : Nat) (buf : Nat → UInt8)
    (count : Nat) : Prop :=
  ∀ j < callBlocks offset count, ∃ before,
    visibleImage s v (offset / blockSize + j) = some before ∧
    ∀ p, Outside offset count (offset / blockSize + j) p.val →
      memcpy (residue s v (offset / blockSize) j) buf (chunk offset count j) p = before p

/-- The bytes behind the leftover in the block the last round copies into are
those of the image already. -/
def TailLinesUp (s : State C N) (v : VolumeIdx) (offset count : Nat) : Prop :=
  ∃ before, visibleImage s v (offset / blockSize + count / blockSize) = some before ∧
    ∀ p : Fin blockSize, count % blockSize ≤ p.val →
      residue s v (offset / blockSize) (count / blockSize) p = before p

section Rest

variable {limit offset count : Nat} {s t : State C N} {v : VolumeIdx} {buf : Nat → UInt8}

theorem keepsRest_iff (call : Rounds limit s v offset buf count (callBlocks offset count) t) :
    KeepsRest s t v offset count ↔ RestLinesUp s v offset buf count := by
  refine forall₂_congr fun j inside => exists_congr fun before => ?_
  obtain ⟨i, valid, bytes⟩ := call.stored j inside
  have image : visibleImage t v (offset / blockSize + j) =
      some (memcpy (residue s v (offset / blockSize) j) buf (chunk offset count j)) := by
    rw [visibleImage, valid, ← bytes]
  rw [image]
  constructor
  · rintro ⟨after, shown, same, rest⟩
    cases same
    exact ⟨shown, rest⟩
  · rintro ⟨shown, rest⟩
    exact ⟨_, shown, rfl, rest⟩

/-- What an aligned request does not cover lies behind its leftover. -/
theorem outside_of_aligned {j p : Nat} (positive : 0 < count) (aligned : offset % blockSize = 0)
    (inside : j < callBlocks offset count) (small : p < blockSize)
    (outside : Outside offset count (offset / blockSize + j) p) :
    count % blockSize ≠ 0 ∧ j = count / blockSize ∧ count % blockSize ≤ p := by
  rw [callBlocks] at inside
  rw [Outside] at outside
  rw [blockSize_eq] at *
  omega

theorem outside_of_behind {p : Nat} (aligned : offset % blockSize = 0)
    (behind : count % blockSize ≤ p) :
    Outside offset count (offset / blockSize + count / blockSize) p := by
  right
  rw [blockSize_eq] at *
  omega

theorem chunk_of_leftover (aligned : offset % blockSize = 0) (long : blockSize < count) :
    chunk offset count (count / blockSize) = count % blockSize := by
  rw [chunk]
  rw [blockSize_eq] at *
  split <;> omega

theorem leftover_inside (aligned : offset % blockSize = 0) (leftover : count % blockSize ≠ 0) :
    count / blockSize < callBlocks offset count := by
  rw [callBlocks]
  rw [blockSize_eq] at *
  omega

/-- An aligned request keeps the rest when it ends at a block boundary, or when
its tail does by chance. -/
theorem restLinesUp_of_aligned (positive : 0 < count)
    (shown : ∀ lbn, ∃ image, visibleImage s v lbn = some image) (aligned : offset % blockSize = 0)
    (ends : count % blockSize = 0 ∨ blockSize < count ∧ TailLinesUp s v offset count) :
    RestLinesUp s v offset buf count := by
  intro j inside
  obtain ⟨before, image⟩ := shown (offset / blockSize + j)
  refine ⟨before, image, fun p outside => ?_⟩
  obtain ⟨leftover, rfl, behind⟩ := outside_of_aligned positive aligned inside p.isLt outside
  rcases ends with whole | ⟨long, before', shown', tail⟩
  · exact absurd whole leftover
  · cases image.symm.trans shown'
    rw [memcpy, chunk_of_leftover aligned long, if_neg (Nat.not_lt_of_le behind)]
    exact tail p behind

/-- For every other request some buffer spoils the rest. -/
theorem aligned_of_restLinesUp (all : ∀ buf, RestLinesUp s v offset buf count) :
    offset % blockSize = 0 ∧
      (count % blockSize = 0 ∨ blockSize < count ∧ TailLinesUp s v offset count) := by
  -- a byte outside the request that is copied from the buffer cannot match every buffer
  have notCopied : ∀ j < callBlocks offset count, ∀ p : Fin blockSize,
      Outside offset count (offset / blockSize + j) p.val → ¬ p.val < chunk offset count j := by
    intro j inside p outside copied
    obtain ⟨before, image, _⟩ := all (fun _ => 0) j inside
    obtain ⟨before', image', rest⟩ := all (fun _ => before p + 1) j inside
    cases image.symm.trans image'
    have byte := rest p outside
    rw [memcpy, if_pos copied] at byte
    exact absurd byte (by simp)
  have first : 0 < callBlocks offset count := Nat.succ_pos _
  have size : chunk offset count 0 = blockSize - offset % blockSize := if_pos rfl
  have aligned : offset % blockSize = 0 := by
    by_contra ragged
    have start : Outside offset count (offset / blockSize + 0) 0 := by
      left
      rw [blockSize_eq] at *
      omega
    have copied : 0 < chunk offset count 0 := by
      rw [size]
      exact Nat.sub_pos_of_lt (Nat.mod_lt _ (by decide))
    exact notCopied 0 first ⟨0, by decide⟩ start copied
  refine ⟨aligned, or_iff_not_imp_left.mpr fun leftover => ?_⟩
  have last := leftover_inside aligned leftover
  by_cases long : blockSize < count
  · obtain ⟨before, image, rest⟩ := all (fun _ => 0) _ last
    refine ⟨long, before, image, fun p behind => ?_⟩
    have outside := outside_of_behind aligned behind
    have byte := rest p outside
    rwa [memcpy, if_neg (notCopied _ last p outside)] at byte
  · have whole : count ≠ blockSize := fun same => leftover (same ▸ Nat.mod_self count)
    have short : count < blockSize := by omega
    have zero : count / blockSize = 0 := Nat.div_eq_of_lt short
    have outside := outside_of_behind (p := count) aligned (Nat.mod_le count blockSize)
    rw [zero] at outside
    refine absurd ?_ (notCopied 0 first ⟨count, short⟩ outside)
    rw [size, aligned]
    exact short

end Rest

/-- Exactly which calls store what they were asked to: for all buffers only the
aligned ones of at most one block, for a given buffer those that line up. -/
theorem durable_write_stores (C : CuckoohashMap) (N : Nat) (cwd : String) (s t u : State C N)
    (vid offset count fuel n : Nat) (v : VolumeIdx) (buf : Nat → UInt8)
    (reach : (system C N cwd (2 ^ 32)).ReachableBy NarrowStep s) (positive : 0 < count)
    (fits : offset + count ≤ 2 ^ 45) (found : getVolumeEntryIdx vid s = some (v, t))
    (narrow : NarrowCall t v offset count)
    (returned : nvmDurableWrite fuel vid offset buf count s = some (n, u)) :
    (StoredAsAsked u v offset buf count ↔ LinesUp t v offset buf count) ∧
    ((∀ buf' m w, nvmDurableWrite fuel vid offset buf' count s = some (m, w) →
        StoredAsAsked w v offset buf' count) ↔ offset % blockSize = 0 ∧ count ≤ blockSize) := by
  have ok := (SystemOk.of_reachable reach).found found
  have call : ∀ buf' m w, nvmDurableWrite fuel vid offset buf' count s = some (m, w) →
      Rounds (2 ^ 32) t v offset buf' count (callBlocks offset count) w := fun _ _ _ returned =>
    nvmDurableWrite_spec fits positive (by decide) ok found narrow returned
  refine ⟨storedAsAsked_iff (call buf n u returned), fun all => ?_, ?_⟩
  · refine aligned_of_linesUp (s := t) (v := v) positive fun buf' => ?_
    obtain ⟨w, returned'⟩ :=
      nvmDurableWrite_returns fits positive (by decide) ok found narrow returned buf'
    exact (storedAsAsked_iff (call buf' n w returned')).mp (all buf' n w returned')
  · rintro ⟨aligned, one⟩ buf' m w returned'
    exact (storedAsAsked_iff (call buf' m w returned')).mpr (linesUp_of_aligned aligned one)

/-- The first call of a new system, on block `0` of its first volume. -/
theorem first_call (offset count : Nat) (buf : Nat → UInt8) (positive : 0 < count)
    (one : offset + count ≤ blockSize) : ∃ (s t u : State functionMap 128) (n : Nat),
      (system functionMap 128 "/" (2 ^ 32)).ReachableBy NarrowStep s ∧
      getVolumeEntryIdx 0 s = some (zeroVolume, t) ∧
      Filled (nvmStructureBuild (blankMemory 128)) (2 ^ 32) 0 t ∧
      nvmDurableWrite 1 0 offset buf count s = some (n, u) := by
  obtain ⟨s, initial, fresh⟩ :=
    system_starts (C := functionMap) (2 ^ 32) "/" (blankMemory 128)
  obtain ⟨t, found, filled⟩ := Filled.start (2 ^ 32) fresh rfl rfl (built_layout _)
  have fits : offset + count ≤ 2 ^ 45 := Nat.le_trans one (by decide)
  have start : offset / blockSize = 0 := Nat.div_eq_of_lt (by omega)
  have last : 0 + 1 = callBlocks offset count := by
    rw [callBlocks, start, Nat.div_eq_of_lt (by omega)]
  have chosen := filled.blockInode (by decide)
  have counted := filled.count
  obtain ⟨u, written, _⟩ := writeBlock_returns filled.ok.cycle (offset % blockSize)
    (chunk offset count 0) buf filled.table chosen (by decide)
    (by rw [filled.isFree]; decide) (fun _ => by simp [defaultFreeMinCount]; omega)
  refine ⟨s, t, u, 0 + chunk offset count 0, .init initial, found, filled, ?_⟩
  rw [nvmDurableWrite_eq fits positive found]
  refine writeLoop_last (j := 0) fits positive last ?_
  rw [start]
  exact written

/-- In a small table every call is narrow. -/
theorem narrowCall_small (s : State C 128) (v : VolumeIdx) (offset count : Nat) :
    NarrowCall s v offset count :=
  fun _ _ i _ => Nat.lt_trans i.isLt (by decide)

theorem durable_write_stores_block : ∃ s t : State functionMap 128,
    StoredAsAsked t zeroVolume 0 (fun k => if k = 0 then 1 else 0) blockSize ∧
      ∃ n, nvmDurableWrite 1 0 0 (fun k => if k = 0 then 1 else 0) blockSize s = some (n, t) := by
  obtain ⟨s, t, u, n, reach, found, _, returned⟩ :=
    first_call 0 blockSize (fun k => if k = 0 then 1 else 0) (by decide) (by decide)
  have decided := durable_write_stores functionMap 128 "/"
    s t u 0 0 blockSize 1 n zeroVolume _ reach
    (by decide) (by decide) found (narrowCall_small _ _ _ _) returned
  exact ⟨s, u, decided.2.mpr ⟨by decide, Nat.le_refl _⟩ _ _ _ returned, n, returned⟩

/-- Two bytes `1, 0` written at offset `1` do not arrive: the copy starts at offset `0`. -/
theorem durable_write_stores_shifted : ¬ ∀ (s t u : State functionMap 128)
    (vid offset count fuel n : Nat) (v : VolumeIdx) (buf : Nat → UInt8),
    (system functionMap 128 "/" (2 ^ 32)).Reachable s → 0 < count → offset + count ≤ 2 ^ 45 →
    getVolumeEntryIdx vid s = some (v, t) →
    nvmDurableWrite fuel vid offset buf count s = some (n, u) →
    StoredAsAsked u v offset buf count := by
  intro stored
  obtain ⟨s, t, u, n, reach, found, filled, returned⟩ :=
    first_call 1 2 (fun k => if k = 0 then 1 else 0) (by decide) (by decide)
  have call := nvmDurableWrite_spec (by decide) (by decide) (by decide) filled.ok found
    (narrowCall_small _ _ _ _) returned
  have lines := (storedAsAsked_iff call).mp (stored s t u 0 1 2 1 n zeroVolume _ reach.reachable
    (by decide) (by decide) found returned)
  have byte := lines 0 (by decide)
  rw [if_neg (by decide)] at byte
  exact absurd byte (by decide)

/-- Exactly which calls keep the bytes around them. -/
theorem partial_write_keeps (C : CuckoohashMap) (N : Nat) (cwd : String) (s t u : State C N)
    (vid offset count fuel n : Nat) (v : VolumeIdx) (buf : Nat → UInt8)
    (reach : (system C N cwd (2 ^ 32)).ReachableBy NarrowStep s) (positive : 0 < count)
    (fits : offset + count ≤ 2 ^ 45) (found : getVolumeEntryIdx vid s = some (v, t))
    (narrow : NarrowCall t v offset count)
    (returned : nvmDurableWrite fuel vid offset buf count s = some (n, u)) :
    (KeepsRest t u v offset count ↔ RestLinesUp t v offset buf count) ∧
    ((∀ buf' m w, nvmDurableWrite fuel vid offset buf' count s = some (m, w) →
        KeepsRest t w v offset count) ↔ offset % blockSize = 0 ∧
      (count % blockSize = 0 ∨ blockSize < count ∧ TailLinesUp t v offset count)) := by
  have ok := (SystemOk.of_reachable reach).found found
  have call : ∀ buf' m w, nvmDurableWrite fuel vid offset buf' count s = some (m, w) →
      Rounds (2 ^ 32) t v offset buf' count (callBlocks offset count) w := fun _ _ _ returned =>
    nvmDurableWrite_spec fits positive (by decide) ok found narrow returned
  refine ⟨keepsRest_iff (call buf n u returned), fun all => ?_, ?_⟩
  · refine aligned_of_restLinesUp fun buf' => ?_
    obtain ⟨w, returned'⟩ :=
      nvmDurableWrite_returns fits positive (by decide) ok found narrow returned buf'
    exact (keepsRest_iff (call buf' n w returned')).mp (all buf' n w returned')
  · rintro ⟨aligned, ends⟩ buf' m w returned'
    have shown :=
      visibleImage_of_open ok.volumes (nvmDurableWrite_open fits positive found returned)
    exact (keepsRest_iff (call buf' m w returned')).mpr
      (restLinesUp_of_aligned positive shown aligned ends)

theorem partial_write_keeps_block : ∃ s t u : State functionMap 128,
    getVolumeEntryIdx 0 s = some (zeroVolume, t) ∧ KeepsRest t u zeroVolume 0 blockSize := by
  obtain ⟨s, t, u, n, reach, found, _, returned⟩ :=
    first_call 0 blockSize (fun k => if k = 0 then 1 else 0) (by decide) (by decide)
  have decided := partial_write_keeps functionMap 128 "/" s t u 0 0 blockSize 1 n zeroVolume _ reach
    (by decide) (by decide) found (narrowCall_small _ _ _ _) returned
  exact ⟨s, t, u, found, decided.2.mpr ⟨by decide, Or.inl (by decide)⟩ _ _ _ returned⟩

/-- The same call overwrites byte `0` of the block, which was `2` in the file. -/
theorem partial_write_keeps_shifted : ¬ ∀ (s t u : State functionMap 128)
    (vid offset count fuel n : Nat) (v : VolumeIdx) (buf : Nat → UInt8),
    (system functionMap 128 "/" (2 ^ 32)).Reachable s → 0 < count → offset + count ≤ 2 ^ 45 →
    getVolumeEntryIdx vid s = some (v, t) →
    nvmDurableWrite fuel vid offset buf count s = some (n, u) → KeepsRest t u v offset count := by
  intro keeps
  obtain ⟨s, t, u, n, reach, found, filled, returned⟩ :=
    first_call 1 2 (fun k => if k = 0 then 1 else 0) (by decide) (by decide)
  have call := nvmDurableWrite_spec (by decide) (by decide) (by decide) filled.ok found
    (narrowCall_small _ _ _ _) returned
  have rest := (keepsRest_iff call).mp (keeps s t u 0 1 2 1 n zeroVolume _ reach.reachable
    (by decide) (by decide) found returned)
  obtain ⟨before, image, bytes⟩ := rest 0 (by decide)
  have byte := bytes ⟨0, by decide⟩ (Or.inl (by decide))
  have blank : before = fun _ => 2 := by
    have place : 1 / blockSize + 0 = 0 := by decide
    rw [place, visibleImage, filled.unbound] at image
    obtain ⟨file, _, rfl⟩ := Option.map_eq_some_iff.mp image
    rw [filled.files]
    rfl
  rw [memcpy, if_pos (by decide), blank] at byte
  exact absurd byte (by decide)

end BurstBuffer.Guarantees
