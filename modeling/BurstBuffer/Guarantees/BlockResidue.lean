import BurstBuffer.Guarantees.DurableWrite
import BurstBuffer.Invariants.ReplacedBlocks

/-!
# When old bytes of another block become part of a volume

A round of nvm_durable_write copies over what its target block held before: the
ownerless block of the volume in the first round, then the block the round before
has replaced. Bytes of that block behind the copied ones show in the volume. Two
runs from states that differ in such a block only tell them apart.
-/
namespace BurstBuffer.Guarantees

open Library Source

variable {C : CuckoohashMap} {N : Nat}

/-- The two states differ in bytes of blocks only, none of an inode in use by `v`. -/
def Indistinguishable (v : VolumeIdx) (s s' : State C N) : Prop :=
  ∃ blocks, s' = s.withBlocks blocks ∧ AgreesOn s v blocks

/-- The same bytes are visible at every block of `v`, and a flush of `v` writes
the same to the files. -/
structure NothingFlows (v : VolumeIdx) (u u' : State C N) : Prop where
  images : ∀ lbn, visibleImage u' v lbn = visibleImage u v lbn
  flushed : ∀ x, nvmFlush v u = some x → ∃ x', nvmFlush v u' = some x' ∧ x'.files = x.files

theorem nothingFlows_iff {limit : Nat} {u : State C N} {v : VolumeIdx}
    {blocks : BlockIdx N → Block} (ok : SystemOk limit u) :
    NothingFlows v u (u.withBlocks blocks) ↔ AgreesOn u v blocks := by
  constructor
  · exact fun nothing => (visibleImage_withBlocks ok.cycle).mp nothing.images
  · intro agrees
    refine ⟨(visibleImage_withBlocks ok.cycle).mpr agrees, fun x flushed => ?_⟩
    exact ⟨x.withBlocks blocks, nvmFlush_withBlocks ok.cycle agrees flushed, rfl⟩

/-- The block that round `j` of a call from block `lbn` on copies into. -/
def targetBlock (s : State C N) (v : VolumeIdx) (lbn : Nat) : Nat → Option (BlockIdx N)
  | 0 => some (s.volumeTable v).blockIndex
  | j + 1 => (callInode s v lbn j).map fun i => (s.inodeTable i).blockIndex

/-- An inode in use by `v` owns the block. -/
def OwnBlock (s : State C N) (v : VolumeIdx) (block : BlockIdx N) : Prop :=
  ∃ i, (s.inodeTable i).state ≠ .free ∧ (s.inodeTable i).volume = some v ∧
    (s.inodeTable i).blockIndex = block

/-- Every round fills its block or copies over a block of the volume itself. -/
def FillsOrOwn (s : State C N) (v : VolumeIdx) (offset count : Nat) : Prop :=
  ∀ j < callBlocks offset count, chunk offset count j = blockSize ∨
    ∃ block, targetBlock s v (offset / blockSize) j = some block ∧ OwnBlock s v block

section Call

variable {limit offset count : Nat} {s t u : State C N} {v : VolumeIdx} {buf : Nat → UInt8}
  {blocks blocks' : BlockIdx N → Block}

theorem residue_eq {lbn j : Nat} {block : BlockIdx N}
    (target : targetBlock s v lbn j = some block) : residue s v lbn j = s.blockTable block := by
  cases j with
  | zero =>
    cases target
    rfl
  | succ j =>
    obtain ⟨i, chosen, rfl⟩ := Option.map_eq_some_iff.mp target
    exact residue_succ chosen

theorem residue_withBlocks {lbn j : Nat} {block : BlockIdx N}
    (target : targetBlock s v lbn j = some block) :
    residue (s.withBlocks blocks) v lbn j = blocks block := by
  have target' : targetBlock (s.withBlocks blocks) v lbn j = some block := by
    cases j <;> exact target
  exact residue_eq target'

theorem chunk_le (j : Nat) : chunk offset count j ≤ blockSize := by
  rw [chunk]
  split
  · exact Nat.sub_le _ _
  · exact Nat.min_le_left _ _

/-- A call that returns has a target block in every round. -/
theorem targetBlock_isSome (call : Rounds limit s v offset buf count (callBlocks offset count) t)
    {j : Nat} (inside : j < callBlocks offset count) :
    ∃ block, targetBlock s v (offset / blockSize) j = some block := by
  cases j with
  | zero => exact ⟨_, rfl⟩
  | succ j =>
    obtain ⟨i, bound, _⟩ := call.stored j (by omega)
    rw [call.bound, if_pos ⟨rfl, by omega, by omega⟩, Nat.add_sub_cancel_left] at bound
    exact ⟨_, by rw [targetBlock, bound]; rfl⟩

/-- After the call the bytes of `v` agree in both runs exactly if the bytes that
no round copies over do. -/
theorem agreesOn_iff (start : LifeCycle s []) (agrees : AgreesOn s v blocks)
    (call : Rounds limit s v offset buf count (callBlocks offset count) u)
    (call' : Rounds limit (s.withBlocks blocks) v offset buf count (callBlocks offset count)
      (u.withBlocks blocks')) :
    AgreesOn u v blocks' ↔ ∀ j < callBlocks offset count, ∀ block,
      targetBlock s v (offset / blockSize) j = some block →
      ∀ p : Fin blockSize, chunk offset count j ≤ p.val →
        blocks block p = s.blockTable block p := by
  -- what round `j` leaves in both runs, in the block of one inode
  have both : ∀ j < callBlocks offset count, ∀ block,
      targetBlock s v (offset / blockSize) j = some block →
      ∃ i, validInode u v (offset / blockSize + j) = some i ∧
        u.blockOf i = memcpy (s.blockTable block) buf (chunk offset count j) ∧
        (u.withBlocks blocks').blockOf i = memcpy (blocks block) buf (chunk offset count j) := by
    intro j inside block target
    obtain ⟨i, bound, stored⟩ := call.stored j inside
    obtain ⟨i', bound', stored'⟩ := call'.stored j inside
    have same : validInode (u.withBlocks blocks') v (offset / blockSize + j) =
        validInode u v (offset / blockSize + j) := rfl
    rw [same, bound] at bound'
    cases bound'
    rw [residue_eq target] at stored
    rw [residue_withBlocks target] at stored'
    exact ⟨i, bound, stored, stored'⟩
  constructor
  · intro after j inside block target p behind
    obtain ⟨i, bound, stored, stored'⟩ := both j inside block target
    obtain ⟨inUse, owner, _⟩ := ((call.ok.cycle.inode i).bound _ _).mp bound
    have bytes : (u.withBlocks blocks').blockOf i = u.blockOf i := after i inUse owner
    rw [stored, stored'] at bytes
    have byte := congrFun bytes p
    rw [memcpy, memcpy, if_neg (Nat.not_lt_of_le behind), if_neg (Nat.not_lt_of_le behind)] at byte
    exact byte
  · intro behind i inUse owner
    have bound := call.ok.cycle.validInode_self inUse owner
    have before := call.bound v (u.inodeTable i).lbn
    rw [bound] at before
    split at before
    · rename_i called
      obtain ⟨j, place⟩ := Nat.exists_eq_add_of_le called.2.1
      have inside : j < callBlocks offset count := by omega
      obtain ⟨block, target⟩ := targetBlock_isSome call inside
      obtain ⟨i', bound', stored, stored'⟩ := both j inside block target
      rw [← place, bound] at bound'
      cases bound'
      change (u.withBlocks blocks').blockOf i = u.blockOf i
      rw [stored, stored']
      funext p
      unfold memcpy
      split
      · rfl
      · rename_i late
        exact behind j inside block target p (Nat.le_of_not_lt late)
    · rename_i outside
      have unused : ∀ d < callBlocks offset count,
          callInode s v (offset / blockSize) d ≠ some i := by
        intro d below used
        have key := call.bound v (offset / blockSize + d)
        rw [if_pos ⟨rfl, by omega, by omega⟩, Nat.add_sub_cancel_left, used] at key
        obtain ⟨_, _, lbn⟩ := ((call.ok.cycle.inode i).bound _ _).mp key
        exact outside ⟨rfl, by omega, by omega⟩
      have kept := call.blocks i unused
      have kept' := call'.blocks i unused
      obtain ⟨inUse', owner', _⟩ := ((start.inode i).bound _ _).mp before.symm
      change (u.withBlocks blocks').blockOf i = u.blockOf i
      rw [kept, kept']
      exact agrees i inUse' owner'

/-- Two states tell themselves apart in a block that a round does not fill. -/
theorem fillsOrOwn_iff (call : Rounds limit s v offset buf count (callBlocks offset count) u) :
    FillsOrOwn s v offset count ↔ ∀ blocks, AgreesOn s v blocks →
      ∀ j < callBlocks offset count, ∀ block,
      targetBlock s v (offset / blockSize) j = some block →
      ∀ p : Fin blockSize, chunk offset count j ≤ p.val →
        blocks block p = s.blockTable block p := by
  constructor
  · intro covered blocks agrees j inside block target p behind
    rcases covered j inside with full | ⟨own, target', i, inUse, owner, rfl⟩
    · rw [full] at behind
      exact absurd p.isLt (Nat.not_lt_of_le behind)
    · cases target.symm.trans target'
      exact congrFun (agrees i inUse owner) p
  · intro same j inside
    obtain ⟨block, target⟩ := targetBlock_isSome call inside
    by_cases full : chunk offset count j = blockSize
    · exact Or.inl full
    · refine Or.inr ⟨block, target, ?_⟩
      by_contra foreign
      have short : chunk offset count j < blockSize := Nat.lt_of_le_of_ne (chunk_le j) full
      have byte := same (Function.update s.blockTable block fun p => s.blockTable block p + 1)
        (by
          intro i inUse owner
          have apart : (s.inodeTable i).blockIndex ≠ block :=
            fun here => foreign ⟨i, inUse, owner, here⟩
          unfold SameBytes
          rw [Function.update_of_ne apart]
          rfl)
        j inside block target ⟨_, short⟩ (Nat.le_refl _)
      rw [Function.update_self] at byte
      exact absurd byte (by simp)

/-- The volume's own blocks among the targets are those of bound inodes. -/
theorem ownBlock_target (ok : SystemOk limit s) {j : Nat} {block : BlockIdx N}
    (target : targetBlock s v (offset / blockSize) j = some block) :
    OwnBlock s v block ↔ 0 < j ∧ (validInode s v (offset / blockSize + (j - 1))).isSome := by
  cases j with
  | zero =>
    cases target
    constructor
    · rintro ⟨i, _, _, same⟩
      exact absurd same (blockIndex_ne ok.owned.injective i v)
    · exact fun both => absurd both.1 (Nat.lt_irrefl 0)
  | succ j =>
    obtain ⟨i, chosen, rfl⟩ := Option.map_eq_some_iff.mp target
    rw [Nat.add_sub_cancel]
    unfold callInode at chosen
    constructor
    · rintro ⟨k, inUse, owner, same⟩
      have alike : owners s (Sum.inl k) = owners s (Sum.inl i) := same
      cases Sum.inl.inj (ok.owned.injective alike)
      refine ⟨Nat.succ_pos j, ?_⟩
      cases bound : validInode s v (offset / blockSize + j) with
      | some _ => rfl
      | none =>
        rw [bound] at chosen
        exact absurd (ok.cycle.free_of_queued (List.mem_of_getElem? chosen)) inUse
    · rintro ⟨_, isBound⟩
      obtain ⟨k, bound⟩ := Option.isSome_iff_exists.mp isBound
      rw [bound] at chosen
      cases chosen
      obtain ⟨inUse, owner, _⟩ := ((ok.cycle.inode _).bound _ _).mp bound
      exact ⟨_, inUse, owner, rfl⟩

theorem chunk_zero (aligned : offset % blockSize = 0) : chunk offset count 0 = blockSize := by
  rw [chunk, if_pos rfl, aligned, Nat.sub_zero]

/-- Only the last of several rounds may leave a part of its block. -/
theorem chunk_inner {j : Nat} (aligned : offset % blockSize = 0)
    (more : j + 1 < callBlocks offset count) : chunk offset count j = blockSize := by
  rw [callBlocks] at more
  rw [chunk]
  rw [blockSize_eq] at *
  split <;> omega

theorem chunk_last {j : Nat} (positive : 0 < count) (aligned : offset % blockSize = 0)
    (last : j + 1 = callBlocks offset count) (behind : 0 < j) :
    chunk offset count j = blockSize ↔ count % blockSize = 0 := by
  rw [callBlocks] at last
  rw [chunk, if_neg (by omega)]
  rw [blockSize_eq] at *
  omega

/-- The condition in terms of the request. -/
theorem fillsOrOwn_request (positive : 0 < count) (ok : SystemOk limit s)
    (call : Rounds limit s v offset buf count (callBlocks offset count) u) :
    FillsOrOwn s v offset count ↔ offset % blockSize = 0 ∧ (count % blockSize = 0 ∨
      count ≤ blockSize ∨
      (validInode s v ((offset + count - 1) / blockSize - 1)).isSome) := by
  have ends : (offset + count - 1) / blockSize =
      offset / blockSize + (callBlocks offset count - 1) := by
    have order : offset / blockSize ≤ (offset + count - 1) / blockSize :=
      Nat.div_le_div_right (by omega)
    rw [callBlocks]
    omega
  have single : offset % blockSize = 0 → (callBlocks offset count = 1 ↔ count ≤ blockSize) := by
    intro aligned
    rw [callBlocks]
    rw [blockSize_eq] at *
    omega
  have one : 0 < callBlocks offset count := Nat.succ_pos _
  constructor
  · intro covered
    have aligned : offset % blockSize = 0 := by
      rcases covered 0 one with full | ⟨block, target, own⟩
      · rw [chunk, if_pos rfl] at full
        rw [blockSize_eq] at *
        omega
      · exact absurd ((ownBlock_target ok target).mp own).1 (Nat.lt_irrefl 0)
    refine ⟨aligned, ?_⟩
    by_cases short : callBlocks offset count = 1
    · exact Or.inr (Or.inl ((single aligned).mp short))
    · rcases covered (callBlocks offset count - 1) (by omega) with full | ⟨block, target, own⟩
      · exact Or.inl ((chunk_last positive aligned (by omega) (by omega)).mp full)
      · have bound := ((ownBlock_target ok target).mp own).2
        have place : (offset + count - 1) / blockSize - 1 =
            offset / blockSize + (callBlocks offset count - 1 - 1) := by
          rw [ends]
          exact Nat.add_sub_assoc (by omega) _
        rw [← place] at bound
        exact Or.inr (Or.inr bound)
  · rintro ⟨aligned, request⟩ j inside
    by_cases first : j = 0
    · subst j
      exact Or.inl (chunk_zero aligned)
    · by_cases more : j + 1 < callBlocks offset count
      · exact Or.inl (chunk_inner aligned more)
      · have last : j + 1 = callBlocks offset count := by omega
        rcases request with whole | short | bound
        · exact Or.inl ((chunk_last positive aligned last (by omega)).mpr whole)
        · have few := (single aligned).mpr short
          omega
        · obtain ⟨block, target⟩ := targetBlock_isSome call inside
          have place : (offset + count - 1) / blockSize - 1 = offset / blockSize + (j - 1) := by
            rw [ends, ← last, Nat.add_sub_cancel]
            exact Nat.add_sub_assoc (by omega) _
          rw [place] at bound
          exact Or.inr ⟨block, target, (ownBlock_target ok target).mpr ⟨by omega, bound⟩⟩

end Call

/-- No run tells itself apart exactly if every round fills its block or copies over
a block of the volume. -/
theorem nothingFlows_all_iff {s t u : State C N} {vid offset count fuel n : Nat} {v : VolumeIdx}
    {buf : Nat → UInt8} (ok : SystemOk (2 ^ 32) s) (positive : 0 < count)
    (fits : offset + count ≤ 2 ^ 45) (found : getVolumeEntryIdx vid s = some (v, t))
    (narrow : NarrowCall t v offset count)
    (returned : nvmDurableWrite fuel vid offset buf count s = some (n, u)) :
    (∀ s', Indistinguishable v s s' → ∃ u', nvmDurableWrite fuel vid offset buf count s' =
        some (n, u') ∧ NothingFlows v u u') ↔ FillsOrOwn t v offset count := by
  have okFound := ok.found found
  have call : Rounds (2 ^ 32) t v offset buf count (callBlocks offset count) u :=
    nvmDurableWrite_spec fits positive (by decide) okFound found narrow returned
  have tables : t.inodeTable = s.inodeTable ∧ t.blockTable = s.blockTable := by
    rcases getVolumeEntryIdx_cases found with ⟨rfl, _⟩ | opened
    · exact ⟨rfl, rfl⟩
    · constructor <;> rw [opened.frame]
  have agreesFound : ∀ blocks, AgreesOn t v blocks ↔ AgreesOn s v blocks := by
    intro blocks
    simp only [AgreesOn, SameBytes, State.blockOf, tables]
  -- the other run, on its own blocks
  have other : ∀ blocks, ∃ blocks',
      nvmDurableWrite fuel vid offset buf count (s.withBlocks blocks) =
        some (n, u.withBlocks blocks') ∧
      Rounds (2 ^ 32) (t.withBlocks blocks) v offset buf count (callBlocks offset count)
        (u.withBlocks blocks') := by
    intro blocks
    obtain ⟨blocks', returned'⟩ := nvmDurableWrite_withBlocks blocks returned
    have found' : getVolumeEntryIdx vid (s.withBlocks blocks) = some (v, t.withBlocks blocks) := by
      rw [getVolumeEntryIdx_withBlocks, found]
      rfl
    have narrow' : NarrowCall (t.withBlocks blocks) v offset count := narrow
    exact ⟨blocks', returned', nvmDurableWrite_spec fits positive (by decide)
      (okFound.withBlocks blocks) found' narrow' returned'⟩
  rw [fillsOrOwn_iff call]
  constructor
  · intro same blocks agrees
    obtain ⟨blocks', returned', call'⟩ := other blocks
    obtain ⟨u', again, nothing⟩ := same _ ⟨blocks, rfl, (agreesFound blocks).mp agrees⟩
    cases returned'.symm.trans again
    exact (agreesOn_iff okFound.cycle agrees call call').mp
      ((nothingFlows_iff call.ok).mp nothing)
  · rintro same s' ⟨blocks, rfl, agrees⟩
    obtain ⟨blocks', returned', call'⟩ := other blocks
    have agrees' := (agreesFound blocks).mpr agrees
    refine ⟨_, returned', (nothingFlows_iff call.ok).mpr ?_⟩
    exact (agreesOn_iff okFound.cycle agrees' call call').mpr (same blocks agrees')

/-- Exactly which calls let no bytes of another block into the volume. -/
theorem no_data_flows (C : CuckoohashMap) (N : Nat) (s t u : State C N)
    (vid offset count fuel n : Nat) (v : VolumeIdx) (buf : Nat → UInt8)
    (ok : SystemOk (2 ^ 32) s) (positive : 0 < count) (fits : offset + count ≤ 2 ^ 45)
    (found : getVolumeEntryIdx vid s = some (v, t)) (narrow : NarrowCall t v offset count)
    (returned : nvmDurableWrite fuel vid offset buf count s = some (n, u)) :
    (∀ s', Indistinguishable v s s' → ∃ u', nvmDurableWrite fuel vid offset buf count s' =
        some (n, u') ∧ NothingFlows v u u') ↔
      offset % blockSize = 0 ∧ (count % blockSize = 0 ∨ count ≤ blockSize ∨
        (validInode t v ((offset + count - 1) / blockSize - 1)).isSome) := by
  have okFound := ok.found found
  have call : Rounds (2 ^ 32) t v offset buf count (callBlocks offset count) u :=
    nvmDurableWrite_spec fits positive (by decide) okFound found narrow returned
  rw [nothingFlows_all_iff ok positive fits found narrow returned]
  exact fillsOrOwn_request positive okFound call

theorem no_data_flows_block : ∃ s u : State functionMap 128, ∃ v n,
    nvmDurableWrite 1 0 0 (fun _ => 1) blockSize s = some (n, u) ∧
    ∀ s', Indistinguishable v s s' → ∃ u',
      nvmDurableWrite 1 0 0 (fun _ => 1) blockSize s' = some (n, u') ∧ NothingFlows v u u' := by
  obtain ⟨s, t, u, n, reach, found, _, returned⟩ :=
    first_call 0 blockSize (fun _ => 1) (by decide) (by decide)
  have decided := no_data_flows functionMap 128 s t u 0 0 blockSize 1 n zeroVolume _
    (SystemOk.of_reachable reach) (by decide) (by decide) found (narrowCall_small _ _ _ _) returned
  exact ⟨s, u, zeroVolume, n, returned, decided.mpr ⟨by decide, Or.inl (by decide)⟩⟩

/-- One byte written at offset `1`: the last byte of the ownerless block shows in the volume. -/
theorem no_data_flows_ragged : ¬ ∀ (s u : State functionMap 128) (vid offset count fuel n : Nat)
    (v : VolumeIdx) (t : State functionMap 128) (buf : Nat → UInt8),
    (system functionMap 128 "/" (2 ^ 32)).Reachable s → 0 < count → offset + count ≤ 2 ^ 45 →
    getVolumeEntryIdx vid s = some (v, t) →
    nvmDurableWrite fuel vid offset buf count s = some (n, u) →
    ∀ s', Indistinguishable v s s' → ∃ u', nvmDurableWrite fuel vid offset buf count s' =
      some (n, u') ∧ NothingFlows v u u' := by
  intro nothing
  obtain ⟨s, t, u, n, reach, found, _, returned⟩ :=
    first_call 1 1 (fun _ => 1) (by decide) (by decide)
  have ok := SystemOk.of_reachable reach
  have narrow := narrowCall_small t zeroVolume 1 1
  have call : Rounds (2 ^ 32) t zeroVolume 1 (fun _ => 1) 1 (callBlocks 1 1) u :=
    nvmDurableWrite_spec (by decide) (by decide) (by decide) (ok.found found) found narrow returned
  have fills := (nothingFlows_all_iff ok (by decide) (by decide) found narrow returned).mp
    (nothing s u 0 1 1 1 n zeroVolume t _ reach.reachable (by decide) (by decide) found returned)
  have aligned := ((fillsOrOwn_request (by decide) (ok.found found) call).mp fills).1
  exact absurd aligned (by decide)

end BurstBuffer.Guarantees
