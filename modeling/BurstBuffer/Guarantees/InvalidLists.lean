import BurstBuffer.Invariants.InvalidLists
import BurstBuffer.Invariants.WideIndex

/-!
# Invalid lists

The balloon pushes a node to the list of its table when it invalidates it.
validate_hash_node leaves the node in the list, so the lists mirror the invalid
nodes only while no block of an invalid node is written again.
-/
namespace BurstBuffer.Guarantees

open Source Library

section Mirror

variable (C : CuckoohashMap) (N limit : Nat) (cwd : String) (s : State C N)

/-- Runs that leave the invalid nodes alone keep all lists; the next operation
keeps them exactly when it does so too. -/
theorem invalid_list_mirrors (reach : (system C N cwd limit).ReachableBy LeavesInvalid s) :
    ListsMirror s ∧
      ∀ e t, next cwd limit s e = some t → (ListsMirror t ↔ LeavesInvalid s e) := by
  have ok := ListsOk.of_reachable reach
  constructor
  · exact ok.mirror
  · intro e t step
    exact (ok.step step).2

end Mirror

/-- Two blocks are written, and the balloon takes the inode of the first one. -/
def balloonRun : List Event :=
  [.openVolume 0, .writeBlock 0 0 0 (fun _ => 1) blockSize,
    .writeBlock 0 1 0 (fun _ => 1) blockSize, .flush 0, .sync 0, .balloon 0]

/-- Block 0 of volume 0 has a node, and the node is invalid. -/
def invalidated (s : State functionMap 112) : Bool :=
  (nodeAt s 0 0).any fun p => !(s.hashNodes p).isValid

/-- The first block is written again. -/
def rewrite : Event := .writeBlock 0 0 0 (fun _ => 2) blockSize

theorem balloonRun_reached : ∃ s t : State functionMap 112,
    (system functionMap 112 "/" 10).ReachableBy LeavesInvalid s ∧ invalidated s = true ∧
      (system functionMap 112 "/" 10).next s rewrite = some t := by
  have runs : ((nvmSystemInit "/" (nvmStructureBuild (blankMemory 112))).bind fun r =>
      (system functionMap 112 "/" 10).runBy LeavesInvalid r balloonRun).any (fun s =>
        invalidated s && ((system functionMap 112 "/" 10).next s rewrite).isSome) = true := by
    decide +kernel
  obtain ⟨s, reached, shape⟩ := (Option.any_eq_true _ _).mp runs
  obtain ⟨r, started, steps⟩ := Option.bind_eq_some_iff.mp reached
  obtain ⟨marked, more⟩ := (Bool.and_eq_true _ _).mp shape
  obtain ⟨t, step⟩ := Option.isSome_iff_exists.mp more
  have initial : (system functionMap 112 "/" 10).init r := ⟨blankMemory 112, started⟩
  exact ⟨s, t, .runBy (.init initial) steps, marked, step⟩

/-- The list of volume 0 then holds the node of its block 0. -/
theorem invalid_list_mirrors_balloon : ∃ s : State functionMap 112,
    invalidated s = true ∧ ListsMirror s := by
  obtain ⟨s, _, reach, marked, _⟩ := balloonRun_reached
  have mirrors := invalid_list_mirrors functionMap 112 10 "/" s reach
  exact ⟨s, marked, mirrors.1⟩

/-- Written again, the block has a valid node, and the list still holds it. -/
theorem invalid_list_mirrors_rewritten : ¬ ∀ s : State functionMap 112,
    (system functionMap 112 "/" 10).Reachable s → ListsMirror s := by
  intro holds
  obtain ⟨s, t, reach, marked, step⟩ := balloonRun_reached
  have mirror := holds t (reach.reachable.step step)
  have taken : next "/" 10 s rewrite = some t := step
  have leaves : LeavesInvalid s rewrite := ((ListsOk.of_reachable reach).step taken).2.mp mirror
  obtain ⟨p, found, invalid⟩ := (Option.any_eq_true _ _).mp marked
  rw [leaves p found] at invalid
  cases invalid

end BurstBuffer.Guarantees
