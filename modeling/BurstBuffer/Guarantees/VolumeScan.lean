import BurstBuffer.Invariants.VolumeScan

/-!
# One volume entry per file

The scan and the allocation of get_volume_entry_idx are not synchronised, and an
entry carries its vid before it has a file and a hash table. Calls for one vid must
not overlap in either place.
-/
namespace BurstBuffer.Guarantees

open Library Source

variable {τ : Type} {C : CuckoohashMap} {N : Nat}

/-- Calls with one vid return one index, that of an entry set up for the vid. -/
structure OneEntryEach (s : ScanState τ C N) : Prop where
  same : ∀ vid v w, (vid, v) ∈ s.returned → (vid, w) ∈ s.returned → v = w
  whole : ∀ vid v, (vid, v) ∈ s.returned → Whole (s.volumeTable v) vid

/-- In every run in which no call leaves its scan while its vid is in the table or
about to be stored, and none hits an entry that is still being built. -/
theorem one_entry_each (τ : Type) [DecidableEq τ] (C : CuckoohashMap) (N : Nat)
    (s : ScanState τ C N) (reach : (scans τ C N).ReachableBy LoneScan s) : OneEntryEach s := by
  have ok := ScanOk.of_reachable reach
  constructor
  · intro vid v w first second
    obtain ⟨low, wholeV⟩ := ok.returned vid v first
    obtain ⟨_, wholeW⟩ := ok.returned vid w second
    apply ok.unique v w
    · rw [wholeV.named]
      exact Nat.ne_of_lt low
    · rw [wholeV.named, wholeW.named]
  · exact fun vid v member => (ok.returned vid v member).2

/-- A new system: every entry unused. -/
def blankScans (τ : Type) : ScanState τ functionMap 1 where
  volumeTable v := { vid := unusedVid, fd := none, blockIndex := Fin.natAdd 1 v, hashTable := none }
  volumeFreeLfqueue := ⟨List.finRange maxVolumeEntry, by rw [List.length_finRange]⟩
  volumeInuseLfqueue := .new
  pc _ := .idle
  returned := []

theorem blankScans_start : ScanStart (blankScans τ) where
  unused _ := rfl
  free := rfl
  inuse := rfl
  idle _ := rfl
  returned := rfl

section FirstCall

variable [DecidableEq τ] {s t : ScanState τ C N} {θ : τ} {vid : Nat}

/-- Comparisons that miss. -/
theorem reach_compare (reach : (scans τ C N).ReachableBy LoneScan (s.goto θ (.compare vid 0)))
    (absent : ∀ v, (s.volumeTable v).vid ≠ vid) {k : Nat} (inside : k ≤ maxVolumeEntry) :
    (scans τ C N).ReachableBy LoneScan (s.goto θ (.compare vid k)) := by
  induction k with
  | zero => exact reach
  | succ k ih =>
    have before := ih (by omega)
    have pc : (s.goto θ (.compare vid k)).pc θ = .compare vid k := Function.update_self _ _ _
    refine before.step (e := .advance θ) ?_ ?_
    · intro vid' v pc'
      cases pc.symm.trans pc'
      exact ⟨fun beyond => by omega, fun w _ hit => absurd hit (absent w)⟩
    · change advanceScan θ (s.goto θ (.compare vid k)) = _
      unfold advanceScan
      rw [pc]
      dsimp only
      have miss : ¬ ((s.goto θ (.compare vid k)).volumeTable ⟨k, by omega⟩).vid = vid := absent _
      rw [dif_pos (by omega), if_neg miss]
      simp [ScanState.goto]

/-- A step outside the scan needs no permission. -/
theorem reach_advance (reach : (scans τ C N).ReachableBy LoneScan s)
    (outside : ∀ vid v, s.pc θ ≠ .compare vid v) (step : advanceScan θ s = some t) :
    (scans τ C N).ReachableBy LoneScan t :=
  reach.step (e := .advance θ) (fun vid v pc => absurd pc (outside vid v)) step

/-- A comparison while no entry is being built. -/
theorem reach_hit (reach : (scans τ C N).ReachableBy LoneScan s) {v : Nat}
    (here : s.pc θ = .compare vid v) (inside : v < maxVolumeEntry)
    (whole : ∀ η w, (s.pc η).building ≠ some w) (step : advanceScan θ s = some t) :
    (scans τ C N).ReachableBy LoneScan t := by
  refine reach.step (e := .advance θ) (fun vid' v' pc => ?_) step
  cases here.symm.trans pc
  exact ⟨fun beyond => absurd beyond (Nat.not_le_of_lt inside), fun w _ _ η => whole η w⟩

end FirstCall

/-- The free queue without entry `0`. -/
def otherEntries : LfQueue VolumeIdx maxVolumeEntry :=
  ⟨(List.finRange maxVolumeEntry).tail, by
    rw [List.length_tail, List.length_finRange]
    omega⟩

/-- A thread has allocated entry `0` for vid `7` in a new system, and is about to
store the vid. -/
def allocated (τ : Type) [DecidableEq τ] (θ : τ) : ScanState τ functionMap 1 :=
  { blankScans τ with volumeFreeLfqueue := otherEntries }.goto θ (.storeVid 7 0)

theorem allocated_reachable [DecidableEq τ] (θ : τ) :
    (scans τ functionMap 1).ReachableBy LoneScan (allocated τ θ) := by
  have absent : ∀ v, ((blankScans τ).volumeTable v).vid ≠ 7 := by
    intro v
    change unusedVid ≠ 7
    decide
  have called : (scans τ functionMap 1).ReachableBy LoneScan
      ((blankScans τ).goto θ (.compare 7 0)) := by
    refine .step (.init blankScans_start) (e := .call θ 7) trivial ?_
    rfl
  have missed := reach_compare called absent (Nat.le_refl maxVolumeEntry)
  have left :
      (scans τ functionMap 1).ReachableBy LoneScan ((blankScans τ).goto θ (.dequeue 7)) := by
    refine missed.step (e := .advance θ) ?_ ?_
    · intro vid v pc
      have here : ((blankScans τ).goto θ (.compare 7 maxVolumeEntry)).pc θ =
          .compare 7 maxVolumeEntry := Function.update_self _ _ _
      cases here.symm.trans pc
      refine ⟨fun _ => ⟨absent, fun η other allocates => ?_⟩, fun w _ hit => absurd hit (absent w)⟩
      rw [show ((blankScans τ).goto θ (.compare 7 maxVolumeEntry)).pc η = .idle from
        Function.update_of_ne other _ _] at allocates
      cases allocates
    · change advanceScan θ ((blankScans τ).goto θ (.compare 7 maxVolumeEntry)) = _
      unfold advanceScan
      simp [ScanState.goto]
  refine reach_advance left (θ := θ) (fun vid v pc => ?_) ?_
  · rw [show ((blankScans τ).goto θ (.dequeue 7)).pc θ = .dequeue 7 from
      Function.update_self _ _ _] at pc
    cases pc
  · have head : (blankScans τ).volumeFreeLfqueue.dequeue = some (0, otherEntries) := by
      apply LfQueue.dequeue_eq_some.mpr
      change List.finRange maxVolumeEntry = 0 :: (List.finRange maxVolumeEntry).tail
      decide
    unfold advanceScan
    simp only [ScanState.goto, Function.update_self, Function.update_idem, head, Option.map_some]
    rfl

/-- Two calls for one vid: the second begins while the first is building the entry, and
compares once it is whole. -/
theorem one_entry_each_turns : ∃ s : ScanState Bool functionMap 1,
    s.returned = [(7, 0), (7, 0)] ∧ OneEntryEach s := by
  have asked : (scans Bool functionMap 1).ReachableBy LoneScan
      ((allocated Bool false).goto true (.compare 7 0)) :=
    (allocated_reachable false).step (e := .call true 7) trivial rfl
  have named := reach_advance (θ := false) asked
    (fun vid v pc => by cases (show ScanPc.storeVid 7 0 = .compare vid v from pc)) rfl
  have opened := reach_advance (θ := false) named
    (fun vid v pc => by cases (show ScanPc.storeFd 7 0 = .compare vid v from pc)) rfl
  have tabled := reach_advance (θ := false) opened
    (fun vid v pc => by cases (show ScanPc.storeTable 7 0 = .compare vid v from pc)) rfl
  have queued := reach_advance (θ := false) tabled
    (fun vid v pc => by cases (show ScanPc.enqueue 7 0 = .compare vid v from pc)) rfl
  have hit := reach_hit (θ := true) queued (show _ = ScanPc.compare 7 0 from rfl) (by decide)
    (fun η w => by cases η <;> exact (Option.some_ne_none w).symm) rfl
  exact ⟨_, rfl, one_entry_each Bool functionMap 1 _ hit⟩

/-- A second call hits the entry when it carries its vid and nothing else. -/
theorem one_entry_each_half_built : ¬ ∀ s : ScanState Bool functionMap 1,
    (scans Bool functionMap 1).Reachable s → OneEntryEach s := by
  intro each
  obtain ⟨s, steps, member, fd⟩ : ∃ s, (scans Bool functionMap 1).run (allocated Bool false)
      [.advance false, .call true 7, .advance true] = some s ∧ (7, 0) ∈ s.returned ∧
      (s.volumeTable 0).fd = none := ⟨_, rfl, List.mem_cons_self, rfl⟩
  have reach := (allocated_reachable false).reachable.run steps
  have named := ((each s reach).whole 7 0 member).fd
  rw [fd] at named
  cases named

end BurstBuffer.Guarantees
