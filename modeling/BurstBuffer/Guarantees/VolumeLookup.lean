import BurstBuffer.Invariants.VolumeLookup
import BurstBuffer.Invariants.WideIndex

/-!
# Volume lookup

get_volume_entry_idx is a function of the vid, except for the vid `2 ^ 32 - 1` that
marks unused entries: a call for that one returns an entry that nobody has set up.
-/
namespace BurstBuffer.Guarantees

open Source Library

/-- Every call of the sequence returns an entry set up for its vid, and equal entries come
from equal vids only. -/
structure LookupIsFunction {C : CuckoohashMap} {N : Nat} (s : State C N) (vids : List Nat) :
    Prop where
  returns : ∀ before vid after, vids = before ++ vid :: after →
    ∃ vs v t, lookups (before ++ [vid]) s = some (vs ++ [v], t) ∧ SetUp t v vid
  agree : ∃ vs t, lookups vids s = some (vs, t) ∧ vs.length = vids.length ∧
    ∀ (i j : Nat) v w vid vid', vs[i]? = some v → vs[j]? = some w → vids[i]? = some vid →
      vids[j]? = some vid' → (v = w ↔ vid = vid')

section Lookup

variable {C : CuckoohashMap} {N : Nat} {s memory : State C N} {vids : List Nat}

theorem registered_of_init {cwd : String} (started : nvmSystemInit cwd memory = some s) :
    Registered s [] := by
  obtain ⟨r, recovered, _⟩ := Option.bind_eq_some_iff.mp started
  obtain ⟨t, started', fresh⟩ := nvmSystemInit_spec recovered
  cases started.symm.trans started'
  exact .start fresh

theorem prefix_few {before after : List Nat} {vid : Nat} (split : vids = before ++ vid :: after)
    (few : vids.toFinset.card ≤ maxVolumeEntry) :
    before.toFinset.card ≤ maxVolumeEntry ∧
      (before ++ [vid]).toFinset.card ≤ maxVolumeEntry := by
  subst split
  constructor
  · exact few_of_subset (List.subset_append_left _ _) few
  · rw [List.append_cons] at few
    exact few_of_subset (List.subset_append_left _ _) few

theorem lookupIsFunction (start : Registered s []) (real : unusedVid ∉ vids)
    (few : vids.toFinset.card ≤ maxVolumeEntry) : LookupIsFunction s vids := by
  constructor
  · intro before vid after split
    have early : unusedVid ∉ before := by
      intro member
      rw [split] at real
      exact real (List.mem_append_left _ member)
    have other : vid ≠ unusedVid := by
      intro same
      rw [split, same] at real
      exact real (List.mem_append_right _ List.mem_cons_self)
    obtain ⟨shorter, here⟩ := prefix_few split few
    obtain ⟨vs, u, called, registered, _⟩ := lookups_registered start early shorter
    obtain ⟨v, t, call, _, setUp, _⟩ := registered.call other here
    exact ⟨vs, v, t, lookups_concat called call, setUp⟩
  · obtain ⟨vs, t, called, registered, each⟩ := lookups_registered start real few
    refine ⟨vs, t, called, each.length_eq, ?_⟩
    intro i j v w vid vid' first second this that
    obtain ⟨_, rfl⟩ := List.getElem?_eq_some_iff.mp first
    obtain ⟨_, rfl⟩ := List.getElem?_eq_some_iff.mp second
    obtain ⟨_, rfl⟩ := List.getElem?_eq_some_iff.mp this
    obtain ⟨_, rfl⟩ := List.getElem?_eq_some_iff.mp that
    exact (each.get _ _).eq_iff registered.volumes (each.get _ _)

/-- The first call for the vid of unused entries returns an entry without a file. -/
theorem not_lookupIsFunction (start : Registered s []) (asked : unusedVid ∈ vids)
    (few : vids.toFinset.card ≤ maxVolumeEntry) : ¬ LookupIsFunction s vids := by
  intro function
  obtain ⟨before, after, split, early⟩ := List.eq_append_cons_of_mem asked
  obtain ⟨shorter, here⟩ := prefix_few split few
  obtain ⟨vs, u, called, registered, _⟩ := lookups_registered start early shorter
  obtain ⟨vs', v, t, returned, setUp⟩ := function.returns before unusedVid after split
  have last : lookupNext (vs, u) unusedVid = some (vs' ++ [v], t) := by
    simp only [lookups, List.foldlM_append, List.foldlM_cons, List.foldlM_nil] at returned called
    rw [called] at returned
    simpa using returned
  obtain ⟨⟨w, t'⟩, call, same⟩ := Option.map_eq_some_iff.mp last
  simp only [Prod.mk.injEq] at same
  obtain ⟨appended, rfl⟩ := same
  obtain ⟨_, rfl⟩ := List.append_singleton_inj.mp appended
  exact registered.unused_call early here call setUp

end Lookup

/-- Lookup is a function of the vid exactly where no call asks for `2 ^ 32 - 1`. -/
theorem volume_lookup (C : CuckoohashMap) (N : Nat) (cwd : String) (memory s : State C N)
    (started : nvmSystemInit cwd memory = some s) (vids : List Nat)
    (few : vids.toFinset.card ≤ maxVolumeEntry) :
    LookupIsFunction s vids ↔ unusedVid ∉ vids := by
  have start := registered_of_init started
  constructor
  · intro function asked
    exact not_lookupIsFunction start asked few function
  · intro real
    exact lookupIsFunction start real few

theorem blank_started : ∃ s, nvmSystemInit "/" (nvmStructureBuild (blankMemory 1)) = some s :=
  Option.isSome_iff_exists.mp (by decide +kernel)

/-- Two volumes, the first one twice. -/
theorem volume_lookup_twice : ∃ s, nvmSystemInit "/" (nvmStructureBuild (blankMemory 1)) = some s ∧
    LookupIsFunction s [7, 9, 7] := by
  obtain ⟨s, started⟩ := blank_started
  refine ⟨s, started, ?_⟩
  exact (volume_lookup functionMap 1 "/" _ s started [7, 9, 7] (by decide)).mpr (by decide)

theorem volume_lookup_unused : ∃ s, nvmSystemInit "/" (nvmStructureBuild (blankMemory 1)) = some s ∧
    ¬ LookupIsFunction s [2 ^ 32 - 1] := by
  obtain ⟨s, started⟩ := blank_started
  refine ⟨s, started, ?_⟩
  exact not_lookupIsFunction (registered_of_init started) List.mem_cons_self (by decide)

end BurstBuffer.Guarantees
