import BurstBuffer.Invariants.Start
import BurstBuffer.Invariants.Volumes

/-!
# Looking up volumes

Calls of get_volume_entry_idx one after another. As long as no call asks for the vid of
an unused entry, the open entries are those of the vids asked for so far.
-/
namespace BurstBuffer.Source

open Library

variable {C : CuckoohashMap} {N : Nat}

/-- One call, behind the indices returned so far. -/
def lookupNext (p : List VolumeIdx × State C N) (vid : Nat) :
    Option (List VolumeIdx × State C N) :=
  (getVolumeEntryIdx vid p.2).map fun (v, t) => (p.1 ++ [v], t)

def lookups (vids : List Nat) (s : State C N) : Option (List VolumeIdx × State C N) :=
  vids.foldlM lookupNext ([], s)

/-- What alloc_volume_entry_idx sets up for a vid. -/
structure SetUp (s : State C N) (v : VolumeIdx) (vid : Nat) : Prop where
  named : (s.volumeTable v).vid = vid
  opened : (s.volumeTable v).fd = some (getFilename vid)
  table : (s.volumeTable v).hashTable.isSome
  inuse : s.volumeInuseLfqueue.values.count v = 1

theorem lookups_concat {vids : List Nat} {vid : Nat} {s u t : State C N} {vs : List VolumeIdx}
    {v : VolumeIdx} (before : lookups vids s = some (vs, u))
    (call : getVolumeEntryIdx vid u = some (v, t)) :
    lookups (vids ++ [vid]) s = some (vs ++ [v], t) := by
  have whole : lookups (vids ++ [vid]) s = (lookups vids s).bind fun p => lookupNext p vid := by
    simp [lookups]
  rw [whole, before, Option.bind_some, lookupNext, call]
  rfl

section Entries

variable {s t : State C N} {v w : VolumeIdx} {vid vid' : Nat}

theorem SetUp.of_table (volumes : VolumesOk s) (table : (s.volumeTable v).hashTable.isSome)
    (same : (s.volumeTable v).vid = vid) : SetUp s v vid := by
  constructor
  · exact same
  · rw [volumes.opened v table, same]
  · exact table
  · rw [volumes.inuse v, if_pos table]

/-- Set up entries of the same vid are the same entry. -/
theorem SetUp.eq_iff (volumes : VolumesOk s) (here : SetUp s v vid) (there : SetUp s w vid') :
    v = w ↔ vid = vid' := by
  constructor
  · intro same
    subst w
    exact here.named.symm.trans there.named
  · intro same
    subst vid'
    exact volumes.distinct v w here.table (there.named.trans here.named.symm)

theorem Opened.setUp (step : Opened s t vid v) (volumes : VolumesOk s) : SetUp t v vid := by
  have entry : t.volumeTable v = { s.volumeTable v with
      vid := vid, fd := some (getFilename vid), hashTable := some newHashTable } := by
    rw [step.table, Function.update_self]
  apply SetUp.of_table (step.volumesOk volumes)
  · rw [entry]
    rfl
  · rw [entry]

/-- Opening a volume leaves the other entries as they are. -/
theorem Opened.keeps (step : Opened s t vid v) (volumes : VolumesOk s)
    (setUp : SetUp s w vid') : SetUp t w vid' := by
  have other : w ≠ v := by
    intro same
    subst w
    have closed := step.wasClosed volumes
    rw [setUp.table] at closed
    cases closed
  apply SetUp.of_table (step.volumesOk volumes)
  · rw [step.table, Function.update_of_ne other]
    exact setUp.table
  · rw [step.table, Function.update_of_ne other]
    exact setUp.named

end Entries

/-- The open entries are those of `vids`. -/
structure Registered (s : State C N) (vids : List Nat) : Prop where
  volumes : VolumesOk s
  known : ∀ vid ∈ vids, ∃ v, SetUp s v vid
  asked : ∀ v, (s.volumeTable v).hashTable.isSome → (s.volumeTable v).vid ∈ vids

theorem Registered.start {r s : State C N} (fresh : Fresh r s) : Registered s [] := by
  constructor
  · exact fresh.volumesOk
  · intro vid member
    cases member
  · intro v table
    rw [fresh.closed] at table
    cases table

theorem few_of_subset {vids vids' : List Nat} (part : vids ⊆ vids')
    (few : vids'.toFinset.card ≤ maxVolumeEntry) : vids.toFinset.card ≤ maxVolumeEntry := by
  refine Nat.le_trans (Finset.card_le_card fun vid member => ?_) few
  exact List.mem_toFinset.mpr (part (List.mem_toFinset.mp member))

section Call

variable {s : State C N} {vids : List Nat} {vid : Nat}

/-- With fewer vids than entries so far an entry is left for another one. -/
theorem Registered.closed_of_new (registered : Registered s vids) (new : vid ∉ vids)
    (few : (vids ++ [vid]).toFinset.card ≤ maxVolumeEntry) :
    ∃ v, (s.volumeTable v).hashTable.isSome = false := by
  by_contra full
  have table : ∀ v, (s.volumeTable v).hashTable.isSome := by
    intro v
    by_contra closed
    exact full ⟨v, by simpa using closed⟩
  have injective : Function.Injective fun v => (s.volumeTable v).vid := by
    intro v w same
    exact registered.volumes.distinct v w (table v) same.symm
  have image : Finset.univ.image (fun v => (s.volumeTable v).vid) ⊆ vids.toFinset := by
    intro other member
    obtain ⟨v, _, rfl⟩ := Finset.mem_image.mp member
    exact List.mem_toFinset.mpr (registered.asked v (table v))
  have count := Finset.card_le_card image
  rw [Finset.card_image_of_injective _ injective, Finset.card_univ, Fintype.card_fin] at count
  have more : (vids ++ [vid]).toFinset.card = vids.toFinset.card + 1 := by
    rw [List.toFinset_append, List.toFinset_cons, List.toFinset_nil, insert_empty_eq,
      Finset.union_comm, Finset.singleton_union]
    exact Finset.card_insert_of_notMem fun member => new (List.mem_toFinset.mp member)
  omega

/-- The free queue then has an entry, and the queue of used ones has room. -/
theorem Registered.alloc (registered : Registered s vids) {v : VolumeIdx}
    (closed : (s.volumeTable v).hashTable.isSome = false) :
    ∃ p, allocVolumeEntryIdx vid s = some p := by
  have volumes := registered.volumes
  have queued : v ∈ s.volumeFreeLfqueue.values := by
    have once := volumes.free v
    rw [if_neg (by simp [closed])] at once
    exact List.count_pos_iff.mp (by omega)
  have absent : v ∉ s.volumeInuseLfqueue.values := by
    have none := volumes.inuse v
    rw [if_neg (by simp [closed])] at none
    exact List.count_eq_zero.mp none
  have distinct : (v :: s.volumeInuseLfqueue.values).Nodup := by
    refine List.nodup_cons.mpr ⟨absent, List.nodup_iff_count_le_one.mpr fun w => ?_⟩
    rw [volumes.inuse w]
    split <;> omega
  have room := distinct.length_le_card
  rw [List.length_cons, Fintype.card_fin] at room
  cases free : s.volumeFreeLfqueue.values with
  | nil =>
    rw [free] at queued
    cases queued
  | cons w rest =>
    have fits := s.volumeFreeLfqueue.fits
    rw [free, List.length_cons] at fits
    have popped : s.volumeFreeLfqueue.dequeue = some (w, ⟨rest, Nat.le_of_succ_le fits⟩) :=
      LfQueue.dequeue_eq_some.mpr free
    obtain ⟨q, pushed, _⟩ := LfQueue.enqueue_isSome (q := s.volumeInuseLfqueue) w room
    apply Option.isSome_iff_exists.mp
    simp [allocVolumeEntryIdx, popped, pushed]

/-- A call for any other vid finds or sets up its entry and keeps the others. -/
theorem Registered.call (registered : Registered s vids) (real : vid ≠ unusedVid)
    (few : (vids ++ [vid]).toFinset.card ≤ maxVolumeEntry) :
    ∃ v t, getVolumeEntryIdx vid s = some (v, t) ∧ Registered t (vids ++ [vid]) ∧
      SetUp t v vid ∧ ∀ w vid', SetUp s w vid' → SetUp t w vid' := by
  have volumes := registered.volumes
  obtain ⟨⟨v, t⟩, got⟩ : ∃ p, getVolumeEntryIdx vid s = some p := by
    unfold getVolumeEntryIdx
    split
    · rename_i v _
      exact ⟨(v, s), rfl⟩
    · rename_i missing
      have new : vid ∉ vids := by
        intro member
        obtain ⟨v, setUp⟩ := registered.known vid member
        have unequal := List.find?_eq_none.mp missing v (List.mem_finRange v)
        exact absurd setUp.named (by simpa using unequal)
      obtain ⟨v, closed⟩ := registered.closed_of_new new few
      exact registered.alloc closed
  refine ⟨v, t, got, ?_⟩
  rcases getVolumeEntryIdx_cases got with ⟨rfl, found⟩ | opened
  · have table : (t.volumeTable v).hashTable.isSome := by
      cases closed : (t.volumeTable v).hashTable.isSome with
      | true => rfl
      | false => exact absurd (found.symm.trans (volumes.unused v closed).1) real
    have setUp := SetUp.of_table volumes table found
    refine ⟨⟨volumes, ?_, ?_⟩, setUp, fun _ _ before => before⟩
    · intro other member
      rcases List.mem_append.mp member with before | last
      · exact registered.known other before
      · cases List.mem_singleton.mp last
        exact ⟨v, setUp⟩
    · intro w isOpen
      exact List.mem_append_left _ (registered.asked w isOpen)
  · have setUp := opened.setUp volumes
    have keeps : ∀ w vid', SetUp s w vid' → SetUp t w vid' :=
      fun w vid' before => opened.keeps volumes before
    refine ⟨⟨opened.volumesOk volumes, ?_, ?_⟩, setUp, keeps⟩
    · intro other member
      rcases List.mem_append.mp member with before | last
      · obtain ⟨w, theirs⟩ := registered.known other before
        exact ⟨w, keeps w other theirs⟩
      · cases List.mem_singleton.mp last
        exact ⟨v, setUp⟩
    · intro w isOpen
      by_cases here : w = v
      · subst w
        rw [setUp.named]
        exact List.mem_append_right _ List.mem_cons_self
      · rw [opened.table, Function.update_of_ne here] at isOpen ⊢
        exact List.mem_append_left _ (registered.asked w isOpen)

end Call

/-- Calls without the vid of an unused entry all return, each with the entry of its vid. -/
theorem lookups_registered {s : State C N} {vids : List Nat} (start : Registered s [])
    (real : unusedVid ∉ vids) (few : vids.toFinset.card ≤ maxVolumeEntry) :
    ∃ vs t, lookups vids s = some (vs, t) ∧ Registered t vids ∧ List.Forall₂ (SetUp t) vs vids := by
  induction vids using List.reverseRecOn with
  | nil => exact ⟨[], s, rfl, start, .nil⟩
  | append_singleton vids vid ih =>
    have fewer := few_of_subset (List.subset_append_left vids [vid]) few
    obtain ⟨vs, u, before, registered, each⟩ :=
      ih (fun member => real (List.mem_append_left _ member)) fewer
    have other : vid ≠ unusedVid := by
      intro same
      exact real (same ▸ List.mem_append_right _ List.mem_cons_self)
    obtain ⟨v, t, call, registered', setUp, keeps⟩ := registered.call other few
    refine ⟨vs ++ [v], t, lookups_concat before call, registered', ?_⟩
    exact List.rel_append (each.imp fun w vid' => keeps w vid') (.cons setUp .nil)

/-- A call for the vid of an unused entry returns one that has not been set up. -/
theorem Registered.unused_call {s t : State C N} {vids : List Nat} {v : VolumeIdx}
    (registered : Registered s vids) (real : unusedVid ∉ vids)
    (few : (vids ++ [unusedVid]).toFinset.card ≤ maxVolumeEntry)
    (call : getVolumeEntryIdx unusedVid s = some (v, t)) : ¬ SetUp t v unusedVid := by
  intro setUp
  obtain ⟨w, closed⟩ := registered.closed_of_new real few
  rcases getVolumeEntryIdx_cases call with ⟨rfl, found⟩ | opened
  · exact real (found ▸ registered.asked v setUp.table)
  · exact opened.unknown w (registered.volumes.unused w closed).1

end BurstBuffer.Source
