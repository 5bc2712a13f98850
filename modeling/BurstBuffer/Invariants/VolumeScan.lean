import BurstBuffer.Source.VolumeScan

/-!
# Volume entries while calls overlap

An entry is free, in the hands of the call that has dequeued it, or whole. Where no
two calls allocate for one vid, each vid has one entry; where no call hits an entry
that is still being built, what calls return is whole.
-/
namespace BurstBuffer.Source

open Library

variable {τ : Type} {C : CuckoohashMap} {N : Nat}

/-- The entry has been set up for `vid`. -/
structure Whole (entry : VolumeEntry C N) (vid : Nat) : Prop where
  named : entry.vid = vid
  fd : entry.fd = some (getFilename vid)
  hashTable : entry.hashTable.isSome

namespace ScanPc

/-- The entry the call has dequeued. -/
def holds : ScanPc → Option VolumeIdx
  | .storeVid _ v | .storeFd _ v | .storeTable _ v | .enqueue _ v => some v
  | _ => none

/-- The vid of a call that has left its scan and not yet stored the vid. -/
def allocating : ScanPc → Option Nat
  | .dequeue vid | .storeVid vid _ => some vid
  | _ => none

/-- The entry that carries its vid already and is not yet whole. -/
def building : ScanPc → Option VolumeIdx
  | .storeFd _ v | .storeTable _ v => some v
  | _ => none

/-- What the call has stored so far. -/
def Built (table : VolumeIdx → VolumeEntry C N) : ScanPc → Prop
  | .idle => True
  | .compare vid _ | .dequeue vid => vid < unusedVid
  | .storeVid vid v => vid < unusedVid ∧ (table v).vid = unusedVid
  | .storeFd vid v => vid < unusedVid ∧ (table v).vid = vid
  | .storeTable vid v =>
    vid < unusedVid ∧ (table v).vid = vid ∧ (table v).fd = some (getFilename vid)
  | .enqueue vid v => vid < unusedVid ∧ Whole (table v) vid

theorem holds_of_building {pc : ScanPc} {v : VolumeIdx} (builds : pc.building = some v) :
    pc.holds = some v := by
  cases pc <;> cases builds <;> rfl

/-- It depends on the call's own entry only. -/
theorem Built.congr {table table' : VolumeIdx → VolumeEntry C N} {pc : ScanPc}
    (built : pc.Built table) (same : ∀ v, pc.holds = some v → table' v = table v) :
    pc.Built table' := by
  cases pc with
  | idle | compare vid v | dequeue vid => exact built
  | storeVid vid v | storeFd vid v | storeTable vid v | enqueue vid v =>
    have own : table' v = table v := same v rfl
    simp only [Built, own]
    exact built

end ScanPc

/-- A call leaves its scan for an allocation only when no entry carries its vid and no
other call is about to store it, and hits no entry that another call is building. -/
def LoneScan (s : ScanState τ C N) : ScanEvent τ → Prop
  | .call _ _ => True
  | .advance θ => ∀ vid v, s.pc θ = .compare vid v →
    (maxVolumeEntry ≤ v → (∀ w, (s.volumeTable w).vid ≠ vid) ∧
      ∀ η, η ≠ θ → (s.pc η).allocating ≠ some vid) ∧
    ∀ w : VolumeIdx, w.val = v → (s.volumeTable w).vid = vid → ∀ η, (s.pc η).building ≠ some w

structure ScanOk (s : ScanState τ C N) : Prop where
  distinct : s.volumeFreeLfqueue.values.Nodup
  free : ∀ v ∈ s.volumeFreeLfqueue.values,
    (s.volumeTable v).vid = unusedVid ∧ ∀ θ, (s.pc θ).holds ≠ some v
  holders : ∀ θ η v, (s.pc θ).holds = some v → (s.pc η).holds = some v → θ = η
  built : ∀ θ, (s.pc θ).Built s.volumeTable
  whole : ∀ v, (s.volumeTable v).vid ≠ unusedVid → (∀ θ, (s.pc θ).building ≠ some v) →
    Whole (s.volumeTable v) (s.volumeTable v).vid
  unique : ∀ v w, (s.volumeTable v).vid ≠ unusedVid →
    (s.volumeTable w).vid = (s.volumeTable v).vid → v = w
  allocating : ∀ θ vid, (s.pc θ).allocating = some vid →
    (∀ v, (s.volumeTable v).vid ≠ vid) ∧ ∀ η, (s.pc η).allocating = some vid → η = θ
  returned : ∀ vid v, (vid, v) ∈ s.returned → vid < unusedVid ∧ Whole (s.volumeTable v) vid

namespace ScanOk

variable {s t : ScanState τ C N}

theorem start (initial : ScanStart s) : ScanOk s where
  distinct := initial.free ▸ List.nodup_finRange maxVolumeEntry
  free v _ := by
    refine ⟨initial.unused v, fun θ holds => ?_⟩
    rw [initial.idle] at holds
    cases holds
  holders θ _ v holds := by
    rw [initial.idle] at holds
    cases holds
  built θ := by
    rw [initial.idle]
    trivial
  whole v used := absurd (initial.unused v) used
  unique v _ used := absurd (initial.unused v) used
  allocating θ vid allocates := by
    rw [initial.idle] at allocates
    cases allocates
  returned vid v member := by
    rw [initial.returned] at member
    cases member

variable [DecidableEq τ]

/-- A step of thread `θ` that changes no entry but the one the thread then holds. -/
theorem goto (ok : ScanOk s) {θ : τ} {pc : ScanPc} (pcs : t.pc = Function.update s.pc θ pc)
    (table : ∀ w, pc.holds ≠ some w → t.volumeTable w = s.volumeTable w)
    (free : t.volumeFreeLfqueue.values.Sublist s.volumeFreeLfqueue.values)
    (mine : ∀ v, pc.holds = some v →
      v ∉ t.volumeFreeLfqueue.values ∧ ∀ η, η ≠ θ → (s.pc η).holds ≠ some v)
    (built : pc.Built t.volumeTable)
    (whole : ∀ v, pc.holds = some v → (t.volumeTable v).vid ≠ unusedVid → pc.building ≠ some v →
      Whole (t.volumeTable v) (t.volumeTable v).vid)
    (building : ∀ v, (s.pc θ).building = some v → pc.holds = some v)
    (named : ∀ v, pc.holds = some v → (t.volumeTable v).vid = (s.volumeTable v).vid ∨
      (∀ w, (s.volumeTable w).vid ≠ (t.volumeTable v).vid) ∧
        ∀ η, η ≠ θ → (s.pc η).allocating ≠ some (t.volumeTable v).vid)
    (alloc : ∀ vid, pc.allocating = some vid → (∀ w, (t.volumeTable w).vid ≠ vid) ∧
      ∀ η, η ≠ θ → (s.pc η).allocating ≠ some vid)
    (keeps : ∀ v vid, pc.holds = some v → vid < unusedVid → Whole (s.volumeTable v) vid →
      Whole (t.volumeTable v) vid)
    (returned : ∀ vid v, (vid, v) ∈ t.returned → (vid, v) ∈ s.returned ∨
      vid < unusedVid ∧ Whole (t.volumeTable v) vid) : ScanOk t := by
  have self : t.pc θ = pc := by rw [pcs, Function.update_self]
  have others : ∀ η, η ≠ θ → t.pc η = s.pc η := by
    intro η other
    rw [pcs, Function.update_of_ne other]
  constructor
  case distinct => exact ok.distinct.sublist free
  case free =>
    intro v member
    have loose : pc.holds ≠ some v := fun holds => (mine v holds).1 member
    obtain ⟨unused, unheld⟩ := ok.free v (free.subset member)
    refine ⟨by rw [table v loose]; exact unused, fun η => ?_⟩
    by_cases here : η = θ
    · rw [here, self]
      exact loose
    · rw [others η here]
      exact unheld η
  case holders =>
    intro η η' v holds holds'
    by_cases here : η = θ <;> by_cases there : η' = θ
    · rw [here, there]
    · rw [here, self] at holds
      rw [others η' there] at holds'
      exact absurd holds' ((mine v holds).2 η' there)
    · rw [there, self] at holds'
      rw [others η here] at holds
      exact absurd holds ((mine v holds').2 η here)
    · rw [others η here] at holds
      rw [others η' there] at holds'
      exact ok.holders η η' v holds holds'
  case built =>
    intro η
    by_cases here : η = θ
    · rw [here, self]
      exact built
    · rw [others η here]
      apply (ok.built η).congr
      intro v holds
      exact table v fun own => (mine v own).2 η here holds
  case whole =>
    intro v used unbuilt
    have unbuiltHere := unbuilt θ
    rw [self] at unbuiltHere
    by_cases own : pc.holds = some v
    · exact whole v own used unbuiltHere
    · rw [table v own] at used ⊢
      apply ok.whole v used
      intro η builds
      by_cases here : η = θ
      · rw [here] at builds
        exact own (building v builds)
      · apply unbuilt η
        rw [others η here]
        exact builds
  case unique =>
    -- an entry that has got a new vid shares it with no other
    have new : ∀ v w, pc.holds = some v → w ≠ v → (t.volumeTable w).vid = (t.volumeTable v).vid →
        (t.volumeTable v).vid = (s.volumeTable v).vid := by
      intro v w own other same
      rcases named v own with old | ⟨absent, _⟩
      · exact old
      · have loose : pc.holds ≠ some w := by
          rw [own]
          exact fun equal => other (Option.some.inj equal).symm
        rw [table w loose] at same
        exact absurd same (absent w)
    intro v w used same
    by_contra apart
    have vidV : (t.volumeTable v).vid = (s.volumeTable v).vid := by
      by_cases own : pc.holds = some v
      · exact new v w own (Ne.symm apart) same
      · rw [table v own]
    have vidW : (t.volumeTable w).vid = (s.volumeTable w).vid := by
      by_cases own : pc.holds = some w
      · exact new w v own apart same.symm
      · rw [table w own]
    rw [vidV] at used
    rw [vidV, vidW] at same
    exact apart (ok.unique v w used same)
  case allocating =>
    intro η vid allocates
    by_cases here : η = θ
    · rw [here, self] at allocates
      obtain ⟨absent, alone⟩ := alloc vid allocates
      refine ⟨absent, fun η' allocates' => ?_⟩
      by_contra there
      rw [here] at there
      rw [others η' there] at allocates'
      exact alone η' there allocates'
    · rw [others η here] at allocates
      obtain ⟨absent, alone⟩ := ok.allocating η vid allocates
      constructor
      · intro v
        by_cases own : pc.holds = some v
        · rcases named v own with old | ⟨_, unasked⟩
          · rw [old]
            exact absent v
          · exact fun same => unasked η here (by rw [same]; exact allocates)
        · rw [table v own]
          exact absent v
      · intro η' allocates'
        by_cases there : η' = θ
        · rw [there, self] at allocates'
          exact absurd allocates ((alloc vid allocates').2 η here)
        · rw [others η' there] at allocates'
          exact alone η' allocates'
  case returned =>
    intro vid v member
    rcases returned vid v member with old | new
    · obtain ⟨low, isWhole⟩ := ok.returned vid v old
      refine ⟨low, ?_⟩
      by_cases own : pc.holds = some v
      · exact keeps v vid own low isWhole
      · rw [table v own]
        exact isWhole
    · exact new

/-- A step to a place without an entry changes no entry. -/
theorem rest (ok : ScanOk s) {θ : τ} {pc : ScanPc} (pcs : t.pc = Function.update s.pc θ pc)
    (holds : pc.holds = none) (builds : (s.pc θ).building = none)
    (table : t.volumeTable = s.volumeTable) (free : t.volumeFreeLfqueue = s.volumeFreeLfqueue)
    (built : pc.Built s.volumeTable)
    (alloc : ∀ vid, pc.allocating = some vid → (∀ w, (s.volumeTable w).vid ≠ vid) ∧
      ∀ η, η ≠ θ → (s.pc η).allocating ≠ some vid)
    (returned : ∀ vid v, (vid, v) ∈ t.returned → (vid, v) ∈ s.returned ∨
      vid < unusedVid ∧ Whole (s.volumeTable v) vid) : ScanOk t := by
  have none : ∀ v, pc.holds ≠ some v := by
    intro v own
    rw [holds] at own
    cases own
  apply ok.goto pcs
  case table => exact fun w _ => by rw [table]
  case free => rw [free]
  case built => rw [table]; exact built
  case building =>
    intro v builds'
    rw [builds] at builds'
    cases builds'
  case alloc => rw [table]; exact alloc
  case returned => rw [table]; exact returned
  all_goals
    intro v
    intros
    exact absurd ‹pc.holds = some v› (none v)

theorem call (ok : ScanOk s) {θ : τ} {vid : Nat} (step : callScan θ vid s = some t) : ScanOk t := by
  unfold callScan at step
  split at step
  · rename_i pc
    split at step
    · rename_i low
      cases step
      exact ok.rest rfl rfl (by rw [pc]; rfl) rfl rfl low (fun _ none => by cases none)
        fun _ _ member => Or.inl member
    · cases step
  · cases step

/-- One comparison of the scan, or its end. -/
theorem compare (ok : ScanOk s) {θ : τ} {vid v : Nat} (pc : s.pc θ = .compare vid v)
    (allowed : LoneScan s (.advance θ)) (step : advanceScan θ s = some t) : ScanOk t := by
  have low : vid < unusedVid := by
    have built := ok.built θ
    rw [pc] at built
    exact built
  obtain ⟨lone, still⟩ := allowed vid v pc
  have idle : (s.pc θ).building = none := by rw [pc]; rfl
  unfold advanceScan at step
  simp only [pc] at step
  split at step
  · rename_i inside
    split at step
    · rename_i hit
      cases step
      refine ok.rest rfl rfl idle rfl rfl trivial (fun _ none => by cases none) ?_
      intro vid' v' member
      rcases List.mem_cons.mp member with same | old
      · cases same
        have used : (s.volumeTable ⟨v, inside⟩).vid ≠ unusedVid := by
          rw [hit]
          exact Nat.ne_of_lt low
        have found := ok.whole ⟨v, inside⟩ used (still ⟨v, inside⟩ rfl hit)
        rw [hit] at found
        exact Or.inr ⟨low, found⟩
      · exact Or.inl old
    · cases step
      exact ok.rest rfl rfl idle rfl rfl low (fun _ none => by cases none)
        fun _ _ member => Or.inl member
  · rename_i beyond
    cases step
    refine ok.rest rfl rfl idle rfl rfl low ?_ fun _ _ member => Or.inl member
    intro vid' same
    cases same
    exact lone (Nat.le_of_not_lt beyond)

theorem dequeue (ok : ScanOk s) {θ : τ} {vid : Nat} (pc : s.pc θ = .dequeue vid)
    (step : advanceScan θ s = some t) : ScanOk t := by
  have low : vid < unusedVid := by
    have built := ok.built θ
    rw [pc] at built
    exact built
  obtain ⟨absent, alone⟩ := ok.allocating θ vid (by rw [pc]; rfl)
  unfold advanceScan at step
  simp only [pc] at step
  obtain ⟨⟨v, free⟩, head, rfl⟩ := Option.map_eq_some_iff.mp step
  have values := LfQueue.dequeue_eq_some.mp head
  have distinct := ok.distinct
  rw [values] at distinct
  obtain ⟨unused, unheld⟩ := ok.free v (by rw [values]; exact List.mem_cons_self)
  have pcs : (({ s with volumeFreeLfqueue := free } : ScanState τ C N).goto θ
      (.storeVid vid v)).pc = Function.update s.pc θ (.storeVid vid v) := rfl
  apply ok.goto pcs
  case table => exact fun _ _ => rfl
  case free =>
    rw [values]
    exact List.sublist_cons_self v free.values
  case mine =>
    intro w own
    cases own
    exact ⟨(List.nodup_cons.mp distinct).1, fun η _ => unheld η⟩
  case built => exact ⟨low, unused⟩
  case whole =>
    intro w own used
    cases own
    exact absurd unused used
  case building =>
    intro w builds
    rw [pc] at builds
    cases builds
  case named => exact fun _ _ => Or.inl rfl
  case alloc =>
    intro vid' same
    cases same
    exact ⟨absent, fun η other allocates => other (alone η allocates)⟩
  case keeps => exact fun _ _ _ _ isWhole => isWhole
  case returned => exact fun _ _ member => Or.inl member

omit [DecidableEq τ] in
/-- An entry a call holds is its own. -/
theorem own (ok : ScanOk s) {θ : τ} {v : VolumeIdx} (holds : (s.pc θ).holds = some v) :
    v ∉ s.volumeFreeLfqueue.values ∧ ∀ η, η ≠ θ → (s.pc η).holds ≠ some v :=
  ⟨fun member => (ok.free v member).2 θ holds,
    fun η other holds' => other (ok.holders η θ v holds' holds)⟩

/-- A store into the entry the thread holds. -/
theorem store (ok : ScanOk s) {θ : τ} {pc : ScanPc} {v : VolumeIdx} {entry : VolumeEntry C N}
    (held : (s.pc θ).holds = some v) (holds : pc.holds = some v) (quiet : pc.allocating = none)
    (built : ∀ table, table v = entry → pc.Built table)
    (whole : entry.vid ≠ unusedVid → pc.building ≠ some v → Whole entry entry.vid)
    (named : entry.vid = (s.volumeTable v).vid ∨ (∀ w, (s.volumeTable w).vid ≠ entry.vid) ∧
        ∀ η, η ≠ θ → (s.pc η).allocating ≠ some entry.vid)
    (keeps : ∀ vid, vid < unusedVid → Whole (s.volumeTable v) vid → Whole entry vid) :
    ScanOk ((s.setEntry v entry).goto θ pc) := by
  have pcs : ((s.setEntry v entry).goto θ pc).pc = Function.update s.pc θ pc := rfl
  have here : ((s.setEntry v entry).goto θ pc).volumeTable v = entry := by
    simp only [ScanState.goto, ScanState.setEntry, Function.update_self]
  have one : ∀ w, pc.holds = some w → w = v := fun w own =>
    Option.some.inj (own.symm.trans holds)
  apply ok.goto pcs
  case table =>
    intro w loose
    have other : w ≠ v := fun same => loose (by rw [same]; exact holds)
    exact Function.update_of_ne other entry s.volumeTable
  case free => exact List.Sublist.refl _
  case mine =>
    intro w own
    cases one w own
    exact ok.own held
  case built => exact built _ here
  case whole =>
    intro w own
    cases one w own
    rw [here]
    exact whole
  case building =>
    intro w builds
    cases Option.some.inj ((ScanPc.holds_of_building builds).symm.trans held)
    exact holds
  case named =>
    intro w own
    cases one w own
    rw [here]
    exact named
  case alloc =>
    intro vid allocates
    rw [quiet] at allocates
    cases allocates
  case keeps =>
    intro w vid own
    cases one w own
    rw [here]
    exact keeps vid
  case returned => exact fun _ _ member => Or.inl member

theorem advance (ok : ScanOk s) {θ : τ} (allowed : LoneScan s (.advance θ))
    (step : advanceScan θ s = some t) : ScanOk t := by
  have built := ok.built θ
  cases pc : s.pc θ with
  | idle =>
    unfold advanceScan at step
    rw [pc] at step
    cases step
  | compare vid v => exact ok.compare pc allowed step
  | dequeue vid => exact ok.dequeue pc step
  | storeVid vid v =>
    rw [pc] at built
    obtain ⟨low, unused⟩ := built
    obtain ⟨absent, alone⟩ := ok.allocating θ vid (by rw [pc]; rfl)
    unfold advanceScan at step
    simp only [pc] at step
    cases step
    apply ok.store (v := v) (by rw [pc]; rfl) rfl rfl
    · exact fun table own => ⟨low, by rw [own]⟩
    · exact fun _ unbuilt => absurd rfl unbuilt
    · exact Or.inr ⟨absent, fun η other allocates => other (alone η allocates)⟩
    · intro vid' low' isWhole
      rw [isWhole.named] at unused
      exact absurd unused (Nat.ne_of_lt low')
  | storeFd vid v =>
    rw [pc] at built
    obtain ⟨low, named⟩ := built
    unfold advanceScan at step
    simp only [pc] at step
    cases step
    apply ok.store (v := v) (by rw [pc]; rfl) rfl rfl
    · exact fun table own => ⟨low, by rw [own]; exact named, by rw [own]⟩
    · exact fun _ unbuilt => absurd rfl unbuilt
    · exact Or.inl rfl
    · intro vid' _ isWhole
      have same : vid = vid' := named.symm.trans isWhole.named
      exact ⟨isWhole.named, by rw [same], isWhole.hashTable⟩
  | storeTable vid v =>
    rw [pc] at built
    obtain ⟨low, named, fd⟩ := built
    unfold advanceScan at step
    simp only [pc] at step
    cases step
    apply ok.store (v := v) (by rw [pc]; rfl) rfl rfl
    · exact fun table own => ⟨low, by rw [own]; exact ⟨named, fd, rfl⟩⟩
    · intro _ _
      exact ⟨rfl, by rw [named]; exact fd, rfl⟩
    · exact Or.inl rfl
    · exact fun vid' _ isWhole => ⟨isWhole.named, isWhole.fd, rfl⟩
  | enqueue vid v =>
    rw [pc] at built
    unfold advanceScan at step
    simp only [pc] at step
    obtain ⟨inuse, _, rfl⟩ := Option.map_eq_some_iff.mp step
    refine ok.rest rfl rfl (by rw [pc]; rfl) rfl rfl trivial (fun _ none => by cases none) ?_
    intro vid' v' member
    rcases List.mem_cons.mp member with same | old
    · cases same
      exact Or.inr built
    · exact Or.inl old

theorem next (ok : ScanOk s) {e : ScanEvent τ} (allowed : LoneScan s e)
    (step : scanNext s e = some t) : ScanOk t := by
  cases e with
  | call θ vid => exact ok.call step
  | advance θ => exact ok.advance allowed step

theorem of_reachable (reach : (scans τ C N).ReachableBy LoneScan s) : ScanOk s :=
  reach.invariant (fun _ initial => start initial) fun _ _ _ ok allowed step => ok.next allowed step

end ScanOk

end BurstBuffer.Source
