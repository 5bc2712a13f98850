import BurstBuffer.Invariants.LfList
import BurstBuffer.Library.Pool

/-!
# The threads of lflist

Every node is appended by one call and marked by at most one call of remove, and a gap
in the links is one that a call of append is about to close.
-/
namespace BurstBuffer.Source

open Library

variable {τ : Type} [Fintype τ] [DecidableEq τ]

structure ListSystemOk (s : ListSystem τ) : Prop where
  list : ListOk s.list
  thread : ∀ w, (s.pc w).Ok s.list
  gap : ∀ a < s.list.tail, s.list.next a = .null → ∃ w, s.pc w = .linkOld a (a + 1)
  appended : ∀ a, s.appended.count a + copies (fun w => (s.pc w).appending) a =
    if 1 ≤ a ∧ a ≤ s.list.tail then 1 else 0
  removed : ∀ a, s.removed.count a + copies (fun w => (s.pc w).removes) a =
    if s.list.Marked a then 1 else 0
  small : s.list.count < 2 ^ 64
  count : (s.list.count + s.removed.length) % 2 ^ 64 = s.appended.length % 2 ^ 64

section Step

variable {s : ListSystem τ} {w : τ} {pc : ListPc} {l : LfList}

omit [DecidableEq τ] in
/-- No two calls are about to link behind the same node. -/
theorem ListSystemOk.pending_unique (ok : ListSystemOk s) {x : τ} {old node node' : Nat}
    (here : s.pc w = .linkOld old node) (there : s.pc x = .linkOld old node') : w = x := by
  have mine : node = old + 1 := by
    have knows := ok.thread w
    rw [here] at knows
    exact knows.1
  have yours : node' = old + 1 := by
    have knows := ok.thread x
    rw [there] at knows
    exact knows.1
  have single : copies (fun w => (s.pc w).appending) node ≤ 1 := by
    have once := ok.appended node
    split at once <;> omega
  refine eq_of_copies_le_one single ?_ ?_
  · rw [here]
    exact List.mem_cons_self
  · rw [there, yours, ← mine]
    exact List.mem_cons_self

omit [DecidableEq τ] in
/-- A step leaves the gaps of the other calls. -/
theorem ListSystemOk.pending (ok : ListSystemOk s) (effect : ListEffect s.list (s.pc w) pc l)
    {x : τ} (other : x ≠ w) {old node : Nat} (there : s.pc x = .linkOld old node) :
    l.next old = .null := by
  have before : s.list.next old = .null := by
    have knows := ok.thread x
    rw [there] at knows
    exact knows.2.2
  generalize mine : s.pc w = pc' at effect
  cases effect with
  | quiet => exact before
  | append => exact before
  | remove => exact before
  | swap data =>
    rw [ok.list.setTail_next]
    exact before
  | link old' =>
    have apart : old ≠ old' := by
      intro same
      subst same
      exact other (ok.pending_unique there mine)
    exact (next_setNext apart _).trans before
  | unlink vars left next rightNode linked =>
    have apart : old ≠ left := by
      intro same
      subst same
      cases before.symm.trans linked
    exact (next_setNext apart _).trans before
  | mark vars curr succ linked some =>
    have apart : old ≠ curr := by
      intro same
      subst same
      rw [← linked, before] at some
      cases some
    exact (next_setNext apart _).trans before

/-- The gaps that are not the one of a thread stay when it goes on. -/
theorem ListSystemOk.gap_stays (ok : ListSystemOk s) {a : Nat} (inside : a < s.list.tail)
    (null : s.list.next a = .null) (other : s.pc w ≠ .linkOld a (a + 1)) (pc : ListPc) :
    ∃ x, Function.update s.pc w pc x = .linkOld a (a + 1) := by
  obtain ⟨x, pending⟩ := ok.gap a inside null
  have apart : x ≠ w := by
    intro same
    subst same
    exact other pending
  exact ⟨x, (Function.update_of_ne apart pc s.pc).trans pending⟩

/-- A step opens a gap behind the old tail only, and closes its own. -/
theorem ListSystemOk.gap_step (ok : ListSystemOk s) (effect : ListEffect s.list (s.pc w) pc l)
    {a : Nat} (inside : a < l.tail) (null : l.next a = .null) :
    ∃ x, Function.update s.pc w pc x = .linkOld a (a + 1) := by
  have old : a < s.list.tail → s.list.next a = .null → s.pc w ≠ .linkOld a (a + 1) →
      ∃ x, Function.update s.pc w pc x = .linkOld a (a + 1) :=
    fun low unlinked other => ok.gap_stays low unlinked other pc
  generalize s.pc w = mine at effect old
  cases effect with
  | quiet none =>
    apply old inside null
    intro same
    rw [same] at none
    cases none
  | append node =>
    rw [LfList.setCount_tail] at inside
    rw [LfList.setCount_next] at null
    exact old inside null ListPc.noConfusion
  | remove =>
    rw [LfList.setCount_tail] at inside
    rw [LfList.setCount_next] at null
    exact old inside null ListPc.noConfusion
  | swap data =>
    rw [ok.list.setTail_next] at null
    rcases Nat.eq_or_lt_of_le (Nat.le_of_lt_succ inside) with rfl | low
    · exact ⟨w, Function.update_self _ _ _⟩
    · exact old low null ListPc.noConfusion
  | link old' =>
    have apart := ne_of_setNext_null rfl null
    rw [next_setNext apart] at null
    apply old inside null
    intro same
    cases same
    exact apart rfl
  | unlink vars left next rightNode =>
    have apart := ne_of_setNext_null rfl null
    rw [next_setNext apart] at null
    exact old inside null ListPc.noConfusion
  | mark vars curr succ linked some =>
    have stored : succ.setMark.ref.isSome := some
    have apart := ne_of_setNext_null stored null
    rw [next_setNext apart] at null
    exact old inside null ListPc.noConfusion

omit [Fintype τ] [DecidableEq τ] in
/-- The record of appended nodes and the calls of append together have the new tail. -/
theorem ListEffect.appended {l l' : LfList} {pc pc' : ListPc} (effect : ListEffect l pc pc' l')
    (a : Nat) :
    pc.appends.count a + pc'.appending.count a + (if 1 ≤ a ∧ a ≤ l.tail then 1 else 0) =
      pc.appending.count a + if 1 ≤ a ∧ a ≤ l'.tail then 1 else 0 := by
  cases effect with
  | quiet none _ none' => rw [ListPc.appends_of_appending none, none, none', List.count_nil]
  | swap data =>
    rw [LfList.setTail_tail]
    simp only [ListPc.appends, ListPc.appending, List.count_nil, List.count_singleton, beq_iff_eq,
      Nat.zero_add]
    split <;> split <;> split <;> omega
  | link old =>
    rw [LfList.setNext_tail]
    simp only [ListPc.appends, ListPc.appending, List.count_nil, Nat.zero_add]
  | append node =>
    rw [LfList.setCount_tail]
    simp only [ListPc.appends, ListPc.appending, List.count_nil, Nat.add_zero]
  | unlink =>
    rw [LfList.setNext_tail]
    simp only [ListPc.appends, ListPc.appending, List.count_nil, Nat.zero_add]
  | mark =>
    rw [LfList.setNext_tail]
    simp only [ListPc.appends, ListPc.appending, List.count_nil, Nat.zero_add]
  | remove =>
    rw [LfList.setCount_tail]
    simp only [ListPc.appends, ListPc.appending, List.count_nil, Nat.zero_add]

omit [Fintype τ] [DecidableEq τ] in
/-- A node is marked by the step that takes it into a call of remove. -/
theorem ListEffect.removed {l l' : LfList} {pc pc' : ListPc} (effect : ListEffect l pc pc' l')
    (ok : ListOk l) (a : Nat) :
    (if l'.Marked a then 1 else 0) = (if l.Marked a then 1 else 0) + pc'.removes.count a := by
  have marked := effect.marked_iff ok a
  have fresh : a ∈ pc'.removes → ¬ l.Marked a ∧ pc'.removes.count a = 1 := by
    intro member
    cases effect with
    | quiet _ _ _ none =>
      rw [none] at member
      cases member
    | swap => cases member
    | link => cases member
    | append => cases member
    | unlink => cases member
    | remove => cases member
    | mark vars curr succ linked some unmarked =>
      have here : a = curr := List.mem_singleton.mp member
      rw [here]
      exact ⟨unmarked_of_next linked unmarked, List.count_singleton_self⟩
  by_cases member : a ∈ pc'.removes
  · rw [if_pos (marked.mpr (Or.inr member)), if_neg (fresh member).1, (fresh member).2]
  · rw [List.count_eq_zero.mpr member]
    simp only [marked, member, or_false, Nat.add_zero]

omit [Fintype τ] [DecidableEq τ] in
/-- The counter follows the two records. -/
theorem ListEffect.count {l l' : LfList} {pc pc' : ListPc} (effect : ListEffect l pc pc' l')
    (small : l.count < 2 ^ 64) {removed appended : Nat}
    (count : (l.count + removed) % 2 ^ 64 = appended % 2 ^ 64) :
    l'.count < 2 ^ 64 ∧ (l'.count + (removed + pc.removes.length)) % 2 ^ 64 =
      (appended + pc.appends.length) % 2 ^ 64 := by
  cases effect with
  | quiet none silent =>
    rw [silent, ListPc.appends_of_appending none]
    exact ⟨small, count⟩
  | swap => exact ⟨small, count⟩
  | link => exact ⟨small, count⟩
  | unlink => exact ⟨small, count⟩
  | mark => exact ⟨small, count⟩
  | append node =>
    rw [LfList.setCount_count]
    simp only [ListPc.removes, ListPc.appends, List.length_nil, List.length_singleton]
    omega
  | remove curr =>
    rw [LfList.setCount_count]
    simp only [ListPc.removes, ListPc.appends, List.length_nil, List.length_singleton]
    omega

theorem ListSystemOk.step (ok : ListSystemOk s) (step : listStep (s.pc w) s.list = some (pc, l)) :
    ListSystemOk (s.advance w pc l) := by
  have effect := listStep_effect ok.list (ok.thread w) step
  have grows := effect.grows ok.list
  constructor
  · exact effect.listOk ok.list
  · intro x
    unfold ListSystem.advance
    dsimp only
    by_cases here : x = w
    · subst x
      rw [Function.update_self]
      exact listStep_ok ok.list (ok.thread w) step
    · rw [Function.update_of_ne here]
      exact (ok.thread x).mono grows fun old node there => ok.pending effect here there
  · intro a inside null
    exact ok.gap_step effect inside null
  · intro a
    have moved := copies_goto ListPc.appending s.pc w pc a
    have before := ok.appended a
    have change := effect.appended a
    unfold ListSystem.advance
    dsimp only
    rw [List.count_append]
    omega
  · intro a
    have moved := copies_goto ListPc.removes s.pc w pc a
    have before := ok.removed a
    have change := effect.removed ok.list a
    unfold ListSystem.advance
    dsimp only
    rw [List.count_append]
    omega
  · exact (effect.count ok.small ok.count).1
  · unfold ListSystem.advance
    dsimp only
    rw [List.length_append, List.length_append]
    exact (effect.count ok.small ok.count).2

/-- The data a call looks for is not that of the head. -/
def ListCall.Keyed : ListCall → Prop
  | .append _ => True
  | .search data _ => data ≠ 0
  | .remove data => data ≠ 0

def KeyedCalls (_ : ListSystem τ) : ListEvent τ → Prop
  | .call _ request => request.Keyed
  | .step _ => True

theorem ListSystemOk.call (ok : ListSystemOk s) {reply : ListReply} (ready : s.pc w = .ready reply)
    {request : ListCall} (keyed : request.Keyed) : ListSystemOk (s.setPc w request.begin) := by
  have quiet : request.begin.appending = [] ∧ request.begin.removes = [] := by
    cases request <;> exact ⟨rfl, rfl⟩
  constructor
  · exact ok.list
  · intro x
    unfold ListSystem.setPc
    dsimp only
    by_cases here : x = w
    · subst x
      rw [Function.update_self]
      cases request with
      | append data => trivial
      | search data leftNode => exact keyed
      | remove data => exact keyed
    · rw [Function.update_of_ne here]
      exact ok.thread x
  · intro a inside null
    have other : s.pc w ≠ .linkOld a (a + 1) := by
      intro pending
      cases pending.symm.trans ready
    exact ok.gap_stays inside null other request.begin
  · intro a
    have moved := copies_goto ListPc.appending s.pc w request.begin a
    rw [ready, quiet.1] at moved
    have before := ok.appended a
    exact (congrArg (s.appended.count a + ·) moved).trans before
  · intro a
    have moved := copies_goto ListPc.removes s.pc w request.begin a
    rw [ready, quiet.2] at moved
    have before := ok.removed a
    exact (congrArg (s.removed.count a + ·) moved).trans before
  · exact ok.small
  · exact ok.count

theorem ListSystemOk.next (ok : ListSystemOk s) {e : ListEvent τ} (keyed : KeyedCalls s e)
    {t : ListSystem τ} (step : listNext s e = some t) : ListSystemOk t := by
  cases e with
  | call w request =>
    unfold listNext at step
    dsimp only at step
    split at step
    · rename_i reply ready
      cases step
      exact ok.call ready keyed
    · cases step
  | step w =>
    obtain ⟨⟨pc, l⟩, stepped, rfl⟩ := Option.map_eq_some_iff.mp step
    exact ok.step stepped

end Step

omit [DecidableEq τ] in
/-- Between the calls nothing is under way. -/
theorem copies_at_rest {s : ListSystem τ} (rest : ∀ w, ∃ reply, s.pc w = .ready reply)
    {part : ListPc → List Nat} (silent : ∀ reply, part (.ready reply) = []) (a : Nat) :
    copies (fun w => part (s.pc w)) a = 0 := by
  apply copies_eq_zero.mpr
  intro w
  obtain ⟨reply, ready⟩ := rest w
  rw [ready, silent]
  exact List.not_mem_nil

theorem ListOk.new : ListOk .new := by
  constructor
  · constructor
    · intro a b linked
      cases linked
    · intro a b c linked
      cases linked
  · intro a marked
    cases marked
  · intro marked
    cases marked
  · rfl

theorem ListSystemOk.of_reachable {s : ListSystem τ}
    (reach : (listMachine τ).ReachableBy KeyedCalls s) : ListSystemOk s := by
  apply reach.invariant
  · intro s ⟨list, ready, appended, removed⟩
    have rest : ∀ w, ∃ reply, s.pc w = .ready reply := fun w => ⟨.done, ready w⟩
    constructor
    · rw [list]
      exact .new
    · intro w
      rw [ready]
      trivial
    · intro a inside
      rw [list] at inside
      exact absurd inside (Nat.not_lt_zero a)
    · intro a
      rw [copies_at_rest rest fun _ => rfl, appended, list, if_neg]
      · rfl
      · intro ⟨low, high⟩
        exact absurd high (Nat.not_le_of_lt low)
    · intro a
      rw [copies_at_rest rest fun _ => rfl, removed, list, if_neg]
      · rfl
      · intro marked
        cases marked
    · rw [list]
      decide
    · rw [list, appended, removed]
      rfl
  · intro s e t ok keyed step
    exact ok.next keyed step

section Runs

variable {s t : ListSystem τ}

omit [DecidableEq τ] in
/-- The links of a list with one more mark are those it had. -/
theorem ListSystemOk.link_of_marks (ok : ListSystemOk s) {w : τ} {pc : ListPc} {l : LfList}
    (effect : ListEffect s.list (s.pc w) pc l) {a : Nat} (before : ¬ s.list.Marked a)
    (after : l.Marked a) : l.link = s.list.link := by
  rcases (effect.marked_iff ok.list a).mp after with marked | removed
  · exact absurd marked before
  · generalize s.pc w = mine at effect
    cases effect with
    | quiet => rfl
    | mark vars curr succ linked => exact link_setMark linked
    | swap => cases removed
    | link => cases removed
    | append => cases removed
    | unlink => cases removed
    | remove => cases removed

/-- A step takes marked nodes out of the chain only. -/
theorem ListSystemOk.marked_of_unlinked (ok : ListSystemOk s) {e : ListEvent τ}
    (step : listNext s e = some t) {a : Nat} (before : Follows s.list.link LfList.head a)
    (after : ¬ Follows t.list.link LfList.head a) : s.list.Marked a := by
  by_contra unmarked
  cases e with
  | call w request =>
    unfold listNext at step
    dsimp only at step
    split at step
    · cases step
      exact after before
    · cases step
  | step w =>
    obtain ⟨⟨pc, l⟩, stepped, rfl⟩ := Option.map_eq_some_iff.mp step
    have effect := listStep_effect ok.list (ok.thread w) stepped
    have linked : ∀ c < a, (l.link c).isSome := by
      intro c low
      apply (effect.grows ok.list).linked
      exact ok.list.skips.linked_of_follows ok.list.linked before (Nat.zero_le c) low
    rcases (effect.skips ok.list).follows_or_gone linked (Nat.zero_le a) with follows | marked
    · exact after follows
    · have same := ok.link_of_marks effect unmarked marked
      apply after
      change Follows l.link LfList.head a
      rw [same]
      exact before

omit [DecidableEq τ] in
/-- A node whose predecessors are all linked is in the chain or marked. -/
theorem ListSystemOk.follows (ok : ListSystemOk s) {a : Nat} (inside : a ≤ s.list.tail)
    (unmarked : ¬ s.list.Marked a) (linked : ∀ c ≤ a, ∀ w old, s.pc w ≠ .linkOld old c) :
    Follows s.list.link LfList.head a := by
  have stored : ∀ c < a, (s.list.link c).isSome := by
    intro c low
    apply ok.list.linked_of_ne
    intro null
    obtain ⟨w, pending⟩ := ok.gap c (Nat.lt_of_lt_of_le low inside) null
    exact linked (c + 1) low w c pending
  rcases ok.list.skips.follows_or_gone stored (Nat.zero_le a) with follows | marked
  · exact follows
  · exact absurd marked unmarked

theorem ListSystemOk.frozen (ok : ListSystemOk s) {e : ListEvent τ} (step : listNext s e = some t)
    {a : Nat} (marked : s.list.Marked a) : t.list.next a = s.list.next a := by
  cases e with
  | call w request =>
    unfold listNext at step
    dsimp only at step
    split at step
    · cases step
      rfl
    · cases step
  | step w =>
    obtain ⟨⟨pc, l⟩, stepped, rfl⟩ := Option.map_eq_some_iff.mp step
    have effect := listStep_effect ok.list (ok.thread w) stepped
    exact (effect.grows ok.list).frozen a marked

/-- Once marked, a node keeps its mark and its successor in every run. -/
theorem ListSystemOk.frozen_run (ok : ListSystemOk s) {es : List (ListEvent τ)}
    (keyed : ∀ e ∈ es, KeyedCalls s e) (steps : (listMachine τ).run s es = some t) {a : Nat}
    (marked : s.list.Marked a) : t.list.next a = s.list.next a := by
  induction es generalizing s with
  | nil =>
    cases steps
    rfl
  | cons e es ih =>
    obtain ⟨u, first, rest⟩ := Option.bind_eq_some_iff.mp steps
    have same := ok.frozen first marked
    have still : u.list.Marked a := by
      rw [LfList.Marked, same]
      exact marked
    have later := ih (ok.next (keyed e List.mem_cons_self) first)
      (fun e' member => keyed e' (List.mem_cons_of_mem e member)) rest still
    exact later.trans same

omit [DecidableEq τ] in
theorem ListSystemOk.removed_nodup (ok : ListSystemOk s) : s.removed.Nodup := by
  apply List.nodup_iff_count_le_one.mpr
  intro a
  have once := ok.removed a
  split at once <;> omega

omit [DecidableEq τ] in
/-- With no call in progress the records are complete. -/
theorem ListSystemOk.at_rest (ok : ListSystemOk s) (rest : ∀ w, ∃ reply, s.pc w = .ready reply) :
    (∀ a, s.appended.count a = if 1 ≤ a ∧ a ≤ s.list.tail then 1 else 0) ∧
      ∀ a, s.removed.count a = if s.list.Marked a then 1 else 0 := by
  constructor
  · intro a
    have once := ok.appended a
    rwa [copies_at_rest rest fun _ => rfl, Nat.add_zero] at once
  · intro a
    have once := ok.removed a
    rwa [copies_at_rest rest fun _ => rfl, Nat.add_zero] at once

omit [DecidableEq τ] in
/-- The counter then is the number of the nodes that have not been removed. -/
theorem ListSystemOk.count_at_rest (ok : ListSystemOk s)
    (rest : ∀ w, ∃ reply, s.pc w = .ready reply) :
    s.removed ⊆ s.appended ∧
      s.list.count = (s.appended.length - s.removed.length) % 2 ^ 64 := by
  obtain ⟨appended, removed⟩ := ok.at_rest rest
  have part : s.removed ⊆ s.appended := by
    intro a member
    have marked : s.list.Marked a := by
      by_contra unmarked
      have none := removed a
      rw [if_neg unmarked] at none
      exact List.count_eq_zero.mp none member
    apply List.count_pos_iff.mp
    rw [appended, if_pos (ok.list.inner_of_marked marked)]
    exact Nat.one_pos
  have fewer := (List.subperm_of_subset ok.removed_nodup part).length_le
  have count := ok.count
  have small := ok.small
  exact ⟨part, by omega⟩

end Runs

end BurstBuffer.Source
