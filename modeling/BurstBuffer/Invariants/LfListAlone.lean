import BurstBuffer.Invariants.LfListThreads

/-!
# lflist with one thread

The calls of one thread are a run of the machine, so that its lists have the same
invariants, and no gaps. A search that has nobody beside it needs one round.
-/
namespace BurstBuffer.Source

open Library

/-- Calls that do not pass search a left node for the data of the head. -/
def ListCall.Allowed : ListCall → Prop
  | .search data _ => data ≠ 0
  | _ => True

/-- The lists that a single thread builds by calls that return. -/
inductive Built : LfList → Prop where
  | new : Built .new
  | call {l l' : LfList} {request : ListCall} {fuel : Nat} {reply : ListReply} : Built l →
      request.Allowed → runThread fuel request.begin l = some (reply, l') → Built l'

/-- The nodes that have not been removed, in the order of their appends. -/
def LfList.liveNodes (l : LfList) : List Nat :=
  (List.range' 1 l.tail).filter fun a => ¬ l.Marked a

/-- What holds of a list between two calls. -/
structure AloneOk (l : LfList) : Prop where
  list : ListOk l
  noGap : ∀ a < l.tail, l.next a ≠ .null
  count : l.count = l.liveNodes.length % 2 ^ 64

theorem mem_liveNodes {l : LfList} {a : Nat} :
    a ∈ l.liveNodes ↔ (1 ≤ a ∧ a ≤ l.tail) ∧ ¬ l.Marked a := by
  rw [LfList.liveNodes, List.mem_filter, List.mem_range'_1, decide_eq_true_eq, Nat.add_comm 1,
    Nat.lt_succ_iff]

theorem liveNodes_count {l : LfList} (a : Nat) :
    l.liveNodes.count a = if (1 ≤ a ∧ a ≤ l.tail) ∧ ¬ l.Marked a then 1 else 0 := by
  have distinct : l.liveNodes.Nodup := List.Nodup.filter _ List.nodup_range'
  rw [distinct.count]
  simp only [mem_liveNodes]

/-- Steps of one thread. -/
def LeadsTo : ListPc × LfList → ListPc × LfList → Prop :=
  Relation.ReflTransGen fun p q => listStep p.1 p.2 = some q

section Runs

variable {l l' : LfList} {pc pc' : ListPc} {fuel : Nat} {reply : ListReply}

theorem reply_of_step (step : listStep pc l = some (pc', l')) : pc.reply = none := by
  cases pc with
  | ready reply => cases step
  | _ => rfl

theorem runThread_ready (fuel : Nat) (reply : ListReply) (l : LfList) :
    runThread fuel (.ready reply) l = some (reply, l) := by
  cases fuel <;> rfl

theorem runThread_succ (step : listStep pc l = some (pc', l')) :
    runThread (fuel + 1) pc l = runThread fuel pc' l' := by
  rw [runThread, reply_of_step step, step]
  rfl

/-- A call that comes to its reply returns it. -/
theorem runThread_of_leads {p : ListPc × LfList} (leads : LeadsTo p (.ready reply, l')) :
    ∃ fuel, runThread fuel p.1 p.2 = some (reply, l') := by
  induction leads using Relation.ReflTransGen.head_induction_on with
  | refl => exact ⟨0, rfl⟩
  | head step _ ih =>
    obtain ⟨fuel, ran⟩ := ih
    exact ⟨fuel + 1, (runThread_succ step).trans ran⟩

theorem leads_of_runThread (ran : runThread fuel pc l = some (reply, l')) :
    LeadsTo (pc, l) (.ready reply, l') := by
  induction fuel generalizing pc l with
  | zero =>
    obtain ⟨reply', same, ended⟩ := Option.map_eq_some_iff.mp ran
    cases ended
    cases pc with
    | ready r =>
      cases same
      exact .refl
    | _ => cases same
  | succ fuel ih =>
    unfold runThread at ran
    split at ran
    · rename_i reply' same
      cases ran
      cases pc with
      | ready r =>
        cases same
        exact .refl
      | _ => cases same
    · obtain ⟨⟨pc', u⟩, step, rest⟩ := Option.bind_eq_some_iff.mp ran
      exact .head step (ih rest)

/-- A thread has one way to go, so that a call has one result. -/
theorem runThread_unique {fuel' : Nat} {p q : ListReply × LfList}
    (ran : runThread fuel pc l = some p) (ran' : runThread fuel' pc l = some q) : p = q := by
  induction fuel generalizing fuel' pc l with
  | zero =>
    obtain ⟨reply, same, rfl⟩ := Option.map_eq_some_iff.mp ran
    cases pc with
    | ready r =>
      cases same
      rw [runThread_ready] at ran'
      exact Option.some.inj ran'
    | _ => cases same
  | succ fuel ih =>
    unfold runThread at ran
    split at ran
    · rename_i reply' same
      cases pc with
      | ready r =>
        cases same
        rw [runThread_ready] at ran'
        exact Option.some.inj (ran.symm.trans ran')
      | _ => cases same
    · obtain ⟨⟨pc', u⟩, step, rest⟩ := Option.bind_eq_some_iff.mp ran
      cases fuel' with
      | zero =>
        rw [runThread, reply_of_step step] at ran'
        cases ran'
      | succ fuel' =>
        rw [runThread_succ step] at ran'
        exact ih rest ran'

/-- The invariants of list and thread hold all along a call. -/
theorem ok_of_leads {p q : ListPc × LfList} (list : ListOk p.2) (thread : p.1.Ok p.2)
    (leads : LeadsTo p q) : ListOk q.2 ∧ q.1.Ok q.2 := by
  induction leads with
  | refl => exact ⟨list, thread⟩
  | tail _ step ih =>
    obtain ⟨before, here⟩ := ih
    have effect := listStep_effect before here step
    exact ⟨effect.listOk before, listStep_ok before here step⟩

/-- A call that looks for the data of the head without a left node ends in its fault. -/
theorem leads_fault (list : ListOk l) (removing : Bool) :
    LeadsTo (.readHead ⟨0, removing, none, .null⟩, l) (.fault, l) := by
  have unmarked : (l.next LfList.head).mark = false := (Bool.not_eq_true _).mp list.headKept
  have tested : listStep (.testData ⟨0, removing, none, .null⟩ LfList.head (l.next LfList.head)) l =
      some (.swapLeft ⟨0, removing, none, .null⟩ LfList.head, l) := by
    rw [listStep, if_neg]
    · rfl
    · rw [unmarked, list.headData]
      simp
  exact .head rfl (.head tested (.head rfl .refl))

theorem runThread_fault {p : ListPc × LfList} (leads : LeadsTo p (.fault, l')) (fuel : Nat) :
    runThread fuel p.1 p.2 = none := by
  induction leads using Relation.ReflTransGen.head_induction_on generalizing fuel with
  | refl => cases fuel <;> rfl
  | head step _ ih =>
    cases fuel with
    | zero =>
      rw [runThread, reply_of_step step]
      rfl
    | succ fuel =>
      rw [runThread_succ step]
      exact ih fuel

end Runs

section Building

variable {l l' : LfList}

/-- The one thread of the machine follows a call. -/
theorem reachable_of_leads {p q : ListPc × LfList} (leads : LeadsTo p q) {s : ListSystem Unit}
    (reach : (listMachine Unit).ReachableBy KeyedCalls s) (list : s.list = p.2)
    (pc : s.pc () = p.1) :
    ∃ t, (listMachine Unit).ReachableBy KeyedCalls t ∧ t.list = q.2 ∧ t.pc () = q.1 := by
  induction leads with
  | refl => exact ⟨s, reach, list, pc⟩
  | @tail q r _ step ih =>
    obtain ⟨t, before, same, here⟩ := ih
    have next : listNext t (.step ()) = some (t.advance () r.1 r.2) := by
      rw [listNext, here, same, step]
      rfl
    have keyed : KeyedCalls t (.step ()) := trivial
    refine ⟨t.advance () r.1 r.2, before.step keyed next, rfl, ?_⟩
    rw [ListSystem.advance_pc, Function.update_self]

theorem Built.reachable (built : Built l) :
    ∃ s : ListSystem Unit, (listMachine Unit).ReachableBy KeyedCalls s ∧ s.list = l ∧
      ∃ reply, s.pc () = .ready reply := by
  induction built with
  | new =>
    exact ⟨⟨.new, fun _ => .ready .done, [], []⟩, .init ⟨rfl, fun _ => rfl, rfl, rfl⟩, rfl, _, rfl⟩
  | @call l l' request fuel reply _ allowed ran ih =>
    obtain ⟨s, reach, rfl, before, ready⟩ := ih
    have keyed : request.Keyed := by
      cases request with
      | append data => trivial
      | search data leftNode => exact allowed
      | remove data =>
        intro zero
        subst zero
        have list := (ListSystemOk.of_reachable reach).list
        have stuck := runThread_fault (leads_fault list true) fuel
        cases stuck.symm.trans ran
    have called : listNext s (.call () request) = some (s.setPc () request.begin) := by
      rw [listNext, ready]
    have guarded : KeyedCalls s (.call () request) := keyed
    have started := reach.step guarded called
    have begins : (s.setPc () request.begin).pc () = request.begin := by
      rw [ListSystem.setPc_pc, Function.update_self]
    obtain ⟨t, after, list, pc⟩ := reachable_of_leads (leads_of_runThread ran) started rfl begins
    exact ⟨t, after, list, reply, pc⟩

theorem Built.alone (built : Built l) : AloneOk l := by
  obtain ⟨s, reach, rfl, reply, ready⟩ := built.reachable
  have ok := ListSystemOk.of_reachable reach
  have rest : ∀ w, ∃ reply, s.pc w = .ready reply := fun _ => ⟨reply, ready⟩
  obtain ⟨appended, removed⟩ := ok.at_rest rest
  refine ⟨ok.list, ?_, ?_⟩
  · intro a inside null
    obtain ⟨w, pending⟩ := ok.gap a inside null
    cases ready.symm.trans pending
  · have parts : (s.removed ++ s.list.liveNodes).Perm s.appended := by
      rw [List.perm_iff_count]
      intro a
      rw [List.count_append, removed, appended, liveNodes_count]
      by_cases marked : s.list.Marked a
      · have inner := ok.list.inner_of_marked marked
        rw [if_pos marked, if_neg fun live => live.2 marked, if_pos inner]
      · simp only [marked, not_false_eq_true, and_true, if_false, Nat.zero_add]
    have lengths := parts.length_eq
    rw [List.length_append] at lengths
    rw [(ok.count_at_rest rest).2, ← lengths, Nat.add_sub_cancel_left]

end Building

end BurstBuffer.Source
