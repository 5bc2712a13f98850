import BurstBuffer.Invariants.LfListSearch

/-!
# remove, the empty list and the destructor

remove marks the node that search has found, unless it is the tail, whose `next` is
null. On the empty list search takes the null successor of the head for an append that
has not linked its node yet. The destructor follows `next` words as they are.
-/
namespace BurstBuffer.Source

open Library

section Removing

variable {l : LfList} {data : Nat}

/-- The swap of remove on a node that is not the tail. -/
theorem leads_mark {vars : SearchVars} {curr : Nat} (linked : l.next curr ≠ .null)
    (same : l.data curr = vars.data) (unmarked : ¬ l.Marked curr) :
    ∃ count, LeadsTo (.testFound vars curr, l)
      (.ready (.code 1), (l.setNext curr (l.next curr).setMark).setCount count) := by
  have found : listStep (.testFound vars curr) l = some (.testCurr vars curr, l) := by
    unfold listStep
    exact if_neg linked
  have tested : listStep (.testCurr vars curr) l = some (.readSucc vars curr, l) := by
    unfold listStep
    exact if_neg fun other => other same
  have read : listStep (.readSucc vars curr) l = some (.markCurr vars curr (l.next curr), l) := by
    unfold listStep
    exact if_neg unmarked
  have swapped : listStep (.markCurr vars curr (l.next curr)) l =
      some (.subCount curr, l.setNext curr (l.next curr).setMark) := by
    unfold listStep
    exact if_pos rfl
  exact ⟨_, .head found (.head tested (.head read (.head swapped (.head rfl .refl))))⟩

/-- What remove does with the node that it finds. -/
theorem AloneOk.remove (ok : AloneOk l) (key : data ≠ 0) (nonempty : 0 < l.tail) :
    ∃ (r : Nat) (l' : LfList),
      LeadsTo ((ListCall.remove data).begin, l)
        (.ready (.code (if r < l.tail then 1 else 0)), l') ∧
      Found l data r ∧ l'.data = l.data ∧ l'.tail = l.tail ∧
      ∀ a, l'.Marked a ↔ l.Marked a ∨ r < l.tail ∧ a = r := by
  have start : (SearchVars.mk data true none .null).data ≠ 0 := key
  obtain ⟨vars, r, m, leads, sought, removing, found, same, kept⟩ := ok.search start nonempty
  have back : vars.return r = .testFound vars r := if_pos removing
  rw [back] at leads
  by_cases inside : r < l.tail
  · have linked : m.next r ≠ .null := by
      rw [kept]
      exact ok.noGap r inside
    have equal : m.data r = vars.data := by
      rw [same.data, sought]
      exact found.stops inside
    have unmarked : ¬ m.Marked r := fun marked => found.live ((same.marked r).mp marked)
    obtain ⟨count, marking⟩ := leads_mark linked equal unmarked
    refine ⟨r, (m.setNext r (m.next r).setMark).setCount count, ?_, found, same.data, same.tail, ?_⟩
    · rw [if_pos inside]
      exact leads.trans marking
    · intro a
      apply marked_setNext.trans
      split
      · rename_i here
        exact ⟨fun _ => Or.inr ⟨inside, here⟩, fun _ => rfl⟩
      · rename_i other
        apply (same.marked a).trans
        exact ⟨Or.inl, fun either => either.resolve_right fun removed => other removed.2⟩
  · have last : l.tail ≤ r := Nat.le_of_not_lt inside
    have null : m.next r = .null := by
      rw [kept]
      exact ok.list.null_of_tail_le last
    have stopped : listStep (.testFound vars r) m = some (.ready (.code 0), m) := by
      unfold listStep
      exact if_pos null
    refine ⟨r, m, ?_, found, same.data, same.tail, ?_⟩
    · rw [if_neg inside]
      exact leads.tail stopped
    · intro a
      apply (same.marked a).trans
      exact ⟨Or.inl, fun either => either.resolve_right fun removed => inside removed.1⟩

/-- The earliest live node with the data. -/
def LfList.firstLive (l : LfList) (data : Nat) : Option Nat :=
  l.liveNodes.find? fun a => l.data a = data

/-- The node that search returns is the earliest with its data, if it has them at all. -/
theorem Found.firstLive {r : Nat} (found : Found l data r) :
    l.firstLive data = if l.data r = data then some r else none := by
  unfold LfList.firstLive
  split
  · rename_i same
    unfold LfList.liveNodes
    rw [List.find?_filter, List.find?_range'_eq_some]
    refine ⟨by simp [same, found.live], ?_, fun c low before => ?_⟩
    · rw [List.mem_range'_1]
      have inside := found.inside
      exact ⟨found.inner, by omega⟩
    · rcases found.first c low before with marked | other
      · simp [marked]
      · simp [other]
  · rename_i different
    rw [List.find?_eq_none]
    intro c member
    obtain ⟨⟨low, high⟩, live⟩ := mem_liveNodes.mp member
    rw [decide_eq_true_eq]
    rcases Nat.lt_trichotomy c r with before | same | behind
    · exact (found.first c low before).resolve_left live
    · rwa [same]
    · intro _
      exact different (found.stops (Nat.lt_of_lt_of_le behind high))

/-- The live nodes after one of them has been marked. -/
theorem liveNodes_erase {l' : LfList} {r : Nat} (tail : l'.tail = l.tail)
    (marked : ∀ a, l'.Marked a ↔ l.Marked a ∨ a = r) : l'.liveNodes = l.liveNodes.erase r := by
  have distinct : l.liveNodes.Nodup := List.Nodup.filter _ List.nodup_range'
  rw [distinct.erase_eq_filter, LfList.liveNodes, LfList.liveNodes, List.filter_filter, tail]
  apply List.filter_congr
  intro a _
  by_cases here : a = r
  · simp [marked, here]
  · simp [marked, here]

theorem liveNodes_same {l' : LfList} (tail : l'.tail = l.tail)
    (marked : ∀ a, l'.Marked a ↔ l.Marked a) : l'.liveNodes = l.liveNodes := by
  rw [LfList.liveNodes, LfList.liveNodes, tail]
  apply List.filter_congr
  intro a _
  simp only [marked]

end Removing

/-- The round that search makes on the empty list. -/
def ListPc.Spins : ListPc → Prop
  | .readHead vars => vars.data ≠ 0
  | .testData vars t tNext => vars.data ≠ 0 ∧ t = LfList.head ∧ tNext = .null
  | .testTail vars t => vars.data ≠ 0 ∧ t = none
  | _ => False

section Empty

variable {l : LfList}

theorem ListPc.Spins.step (ok : ListOk l) (empty : l.tail = LfList.head) {pc : ListPc}
    (spins : pc.Spins) : ∃ pc', listStep pc l = some (pc', l) ∧ pc'.Spins := by
  cases pc with
  | readHead vars =>
    refine ⟨_, rfl, spins, rfl, ?_⟩
    exact ok.null_of_tail_le (Nat.le_of_eq empty)
  | testData vars t tNext =>
    obtain ⟨key, rfl, rfl⟩ := spins
    have other : l.data LfList.head ≠ vars.data := by
      rw [ok.headData]
      exact key.symm
    refine ⟨.testTail { vars with leftNode := some LfList.head, leftNodeNext := .null } none, ?_,
      key, rfl⟩
    unfold listStep
    exact if_pos (Or.inr other)
  | testTail vars t =>
    obtain ⟨key, rfl⟩ := spins
    exact ⟨.readHead vars, rfl, key⟩
  | _ => cases spins

/-- On the empty list search never returns. -/
theorem runThread_spins (ok : ListOk l) (empty : l.tail = LfList.head) {pc : ListPc}
    (spins : pc.Spins) (fuel : Nat) : runThread fuel pc l = none := by
  induction fuel generalizing pc with
  | zero =>
    cases pc with
    | ready reply => cases spins
    | _ => rfl
  | succ fuel ih =>
    obtain ⟨pc', step, after⟩ := spins.step ok empty
    rw [runThread_succ step]
    exact ih after

end Empty

/-- The nodes whose fields a step reads or writes. -/
def ListPc.nodes : ListPc → List Nat
  | .linkOld old _ => [old]
  | .readHead _ => [LfList.head]
  | .testData _ t _ => [t]
  | .readNext _ t => [t]
  | .swapLeft vars _ => vars.leftNode.toList
  | .testRight _ rightNode => [rightNode]
  | .testFound _ curr => [curr]
  | .testCurr _ curr => [curr]
  | .readSucc _ curr => [curr]
  | .markCurr _ curr _ => [curr]
  | _ => []

theorem ListPc.Ok.nodes_le {l : LfList} {pc : ListPc} (here : pc.Ok l) :
    ∀ a ∈ pc.nodes, a ≤ l.tail := by
  intro a member
  cases pc with
  | ready reply => cases member
  | swapTail data => cases member
  | addCount node => cases member
  | testTail vars t => cases member
  | subCount curr => cases member
  | fault => cases member
  | linkOld old node =>
    rw [List.mem_singleton.mp member]
    exact Nat.le_of_lt here.2.1
  | readHead vars =>
    rw [List.mem_singleton.mp member]
    exact Nat.zero_le _
  | swapLeft vars rightNode =>
    obtain ⟨_, inside, left, next, leftNode, _, less, order, _⟩ := here
    rw [ListPc.nodes, leftNode] at member
    rw [List.mem_singleton.mp member]
    exact Nat.le_of_lt (Nat.lt_of_lt_of_le (Nat.lt_of_lt_of_le less order) inside)
  | testData vars t tNext =>
    rw [List.mem_singleton.mp member]
    exact here.2.1
  | readNext vars t =>
    rw [List.mem_singleton.mp member]
    exact here.2.1
  | testRight vars rightNode =>
    rw [List.mem_singleton.mp member]
    exact here.2
  | testFound vars curr =>
    rw [List.mem_singleton.mp member]
    exact here.2
  | testCurr vars curr =>
    rw [List.mem_singleton.mp member]
    exact here.2.1
  | readSucc vars curr =>
    rw [List.mem_singleton.mp member]
    exact here.2.1
  | markCurr vars curr succ =>
    rw [List.mem_singleton.mp member]
    exact here.2.1

section Destructor

variable {l : LfList} {t : Nat}

/-- One round of the destructor's loop. -/
theorem deleteNodes_round {fuel : Nat} {nodes : List Nat}
    (ran : deleteNodes l fuel (l.next t) = some nodes) :
    ¬ l.Marked t ∧ ∀ b, l.link t = some b →
      ∃ fuel nodes, deleteNodes l fuel (l.next b) = some nodes := by
  unfold LfList.Marked LfList.link
  cases fuel with
  | zero => cases ran
  | succ fuel =>
    unfold deleteNodes at ran
    split at ran
    · rename_i null
      rw [null]
      refine ⟨Bool.false_ne_true, fun b linked => ?_⟩
      cases linked
    · split at ran
      · rename_i node word
        rw [word]
        refine ⟨Bool.false_ne_true, fun b linked => ?_⟩
        cases linked
        obtain ⟨rest, ran, _⟩ := Option.map_eq_some_iff.mp ran
        exact ⟨fuel, rest, ran⟩
      · cases ran

/-- A loop that comes to its end has met no marked word. -/
theorem unmarked_of_deleteNodes {fuel : Nat} {nodes : List Nat}
    (ran : deleteNodes l fuel (l.next t) = some nodes) {a : Nat} (follows : Follows l.link t a) :
    ¬ l.Marked a := by
  have later : ∃ fuel nodes, deleteNodes l fuel (l.next a) = some nodes := by
    induction follows with
    | refl => exact ⟨fuel, nodes, ran⟩
    | tail _ linked ih =>
      obtain ⟨fuel, nodes, ran⟩ := ih
      exact (deleteNodes_round ran).2 _ linked
  obtain ⟨fuel, nodes, ran⟩ := later
  exact (deleteNodes_round ran).1

/-- Without marked words the loop deletes what is linked, in the order of the links. -/
theorem ListOk.deleteNodes {t : Nat} (ok : ListOk l)
    (unmarked : ∀ a, Follows l.link t a → ¬ l.Marked a) :
    ∃ fuel nodes, deleteNodes l fuel (l.next t) = some nodes ∧ nodes.Nodup ∧
      ∀ a, a ∈ nodes ↔ a ≠ t ∧ Follows l.link t a := by
  cases linked : l.link t with
  | none =>
    have null : l.next t = .null := by
      by_contra other
      have some := ok.linked_of_ne other
      rw [linked] at some
      cases some
    refine ⟨1, [], if_pos null, List.nodup_nil, fun a => ?_⟩
    apply iff_of_false List.not_mem_nil
    intro ⟨other, follows⟩
    cases follows.cases_head with
    | inl same => exact absurd same.symm other
    | inr first =>
      obtain ⟨b, next, _⟩ := first
      cases linked.symm.trans next
  | some b =>
    have less := (ok.skips.forward t b linked).1
    have inside := (ok.skips.forward t b linked).2
    have word : l.next t = ⟨some b, false⟩ := by
      have clear : (l.next t).mark = false := (Bool.not_eq_true _).mp (unmarked t .refl)
      rw [← clear, ← linked]
      rfl
    obtain ⟨fuel, nodes, ran, distinct, members⟩ :=
      ok.deleteNodes fun a follows => unmarked a (.head linked follows)
    have behind : ∀ a, Follows l.link b a → a ≠ t := by
      intro a follows
      exact Nat.ne_of_gt (Nat.lt_of_lt_of_le less (ok.skips.le_of_follows follows))
    refine ⟨fuel + 1, b :: nodes, ?_, ?_, fun a => ?_⟩
    · rw [word, Source.deleteNodes, if_neg (by simp [NextWord.null])]
      rw [ran]
      rfl
    · exact List.nodup_cons.mpr ⟨fun member => ((members b).mp member).1 rfl, distinct⟩
    · rw [List.mem_cons, members]
      constructor
      · rintro (rfl | ⟨_, follows⟩)
        · exact ⟨behind a .refl, .head linked .refl⟩
        · exact ⟨behind a follows, .head linked follows⟩
      · intro ⟨other, follows⟩
        cases follows.cases_head with
        | inl same => exact absurd same.symm other
        | inr first =>
          obtain ⟨c, next, rest⟩ := first
          cases linked.symm.trans next
          by_cases here : a = b
          · exact Or.inl here
          · exact Or.inr ⟨here, rest⟩
termination_by l.tail - t

end Destructor

end BurstBuffer.Source
