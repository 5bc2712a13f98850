import BurstBuffer.Invariants.LfListAlone

/-!
# A search of one thread

It comes to the first live node with its data before the tail, or to the tail, whose
data it does not look at. remove takes what search returns.
-/
namespace BurstBuffer.Source

open Library

/-- The node that a search for `data` returns. -/
structure Found (l : LfList) (data r : Nat) : Prop where
  inner : 1 ≤ r
  inside : r ≤ l.tail
  live : ¬ l.Marked r
  stops : r < l.tail → l.data r = data
  first : ∀ c, 1 ≤ c → c < r → l.Marked c ∨ l.data c ≠ data

/-- The left node still has the successor that search has read. -/
def Current (l : LfList) (vars : SearchVars) : Prop :=
  ∃ left, vars.leftNode = some left ∧ l.next left = vars.leftNodeNext

section Walk

variable {l : LfList}

theorem AloneOk.tail_live (ok : AloneOk l) : ¬ l.Marked l.tail := by
  intro marked
  exact absurd (ok.list.lt_tail (ok.list.linked _ marked)) (Nat.lt_irrefl _)

/-- The inner loop passes a node that is marked or has other data. -/
theorem AloneOk.pass {vars : SearchVars} {t : Nat} (ok : AloneOk l) (key : vars.data ≠ 0)
    (inside : t < l.tail) (place : t = LfList.head ∨ Passed l vars t ∧ Current l vars)
    (other : l.Marked t ∨ l.data t ≠ vars.data) :
    ∃ vars' b, listStep (.testData vars t (l.next t)) l = some (.testTail vars' (some b), l) ∧
      vars'.data = vars.data ∧ vars'.removing = vars.removing ∧ l.link t = some b ∧
      Passed l vars' b ∧ Current l vars' := by
  obtain ⟨b, next⟩ := Option.isSome_iff_exists.mp (ok.list.linked_of_ne (ok.noGap t inside))
  have step : listStep (.testData vars t (l.next t)) l = some (.testTail
      (if (l.next t).mark then vars else { vars with leftNode := some t, leftNodeNext := l.next t })
      (some b), l) := by
    have word : (l.next t).ref = some b := next
    unfold listStep
    refine (if_pos other).trans ?_
    rw [word]
  have here : (ListPc.testData vars t (l.next t)).Ok l :=
    ⟨key, Nat.le_of_lt inside, place.imp_right And.left, fun _ => rfl,
      fun c link => ok.list.skips.forward t c link⟩
  have after := testData_ok ok.list here step
  refine ⟨_, b, step, ?_, ?_, next, (after.2 b rfl).2, ?_⟩
  · split <;> rfl
  · split <;> rfl
  · split
    · rename_i marked
      rcases place with rfl | ⟨_, current⟩
      · exact absurd marked ok.list.headKept
      · exact current
    · exact ⟨t, rfl, rfl⟩

/-- The walk of the inner loop from a node before the tail on. -/
theorem AloneOk.walk {vars : SearchVars} {t : Nat} (ok : AloneOk l) (key : vars.data ≠ 0)
    (inside : t < l.tail) (place : t = LfList.head ∨ Passed l vars t ∧ Current l vars)
    (before : ∀ c, 1 ≤ c → c < t → l.Marked c ∨ l.data c ≠ vars.data) :
    ∃ vars' r, LeadsTo (.testData vars t (l.next t), l) (vars'.afterLoop (some r), l) ∧
      vars'.data = vars.data ∧ vars'.removing = vars.removing ∧ Found l vars.data r ∧
      Passed l vars' r ∧ Current l vars' := by
  by_cases other : l.Marked t ∨ l.data t ≠ vars.data
  · obtain ⟨vars', b, step, data, removing, next, passed, current⟩ := ok.pass key inside place other
    obtain ⟨less, bounded⟩ := ok.list.skips.forward t b next
    have until_b : ∀ c, 1 ≤ c → c < b → l.Marked c ∨ l.data c ≠ vars.data := by
      intro c low high
      rcases Nat.lt_trichotomy c t with early | same | late
      · exact before c low early
      · subst c
        exact other
      · exact Or.inl (ok.list.skips.jumps t b c next late high)
    rcases Nat.eq_or_lt_of_le bounded with last | more
    · have tested : listStep (.testTail vars' (some b)) l = some (vars'.afterLoop (some b), l) := by
        rw [listStep]
        exact if_pos last
      refine ⟨vars', b, .head step (.head tested .refl), data, removing, ?_, passed, current⟩
      refine ⟨Nat.one_le_of_lt less, bounded, ?_, ?_, until_b⟩
      · rw [last]
        exact ok.tail_live
      · intro short
        exact absurd last (Nat.ne_of_lt short)
    · have tested : listStep (.testTail vars' (some b)) l = some (.readNext vars' b, l) := by
        rw [listStep]
        exact if_neg (Nat.ne_of_lt more)
      have key' : vars'.data ≠ 0 := by rwa [data]
      have until_b' : ∀ c, 1 ≤ c → c < b → l.Marked c ∨ l.data c ≠ vars'.data := by rwa [data]
      obtain ⟨vars'', r, leads, data', removing', found, rest⟩ :=
        ok.walk key' more (Or.inr ⟨passed, current⟩) until_b'
      refine ⟨vars'', r, .head step (.head tested (.head rfl leads)), data'.trans data,
        removing'.trans removing, ?_, rest⟩
      rwa [data] at found
  · have live : ¬ l.Marked t := fun marked => other (Or.inl marked)
    have same : l.data t = vars.data := by
      by_contra different
      exact other (Or.inr different)
    have step : listStep (.testData vars t (l.next t)) l = some (vars.afterLoop (some t), l) := by
      rw [listStep]
      exact if_neg other
    rcases place with rfl | ⟨passed, current⟩
    · exact absurd (same.symm.trans ok.list.headData) key
    · have inner : 1 ≤ t := by
        obtain ⟨_, _, _, _, less, order, _⟩ := passed
        exact Nat.le_trans (Nat.one_le_of_lt less) order
      exact ⟨vars, t, .head step .refl, rfl, rfl,
        ⟨inner, Nat.le_of_lt inside, live, fun _ => same, before⟩, passed, current⟩
termination_by l.tail - t

end Walk

/-- A list with the same nodes and marks, some of them perhaps unlinked. -/
structure SameMarks (l l' : LfList) : Prop where
  data : l'.data = l.data
  tail : l'.tail = l.tail
  count : l'.count = l.count
  marked : ∀ a, l'.Marked a ↔ l.Marked a

section Search

variable {l : LfList} {vars : SearchVars}

/-- A search returns the node it has found, with its `next` word as it was. -/
theorem AloneOk.search (ok : AloneOk l) (key : vars.data ≠ 0) (nonempty : 0 < l.tail) :
    ∃ (vars' : SearchVars) (r : Nat) (l' : LfList),
      LeadsTo (.readHead vars, l) (vars'.return r, l') ∧ vars'.data = vars.data ∧
      vars'.removing = vars.removing ∧ Found l vars.data r ∧ SameMarks l l' ∧
      l'.next r = l.next r := by
  have nothing : ∀ c, 1 ≤ c → c < LfList.head → l.Marked c ∨ l.data c ≠ vars.data := by
    intro c _ high
    exact absurd high (Nat.not_lt_of_le (Nat.zero_le c))
  obtain ⟨vars', r, leads, data, removing, found, passed, current⟩ :=
    ok.walk key nonempty (Or.inl rfl) nothing
  have unmarked : (l.next r).mark = false := (Bool.not_eq_true _).mp found.live
  have start : LeadsTo (.readHead vars, l) (vars'.afterLoop (some r), l) := .head rfl leads
  by_cases adjacent : vars'.leftNodeNext = .ofNode r
  · have tested : listStep (.testRight vars' r) l = some (vars'.return r, l) := by
      rw [listStep, unmarked]
      rfl
    have after : vars'.afterLoop (some r) = .testRight vars' r := if_pos adjacent
    rw [after] at start
    exact ⟨vars', r, l, start.tail tested, data, removing, found,
      ⟨rfl, rfl, rfl, fun _ => Iff.rfl⟩, rfl⟩
  · obtain ⟨left, next, leftNode, leftNodeNext, less, order, _⟩ := passed
    obtain ⟨left', leftNode', same⟩ := current
    cases leftNode.symm.trans leftNode'
    have apart : r ≠ left := Nat.ne_of_gt (Nat.lt_of_lt_of_le less order)
    have kept : (l.setNext left (.ofNode r)).next r = l.next r := by
      rw [LfList.setNext_next, Function.update_of_ne apart]
    have swapped : listStep (.swapLeft vars' r) l =
        some (.testRight vars' r, l.setNext left (.ofNode r)) := by
      rw [listStep, leftNode]
      exact if_pos same
    have tested : listStep (.testRight vars' r) (l.setNext left (.ofNode r)) =
        some (vars'.return r, l.setNext left (.ofNode r)) := by
      rw [listStep, kept, unmarked]
      rfl
    have after : vars'.afterLoop (some r) = .swapLeft vars' r := if_neg adjacent
    rw [after] at start
    refine ⟨vars', r, _, (start.tail swapped).tail tested, data, removing, found,
      ⟨rfl, rfl, rfl, fun a => ?_⟩, kept⟩
    have before : ¬ l.Marked left := unmarked_of_next (same.trans leftNodeNext) rfl
    rw [marked_setNext]
    split
    · rename_i here
      subst a
      exact iff_of_false Bool.false_ne_true before
    · exact Iff.rfl

end Search

end BurstBuffer.Source
