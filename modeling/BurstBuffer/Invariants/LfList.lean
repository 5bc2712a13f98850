import BurstBuffer.Library.SkipChain
import BurstBuffer.Source.LfList

/-!
# The nodes of lflist

A `next` pointer goes forward in the order of the tail swaps, and only over marked
nodes. A marked `next` word is never written again, and a null one only by the append
that links it.
-/
namespace BurstBuffer.Source

open Library

namespace LfList

def link (l : LfList) (a : Nat) : Option Nat := (l.next a).ref

def Marked (l : LfList) (a : Nat) : Prop := (l.next a).mark = true

instance (l : LfList) (a : Nat) : Decidable (l.Marked a) :=
  inferInstanceAs (Decidable ((l.next a).mark = true))

end LfList

structure ListOk (l : LfList) : Prop where
  skips : Skips l.link l.Marked l.tail
  linked : ∀ a, l.Marked a → (l.link a).isSome
  headKept : ¬ l.Marked LfList.head
  headData : l.data LfList.head = 0

/-- What search has passed: everything from the successor of its left node up to `node`
is marked. -/
def Passed (l : LfList) (vars : SearchVars) (node : Nat) : Prop :=
  ∃ left next, vars.leftNode = some left ∧ vars.leftNodeNext = .ofNode next ∧ left < next ∧
    next ≤ node ∧ ∀ c, next ≤ c → c < node → l.Marked c

/-- What the place of a thread says about the list. -/
def ListPc.Ok (l : LfList) : ListPc → Prop
  | .ready _ => True
  | .swapTail _ => True
  | .linkOld old node => node = old + 1 ∧ old < l.tail ∧ l.next old = .null
  | .addCount node => node ≤ l.tail
  | .readHead vars => vars.data ≠ 0
  | .testData vars t tNext => vars.data ≠ 0 ∧ t ≤ l.tail ∧ (t = LfList.head ∨ Passed l vars t) ∧
      (tNext.mark = true → l.next t = tNext) ∧ ∀ b, tNext.ref = some b → t < b ∧ b ≤ l.tail
  | .testTail vars t => vars.data ≠ 0 ∧ ∀ b, t = some b → b ≤ l.tail ∧ Passed l vars b
  | .readNext vars t => vars.data ≠ 0 ∧ t ≤ l.tail ∧ Passed l vars t
  | .swapLeft vars rightNode => vars.data ≠ 0 ∧ rightNode ≤ l.tail ∧ Passed l vars rightNode
  | .testRight vars rightNode => vars.data ≠ 0 ∧ rightNode ≤ l.tail
  | .testFound vars curr => vars.data ≠ 0 ∧ curr ≤ l.tail
  | .testCurr vars curr => vars.data ≠ 0 ∧ curr ≤ l.tail ∧ (l.link curr).isSome
  | .readSucc vars curr =>
    vars.data ≠ 0 ∧ curr ≤ l.tail ∧ (l.link curr).isSome ∧ l.data curr = vars.data
  | .markCurr vars curr succ =>
    vars.data ≠ 0 ∧ curr ≤ l.tail ∧ succ.ref.isSome ∧ succ.mark = false ∧ l.data curr = vars.data
  | .subCount curr => l.Marked curr
  | .fault => False

/-- The node that a call of append has put into the list and not yet counted. -/
def ListPc.appending : ListPc → List Nat
  | .linkOld _ node => [node]
  | pc => pc.appends

/-- Everything a step can do. -/
inductive ListEffect (l : LfList) : ListPc → ListPc → LfList → Prop where
  | quiet {pc pc' : ListPc} : pc.appending = [] → pc.removes = [] → pc'.appending = [] →
      pc'.removes = [] → ListEffect l pc pc' l
  | swap (data : Nat) :
      ListEffect l (.swapTail data) (.linkOld l.tail (l.tail + 1)) (l.setTail data)
  | link (old : Nat) : old < l.tail → l.next old = .null →
      ListEffect l (.linkOld old (old + 1)) (.addCount (old + 1))
        (l.setNext old (.ofNode (old + 1)))
  | append (node : Nat) : ListEffect l (.addCount node) (.ready .done)
      (l.setCount ((l.count + 1) % 2 ^ 64))
  | unlink (vars : SearchVars) (left next rightNode : Nat) : l.next left = .ofNode next →
      left < next → next ≤ rightNode → rightNode ≤ l.tail →
      (∀ c, next ≤ c → c < rightNode → l.Marked c) →
      ListEffect l (.swapLeft vars rightNode) (.testRight vars rightNode)
        (l.setNext left (.ofNode rightNode))
  | mark (vars : SearchVars) (curr : Nat) (succ : NextWord) : l.next curr = succ →
      succ.ref.isSome → succ.mark = false → curr ≠ LfList.head →
      ListEffect l (.markCurr vars curr succ) (.subCount curr) (l.setNext curr succ.setMark)
  | remove (curr : Nat) : ListEffect l (.subCount curr) (.ready (.code 1))
      (l.setCount ((l.count + 2 ^ 64 - 1) % 2 ^ 64))

section Memory

variable {l l' : LfList} {pc pc' : ListPc} {vars : SearchVars}

theorem ListPc.appends_of_appending (none : pc.appending = []) : pc.appends = [] := by
  cases pc with
  | linkOld old node => cases none
  | addCount node => cases none
  | _ => rfl

theorem afterLoop_quiet (vars : SearchVars) (t : Option Nat) :
    (vars.afterLoop t).appending = [] ∧ (vars.afterLoop t).removes = [] := by
  unfold SearchVars.afterLoop
  split
  · exact ⟨rfl, rfl⟩
  · split <;> exact ⟨rfl, rfl⟩

theorem return_quiet (vars : SearchVars) (rightNode : Nat) :
    (vars.return rightNode).appending = [] ∧ (vars.return rightNode).removes = [] := by
  unfold SearchVars.return
  split <;> exact ⟨rfl, rfl⟩

theorem listStep_effect (ok : ListOk l) (here : pc.Ok l) (step : listStep pc l = some (pc', l')) :
    ListEffect l pc pc' l' := by
  unfold listStep at step
  cases pc with
  | ready reply => cases step
  | fault => cases step
  | swapTail data =>
    cases step
    exact .swap data
  | linkOld old node =>
    cases step
    obtain ⟨rfl, inside, unlinked⟩ := here
    exact .link old inside unlinked
  | addCount node =>
    cases step
    exact .append node
  | readHead vars =>
    cases step
    exact .quiet rfl rfl rfl rfl
  | testData vars t tNext =>
    dsimp only at step
    split at step
    · cases step
      exact .quiet rfl rfl rfl rfl
    · cases step
      exact .quiet rfl rfl (afterLoop_quiet _ _).1 (afterLoop_quiet _ _).2
  | testTail vars t =>
    cases t with
    | none =>
      cases step
      exact .quiet rfl rfl (afterLoop_quiet _ _).1 (afterLoop_quiet _ _).2
    | some node =>
      dsimp only at step
      split at step
      · cases step
        exact .quiet rfl rfl (afterLoop_quiet _ _).1 (afterLoop_quiet _ _).2
      · cases step
        exact .quiet rfl rfl rfl rfl
  | readNext vars t =>
    cases step
    exact .quiet rfl rfl rfl rfl
  | swapLeft vars rightNode =>
    obtain ⟨_, inside, left, next, leftNode, leftNodeNext, less, order, passed⟩ := here
    dsimp only at step
    rw [leftNode, leftNodeNext] at step
    dsimp only at step
    split at step
    · rename_i same
      cases step
      exact .unlink vars left next rightNode same less order inside passed
    · cases step
      exact .quiet rfl rfl rfl rfl
  | testRight vars rightNode =>
    dsimp only at step
    split at step
    · cases step
      exact .quiet rfl rfl rfl rfl
    · cases step
      exact .quiet rfl rfl (return_quiet _ _).1 (return_quiet _ _).2
  | testFound vars curr =>
    dsimp only at step
    split at step <;> cases step <;> exact .quiet rfl rfl rfl rfl
  | testCurr vars curr =>
    dsimp only at step
    split at step <;> cases step <;> exact .quiet rfl rfl rfl rfl
  | readSucc vars curr =>
    dsimp only at step
    split at step <;> cases step <;> exact .quiet rfl rfl rfl rfl
  | markCurr vars curr succ =>
    obtain ⟨key, _, some, unmarked, same⟩ := here
    dsimp only at step
    split at step
    · rename_i unchanged
      cases step
      refine .mark vars curr succ unchanged some unmarked ?_
      intro head
      subst head
      exact key (same.symm.trans ok.headData)
    · cases step
      exact .quiet rfl rfl rfl rfl
  | subCount curr =>
    cases step
    exact .remove curr

/-- What every step keeps. -/
structure Grows (l l' : LfList) : Prop where
  tail : l.tail ≤ l'.tail
  data : ∀ a ≤ l.tail, l'.data a = l.data a
  frozen : ∀ a, l.Marked a → l'.next a = l.next a
  linked : ∀ a, (l.link a).isSome → (l'.link a).isSome

theorem Grows.refl (l : LfList) : Grows l l :=
  ⟨Nat.le_refl _, fun _ _ => rfl, fun _ _ => rfl, fun _ linked => linked⟩

theorem Grows.marked (grows : Grows l l') {a : Nat} (marked : l.Marked a) : l'.Marked a := by
  unfold LfList.Marked
  rw [grows.frozen a marked]
  exact marked

/-- A `next` word that is not null has a pointer. -/
theorem ListOk.linked_of_ne (ok : ListOk l) {a : Nat} (other : l.next a ≠ .null) :
    (l.link a).isSome := by
  cases linked : l.link a with
  | some b => rfl
  | none =>
    have unmarked : ¬ l.Marked a := by
      intro marked
      have some := ok.linked a marked
      rw [linked] at some
      cases some
    apply absurd _ other
    cases word : l.next a with
    | mk ref mark =>
      rw [LfList.link, word] at linked
      rw [LfList.Marked, word] at unmarked
      dsimp only at linked unmarked
      rw [linked, (Bool.not_eq_true mark).mp unmarked]
      rfl

theorem ListOk.lt_tail (ok : ListOk l) {a : Nat} (linked : (l.link a).isSome) : a < l.tail := by
  obtain ⟨b, next⟩ := Option.isSome_iff_exists.mp linked
  obtain ⟨less, inside⟩ := ok.skips.forward a b next
  exact Nat.lt_of_lt_of_le less inside

/-- Nothing is linked behind the tail. -/
theorem ListOk.null_of_tail_le (ok : ListOk l) {a : Nat} (behind : l.tail ≤ a) :
    l.next a = .null := by
  by_contra linked
  exact absurd (ok.lt_tail (ok.linked_of_ne linked)) (Nat.not_lt_of_le behind)

/-- A marked node is behind the head and not behind the tail. -/
theorem ListOk.inner_of_marked (ok : ListOk l) {a : Nat} (marked : l.Marked a) :
    1 ≤ a ∧ a ≤ l.tail := by
  have inside := ok.lt_tail (ok.linked a marked)
  have inner : a ≠ LfList.head := by
    intro same
    subst same
    exact ok.headKept marked
  exact ⟨Nat.pos_of_ne_zero inner, Nat.le_of_lt inside⟩

theorem next_setNext {a b : Nat} (other : b ≠ a) (word : NextWord) :
    (l.setNext a word).next b = l.next b := by
  rw [LfList.setNext_next, Function.update_of_ne other]

/-- A store of a pointer leaves no null where it is. -/
theorem ne_of_setNext_null {a b : Nat} {word : NextWord} (some : word.ref.isSome)
    (null : (l.setNext a word).next b = .null) : b ≠ a := by
  intro same
  subst same
  rw [LfList.setNext_next, Function.update_self] at null
  rw [null] at some
  cases some

/-- The links after a store. -/
theorem link_setNext (l : LfList) (a : Nat) (word : NextWord) :
    (l.setNext a word).link = Function.update l.link a word.ref := by
  funext b
  rw [LfList.link, LfList.setNext_next]
  by_cases here : b = a
  · subst b
    rw [Function.update_self, Function.update_self]
  · rw [Function.update_of_ne here, Function.update_of_ne here]
    rfl

theorem link_setMark {a : Nat} {word : NextWord} (here : l.next a = word) :
    (l.setNext a word.setMark).link = l.link := by
  rw [link_setNext, NextWord.setMark, ← here]
  exact Function.update_eq_self a l.link

theorem marked_setNext {a b : Nat} {word : NextWord} :
    (l.setNext a word).Marked b ↔ if b = a then word.mark = true else l.Marked b := by
  rw [LfList.Marked, LfList.setNext_next]
  by_cases here : b = a
  · subst b
    rw [Function.update_self, if_pos rfl]
  · rw [Function.update_of_ne here, if_neg here]
    rfl

/-- A store to an unmarked `next` word that does not take the pointer away. -/
theorem grows_setNext {a : Nat} {word : NextWord} (unmarked : ¬ l.Marked a)
    (some : word.ref.isSome) : Grows l (l.setNext a word) := by
  constructor
  · exact Nat.le_refl _
  · intro b _
    rfl
  · intro b marked
    have other : b ≠ a := by
      intro same
      subst same
      exact unmarked marked
    exact next_setNext other word
  · intro b linked
    rw [link_setNext]
    by_cases here : b = a
    · subst b
      rw [Function.update_self]
      exact some
    · rw [Function.update_of_ne here]
      exact linked

theorem link_setCount (l : LfList) (count : Nat) : (l.setCount count).link = l.link := rfl

theorem grows_setCount (l : LfList) (count : Nat) : Grows l (l.setCount count) :=
  ⟨Nat.le_refl _, fun _ _ => rfl, fun _ _ => rfl, fun _ linked => linked⟩

/-- A new tail has no links yet. -/
theorem ListOk.setTail_next (ok : ListOk l) (data : Nat) : (l.setTail data).next = l.next := by
  rw [LfList.setTail_next, ← ok.null_of_tail_le (Nat.le_succ l.tail), Function.update_eq_self]

theorem ListOk.grows_setTail (ok : ListOk l) (data : Nat) : Grows l (l.setTail data) := by
  have same := ok.setTail_next data
  constructor
  · exact Nat.le_succ _
  · intro a inside
    rw [LfList.setTail_data, Function.update_of_ne (Nat.ne_of_lt (Nat.lt_succ_of_le inside))]
  · intro a _
    rw [same]
  · intro a linked
    rw [LfList.link, same]
    exact linked

theorem unmarked_of_next {a : Nat} {word : NextWord} (here : l.next a = word)
    (unmarked : word.mark = false) : ¬ l.Marked a := by
  rw [LfList.Marked, here, unmarked]
  exact Bool.false_ne_true

theorem ListEffect.grows (effect : ListEffect l pc pc' l') (ok : ListOk l) : Grows l l' := by
  cases effect with
  | quiet => exact .refl l
  | append => exact grows_setCount l _
  | remove => exact grows_setCount l _
  | swap data => exact ok.grows_setTail data
  | link old _ unlinked => exact grows_setNext (unmarked_of_next unlinked rfl) rfl
  | unlink vars left next rightNode linked =>
    exact grows_setNext (unmarked_of_next linked rfl) rfl
  | mark vars curr succ linked some unmarked =>
    exact grows_setNext (unmarked_of_next linked unmarked) some

/-- The links a step leaves. -/
theorem ListEffect.skips (effect : ListEffect l pc pc' l') (ok : ListOk l) :
    Skips l'.link l'.Marked l'.tail := by
  have grows := effect.grows ok
  have more : Skips l.link l'.Marked l'.tail :=
    ok.skips.mono (fun _ marked => grows.marked marked) grows.tail
  cases effect with
  | quiet => exact more
  | append =>
    rw [link_setCount]
    exact more
  | remove =>
    rw [link_setCount]
    exact more
  | swap data =>
    have same : (l.setTail data).link = l.link := by
      funext a
      rw [LfList.link, ok.setTail_next]
      rfl
    rw [same]
    exact more
  | link old inside unlinked =>
    rw [link_setNext]
    exact more.update (Nat.lt_succ_self old) inside fun c low high =>
      absurd low (Nat.not_lt_of_le (Nat.le_of_lt_succ high))
  | unlink vars left next rightNode linked less order inside passed =>
    rw [link_setNext]
    refine more.update (Nat.lt_of_lt_of_le less order) inside fun c low high => ?_
    rcases Nat.lt_or_ge c next with before | behind
    · exact grows.marked (ok.skips.jumps left next c (by rw [LfList.link, linked]; rfl) low before)
    · exact grows.marked (passed c behind high)
  | mark vars curr succ linked =>
    rw [link_setMark linked]
    exact more

/-- The nodes that are marked after a step. -/
theorem ListEffect.marked_iff (effect : ListEffect l pc pc' l') (ok : ListOk l) (a : Nat) :
    l'.Marked a ↔ l.Marked a ∨ a ∈ pc'.removes := by
  cases effect with
  | quiet _ _ _ none =>
    rw [none]
    simp
  | append => simp [LfList.Marked, ListPc.removes]
  | remove => simp [LfList.Marked, ListPc.removes]
  | swap data =>
    rw [LfList.Marked, ok.setTail_next]
    simp [LfList.Marked, ListPc.removes]
  | link old inside unlinked =>
    have before := unmarked_of_next unlinked rfl
    rw [marked_setNext]
    split
    · rename_i here
      subst a
      simp [ListPc.removes, NextWord.ofNode, before]
    · simp [ListPc.removes]
  | unlink vars left next rightNode linked =>
    have before := unmarked_of_next linked rfl
    rw [marked_setNext]
    split
    · rename_i here
      subst a
      simp [ListPc.removes, NextWord.ofNode, before]
    · simp [ListPc.removes]
  | mark vars curr succ linked some unmarked inner =>
    rw [marked_setNext]
    split
    · rename_i here
      subst a
      simp [ListPc.removes, NextWord.setMark]
    · rename_i other
      simp [ListPc.removes, other]

theorem ListEffect.listOk (effect : ListEffect l pc pc' l') (ok : ListOk l) : ListOk l' := by
  have grows := effect.grows ok
  have marked := effect.marked_iff ok
  have inner : ∀ a, a ∈ pc'.removes → a ≠ LfList.head ∧ (l'.link a).isSome := by
    intro a member
    cases effect with
    | quiet _ _ _ none =>
      rw [none] at member
      cases member
    | append => cases member
    | remove => cases member
    | swap => cases member
    | link => cases member
    | unlink => cases member
    | mark vars curr succ linked some unmarked inner =>
      have here : a = curr := List.mem_singleton.mp member
      rw [here]
      refine ⟨inner, grows.linked curr ?_⟩
      rw [LfList.link, linked]
      exact some
  constructor
  · exact effect.skips ok
  · intro a here
    rcases (marked a).mp here with before | removed
    · exact grows.linked a (ok.linked a before)
    · exact (inner a removed).2
  · intro head
    rcases (marked LfList.head).mp head with before | removed
    · exact ok.headKept before
    · exact (inner _ removed).1 rfl
  · exact (grows.data LfList.head (Nat.zero_le _)).trans ok.headData

theorem Passed.mono (grows : Grows l l') {node : Nat} (passed : Passed l vars node) :
    Passed l' vars node := by
  obtain ⟨left, next, leftNode, leftNodeNext, less, order, marked⟩ := passed
  exact ⟨left, next, leftNode, leftNodeNext, less, order,
    fun c low high => grows.marked (marked c low high)⟩

/-- A step of another thread leaves the place of a thread in order. -/
theorem ListPc.Ok.mono (here : pc.Ok l) (grows : Grows l l')
    (pending : ∀ old node, pc = .linkOld old node → l'.next old = .null) : pc.Ok l' := by
  cases pc with
  | ready reply => trivial
  | swapTail data => trivial
  | linkOld old node =>
    obtain ⟨next, inside, _⟩ := here
    exact ⟨next, Nat.lt_of_lt_of_le inside grows.tail, pending old node rfl⟩
  | addCount node => exact Nat.le_trans here grows.tail
  | readHead vars => exact here
  | testData vars t tNext =>
    obtain ⟨key, inside, place, marked, forward⟩ := here
    refine ⟨key, Nat.le_trans inside grows.tail, place.imp_right (.mono grows), ?_, ?_⟩
    · intro mark
      have same := marked mark
      have frozen : l.Marked t := by
        rw [LfList.Marked, same]
        exact mark
      exact (grows.frozen t frozen).trans same
    · intro b next
      exact ⟨(forward b next).1, Nat.le_trans (forward b next).2 grows.tail⟩
  | testTail vars t =>
    obtain ⟨key, passed⟩ := here
    refine ⟨key, fun b next => ?_⟩
    exact ⟨Nat.le_trans (passed b next).1 grows.tail, (passed b next).2.mono grows⟩
  | readNext vars t =>
    obtain ⟨key, inside, passed⟩ := here
    exact ⟨key, Nat.le_trans inside grows.tail, passed.mono grows⟩
  | swapLeft vars rightNode =>
    obtain ⟨key, inside, passed⟩ := here
    exact ⟨key, Nat.le_trans inside grows.tail, passed.mono grows⟩
  | testRight vars rightNode => exact ⟨here.1, Nat.le_trans here.2 grows.tail⟩
  | testFound vars curr => exact ⟨here.1, Nat.le_trans here.2 grows.tail⟩
  | testCurr vars curr =>
    obtain ⟨key, inside, linked⟩ := here
    exact ⟨key, Nat.le_trans inside grows.tail, grows.linked curr linked⟩
  | readSucc vars curr =>
    obtain ⟨key, inside, linked, data⟩ := here
    exact ⟨key, Nat.le_trans inside grows.tail, grows.linked curr linked,
      (grows.data curr inside).trans data⟩
  | markCurr vars curr succ =>
    obtain ⟨key, inside, some, unmarked, data⟩ := here
    exact ⟨key, Nat.le_trans inside grows.tail, some, unmarked,
      (grows.data curr inside).trans data⟩
  | subCount curr => exact grows.marked here
  | fault => exact here

/-- Going on from a marked node keeps the nodes behind the left one marked. -/
theorem Passed.next {t b : Nat} (passed : Passed l vars t) (ok : ListOk l)
    (marked : l.Marked t) (next : l.link t = some b) : Passed l vars b := by
  obtain ⟨left, first, leftNode, leftNodeNext, less, order, behind⟩ := passed
  have forward := (ok.skips.forward t b next).1
  refine ⟨left, first, leftNode, leftNodeNext, less, Nat.le_trans order (Nat.le_of_lt forward), ?_⟩
  intro c low high
  rcases Nat.lt_trichotomy c t with before | same | after
  · exact behind c low before
  · subst c
    exact marked
  · exact ok.skips.jumps t b c next after high

theorem afterLoop_ok (key : vars.data ≠ 0) {t : Option Nat}
    (passed : ∀ b, t = some b → b ≤ l.tail ∧ Passed l vars b) : (vars.afterLoop t).Ok l := by
  unfold SearchVars.afterLoop
  split
  · exact key
  · rename_i rightNode
    obtain ⟨inside, right⟩ := passed rightNode rfl
    split
    · exact ⟨key, inside⟩
    · exact ⟨key, inside, right⟩

/-- The inner loop goes on from a node. -/
theorem testData_ok (ok : ListOk l) {t : Nat} {tNext : NextWord}
    (here : (ListPc.testData vars t tNext).Ok l)
    (step : listStep (.testData vars t tNext) l = some (pc', l')) : pc'.Ok l' := by
  obtain ⟨key, inside, place, marked, forward⟩ := here
  simp only [listStep] at step
  split at step
  · cases step
    cases mark : tNext.mark with
    | true =>
      have same := marked mark
      have frozen : l.Marked t := by
        rw [LfList.Marked, same]
        exact mark
      have passed : Passed l vars t := by
        rcases place with rfl | passed
        · exact absurd frozen ok.headKept
        · exact passed
      refine ⟨key, fun b next => ⟨(forward b next).2, ?_⟩⟩
      exact passed.next ok frozen (by rw [LfList.link, same]; exact next)
    | false =>
      refine ⟨key, fun b next => ⟨(forward b next).2, t, b, rfl, ?_, (forward b next).1,
        Nat.le_refl b, fun c low high => absurd high (Nat.not_lt_of_le low)⟩⟩
      cases tNext
      cases mark
      cases next
      rfl
  · rename_i stop
    cases step
    have data : l.data t = vars.data := by
      by_contra other
      exact stop (Or.inr other)
    have passed : Passed l vars t := by
      rcases place with rfl | passed
      · exact absurd (data.symm.trans ok.headData) key
      · exact passed
    refine afterLoop_ok key fun b same => ?_
    cases same
    exact ⟨inside, passed⟩

/-- A step leaves the place of its thread in order. -/
theorem listStep_ok (ok : ListOk l) (here : pc.Ok l) (step : listStep pc l = some (pc', l')) :
    pc'.Ok l' := by
  cases pc with
  | ready reply => cases step
  | fault => cases step
  | swapTail data =>
    cases step
    refine ⟨rfl, Nat.lt_succ_self _, ?_⟩
    rw [ok.setTail_next]
    exact ok.null_of_tail_le (Nat.le_refl _)
  | linkOld old node =>
    cases step
    obtain ⟨rfl, inside, _⟩ := here
    exact inside
  | addCount node =>
    cases step
    trivial
  | readHead vars =>
    cases step
    refine ⟨here, Nat.zero_le _, Or.inl rfl, fun _ => rfl, fun b next => ?_⟩
    exact ok.skips.forward LfList.head b next
  | testData vars t tNext => exact testData_ok ok here step
  | testTail vars t =>
    cases t with
    | none =>
      cases step
      exact here.1
    | some node =>
      obtain ⟨key, passed⟩ := here
      simp only [listStep] at step
      split at step
      · cases step
        exact afterLoop_ok key passed
      · cases step
        obtain ⟨inside, right⟩ := passed node rfl
        exact ⟨key, inside, right⟩
  | readNext vars t =>
    cases step
    obtain ⟨key, inside, passed⟩ := here
    exact ⟨key, inside, Or.inr passed, fun _ => rfl, fun b next => ok.skips.forward t b next⟩
  | swapLeft vars rightNode =>
    obtain ⟨key, inside, left, next, leftNode, leftNodeNext, less, order, passed⟩ := here
    simp only [listStep, leftNode] at step
    split at step
    · cases step
      exact ⟨key, inside⟩
    · cases step
      exact key
  | testRight vars rightNode =>
    simp only [listStep] at step
    split at step
    · cases step
      exact here.1
    · cases step
      unfold SearchVars.return
      split
      · exact here
      · trivial
  | testFound vars curr =>
    simp only [listStep] at step
    split at step
    · cases step
      trivial
    · rename_i linked
      cases step
      exact ⟨here.1, here.2, ok.linked_of_ne linked⟩
  | testCurr vars curr =>
    simp only [listStep] at step
    split at step
    · cases step
      trivial
    · rename_i same
      cases step
      obtain ⟨key, inside, linked⟩ := here
      exact ⟨key, inside, linked, not_not.mp same⟩
  | readSucc vars curr =>
    obtain ⟨key, inside, linked, data⟩ := here
    simp only [listStep] at step
    split at step
    · cases step
      exact key
    · rename_i unmarked
      cases step
      exact ⟨key, inside, linked, by simpa using unmarked, data⟩
  | markCurr vars curr succ =>
    simp only [listStep] at step
    split at step
    · cases step
      rw [ListPc.Ok, marked_setNext, if_pos rfl]
      rfl
    · cases step
      exact here.1
  | subCount curr =>
    cases step
    trivial

end Memory

end BurstBuffer.Source
