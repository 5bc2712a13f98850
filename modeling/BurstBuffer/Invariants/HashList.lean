import BurstBuffer.Library.LinkedList
import BurstBuffer.Source.HashList
import BurstBuffer.Invariants.NodeEffects

/-!
# A list of hash nodes is a sequence

Behind a call the nodes of the list are linked in both directions, in the order of the
sequence that the call describes. What a node is linked to while it is in no list does not
matter, because push_back_list_node stores both links.
-/
namespace BurstBuffer.Source

open Library

variable {N : Nat}

section Sequence

/-- What the list is for: a sequence without repetitions, and what has been taken from its
front. -/
structure SequenceState where
  items : List NodePtr
  popped : List (Option NodePtr)

/-- A node is pushed if it is not in the sequence, and removed if it is. -/
def sequenceNext (s : SequenceState) : HashListCall → Option SequenceState
  | .pushBack node =>
    if node ∈ s.items then none else some { s with items := s.items ++ [node] }
  | .popFront => some ⟨s.items.tail, s.popped ++ [s.items.head?]⟩
  | .remove node => if node ∈ s.items then some { s with items := s.items.erase node } else none

def sequenceMachine : Machine SequenceState HashListCall where
  init s := s.items = [] ∧ s.popped = []
  next := sequenceNext

end Sequence

/-- What a node says of its block, without its links. -/
def payload (node : HashNode N) : Option (InodeIdx N) × Nat × Bool × Bool :=
  (node.inode, node.lbn, node.isValid, node.mutex)

section Stores

variable (nodes : NodePtr → HashNode N) (node c : NodePtr) (pointer : Option NodePtr)

@[simp] theorem storeNext_next : (storeNext nodes node pointer c).next =
    if c = node then pointer else (nodes c).next := by
  unfold storeNext
  by_cases here : c = node <;> simp [here]

@[simp] theorem storeNext_prev : (storeNext nodes node pointer c).prev = (nodes c).prev := by
  unfold storeNext
  by_cases here : c = node <;> simp [here]

@[simp] theorem storePrev_prev : (storePrev nodes node pointer c).prev =
    if c = node then pointer else (nodes c).prev := by
  unfold storePrev
  by_cases here : c = node <;> simp [here]

@[simp] theorem storePrev_next : (storePrev nodes node pointer c).next = (nodes c).next := by
  unfold storePrev
  by_cases here : c = node <;> simp [here]

@[simp] theorem storeNext_payload :
    payload (storeNext nodes node pointer c) = payload (nodes c) := by
  unfold storeNext payload
  by_cases here : c = node <;> simp [here]

@[simp] theorem storePrev_payload :
    payload (storePrev nodes node pointer c) = payload (nodes c) := by
  unfold storePrev payload
  by_cases here : c = node <;> simp [here]

end Stores

/-- The list holds the nodes `l`, in this order and each of them once. -/
structure ListHolds (nodes : NodePtr → HashNode N) (list : HashNodeList) (l : List NodePtr) :
    Prop where
  linked : Linked (fun p => (nodes p).next) (fun p => (nodes p).prev) list.head list.tail l
  distinct : l.Nodup
  count : list.count = l.length

/-- What taking a node out of the middle of the list does: its neighbours get its links. -/
structure TakenOut (nodes nodes' : NodePtr → HashNode N) (list list' : HashNodeList)
    (front back : List NodePtr) : Prop where
  next : ∀ c, (nodes' c).next =
    if front.getLast? = some c then back.head? else (nodes c).next
  prev : ∀ c, (nodes' c).prev =
    if back.head? = some c then front.getLast? else (nodes c).prev
  list : list' = { head := (front ++ back).head?, tail := (front ++ back).getLast?
                   count := countDown list.count }

namespace ListHolds

variable {nodes nodes' : NodePtr → HashNode N} {list list' : HashNodeList}
  {l front back : List NodePtr} {node : NodePtr}

theorem new (nodes : NodePtr → HashNode N) : ListHolds nodes newList [] where
  linked := .nil
  distinct := List.nodup_nil
  count := rfl

theorem pushBack (holds : ListHolds nodes list l) (fresh : node ∉ l) :
    ListHolds (pushBackListNode nodes list node).1 (pushBackListNode nodes list node).2
      (l ++ [node]) where
  linked := by
    rw [pushBackListNode_list]
    exact holds.linked.append holds.distinct fresh
      (fun c _ => pushBackListNode_next nodes list node c)
      fun c _ => pushBackListNode_prev nodes list node c
  distinct := by
    rw [List.nodup_append_comm]
    exact List.nodup_cons.mpr ⟨fresh, holds.distinct⟩
  count := by
    rw [pushBackListNode_list, List.length_append, holds.count]
    rfl

theorem takenOut (holds : ListHolds nodes list (front ++ node :: back))
    (out : TakenOut nodes nodes' list list' front back) :
    ListHolds nodes' list' (front ++ back) where
  linked := by
    rw [out.list]
    exact holds.linked.cut (List.nodup_middle.mp holds.distinct).of_cons
      (fun c _ => out.next c) fun c _ => out.prev c
  distinct := (List.nodup_middle.mp holds.distinct).of_cons
  count := by
    have count := holds.count
    rw [List.length_append, List.length_cons] at count
    rw [out.list, List.length_append]
    dsimp only
    unfold countDown
    rw [if_neg (by omega)]
    omega

theorem head_iff (holds : ListHolds nodes list (front ++ node :: back)) :
    some node = list.head ↔ front = [] := holds.linked.first_iff holds.distinct

theorem tail_iff (holds : ListHolds nodes list (front ++ node :: back)) :
    some node = list.tail ↔ back = [] := holds.linked.last_iff holds.distinct

theorem head_kept (holds : ListHolds nodes list (front ++ node :: back)) (inside : front ≠ []) :
    list.head = (front ++ back).head? := by
  rw [holds.linked.head_eq, List.head?_append_of_ne_nil _ inside,
    List.head?_append_of_ne_nil _ inside]

theorem tail_kept (holds : ListHolds nodes list (front ++ node :: back)) (inside : back ≠ []) :
    list.tail = (front ++ back).getLast? := by
  rw [holds.linked.tail_eq, List.append_cons, List.getLast?_append_of_ne_nil _ inside,
    List.getLast?_append_of_ne_nil _ inside]

/-- remove_list_node takes its node out, whatever the links of the nodes outside are. -/
theorem remove (holds : ListHolds nodes list (front ++ node :: back)) :
    ∃ nodes' list', removeListNode nodes list node = some (nodes', list') ∧
      TakenOut nodes nodes' list list' front back := by
  have next : (nodes node).next = back.head? := holds.linked.next_eq
  have prev : (nodes node).prev = front.getLast? := holds.linked.prev_eq
  unfold removeListNode
  cases before : front.getLast? with
  | none =>
    obtain rfl := List.getLast?_eq_none_iff.mp before
    have first := holds.head_iff.mpr rfl
    cases behind : back.head? with
    | none =>
      -- the only node
      obtain rfl := List.head?_eq_none_iff.mp behind
      rw [if_pos ⟨first, holds.tail_iff.mpr rfl⟩]
      exact ⟨_, _, rfl, fun c => by simp, fun c => by simp, rfl⟩
    | some d =>
      -- the first of several
      have inside : back ≠ [] := List.ne_nil_of_mem (List.mem_of_head? behind)
      rw [if_neg fun both => inside (holds.tail_iff.mp both.2), if_pos first, next, behind]
      refine ⟨_, _, rfl, fun c => ?_, fun c => ?_, ?_⟩
      · simp
      · simp [behind, eq_comm]
      · rw [holds.tail_kept inside, List.nil_append, behind]
  | some b =>
    have inside : front ≠ [] := List.ne_nil_of_mem (List.mem_of_getLast? before)
    have notFirst : ¬ some node = list.head := fun first => inside (holds.head_iff.mp first)
    rw [if_neg fun both => notFirst both.1, if_neg notFirst, prev, before]
    cases behind : back.head? with
    | none =>
      -- the last of several
      obtain rfl := List.head?_eq_none_iff.mp behind
      rw [if_pos (holds.tail_iff.mpr rfl)]
      refine ⟨_, _, rfl, fun c => ?_, fun c => ?_, ?_⟩
      · simp [before, eq_comm]
      · simp
      · rw [holds.head_kept inside, List.append_nil, before]
    | some d =>
      have inside' : back ≠ [] := List.ne_nil_of_mem (List.mem_of_head? behind)
      have apart : node ≠ b := by
        rintro rfl
        exact (List.nodup_cons.mp (List.nodup_middle.mp holds.distinct)).1
          (List.mem_append_left _ (List.mem_of_getLast? before))
      rw [if_neg fun last => inside' (holds.tail_iff.mp last)]
      simp only [Option.bind_eq_bind, Option.bind_some, storeNext_next, if_neg apart, next, behind]
      refine ⟨_, _, rfl, fun c => ?_, fun c => ?_, ?_⟩
      · simp [before, behind, eq_comm]
      · simp [before, behind, prev, eq_comm]
      · rw [holds.head_kept inside, holds.tail_kept inside']

theorem popFront_nil (holds : ListHolds nodes list []) :
    popFrontListNode nodes list = (none, nodes, list) := by
  have head : list.head = none := holds.linked.head_eq
  unfold popFrontListNode
  rw [head]

/-- pop_front_list_node takes the first node out. -/
theorem popFront (holds : ListHolds nodes list (node :: back)) :
    ∃ nodes' list', popFrontListNode nodes list = (some node, nodes', list') ∧
      TakenOut nodes nodes' list list' [] back := by
  have head : list.head = some node := holds.linked.head_eq
  have first : ListHolds nodes list ([] ++ node :: back) := holds
  unfold popFrontListNode
  rw [head]
  dsimp only
  rw [first.linked.next_eq]
  cases behind : back.head? with
  | none =>
    obtain rfl := List.head?_eq_none_iff.mp behind
    exact ⟨_, _, rfl, fun c => by simp, fun c => by simp, rfl⟩
  | some d =>
    have inside : back ≠ [] := List.ne_nil_of_mem (List.mem_of_head? behind)
    refine ⟨_, _, rfl, fun c => ?_, fun c => ?_, ?_⟩
    · simp
    · simp [behind, eq_comm]
    · rw [first.tail_kept inside, List.nil_append, behind]

end ListHolds

/-- The list of the code is the sequence, and the same nodes have been popped. -/
structure Represents (q : SequenceState) (s : HashListState N) : Prop where
  holds : ListHolds s.nodes s.list q.items
  popped : s.popped = q.popped

/-- The code follows each call that the sequence allows. -/
theorem Represents.follow {q q' : SequenceState} {s : HashListState N} {call : HashListCall}
    (related : Represents q s) (step : sequenceNext q call = some q') :
    ∃ t, hashListNext s call = some t ∧ Represents q' t := by
  have holds := related.holds
  cases call with
  | pushBack node =>
    simp only [sequenceNext] at step
    split at step
    · cases step
    · rename_i fresh
      cases step
      exact ⟨_, rfl, holds.pushBack fresh, related.popped⟩
  | popFront =>
    cases step
    cases shape : q.items with
    | nil =>
      rw [shape] at holds
      refine ⟨{ s with popped := s.popped ++ [none] }, ?_, holds, ?_⟩
      · simp only [hashListNext, holds.popFront_nil]
      · rw [related.popped]
        rfl
    | cons node back =>
      rw [shape] at holds
      have first : ListHolds s.nodes s.list ([] ++ node :: back) := holds
      obtain ⟨nodes, list, popped, out⟩ := holds.popFront
      refine ⟨⟨nodes, list, s.popped ++ [some node]⟩, ?_, ?_, ?_⟩
      · simp only [hashListNext, popped]
      · exact first.takenOut out
      · rw [related.popped]
        rfl
  | remove node =>
    simp only [sequenceNext] at step
    split at step
    · rename_i member
      cases step
      obtain ⟨front, back, shape⟩ := List.append_of_mem member
      rw [shape] at holds
      obtain ⟨nodes, list, removed, out⟩ := holds.remove
      refine ⟨{ s with nodes := nodes, list := list }, ?_, ?_, related.popped⟩
      · simp only [hashListNext, removed, Option.bind_eq_bind, Option.bind_some]
      · have erased : q.items.erase node = front ++ back := by
          have fresh : node ∉ front := fun before =>
            (List.nodup_cons.mp (List.nodup_middle.mp holds.distinct)).1
              (List.mem_append_left _ before)
          rw [shape, List.erase_append_right _ fresh, List.erase_cons_head]
        dsimp only
        rw [erased]
        exact holds.takenOut out
    · cases step

section Payload

variable (nodes : NodePtr → HashNode N) (list : HashNodeList) (node p : NodePtr)

/-- Both links of one node stored, in either spelling. -/
theorem storeNext_storePrev (prev next : Option NodePtr) :
    storeNext (storePrev nodes node prev) node next =
      Function.update nodes node { nodes node with prev := prev, next := next } := by
  unfold storeNext storePrev
  rw [Function.update_self, Function.update_idem]

theorem pushBackListNode_kept :
    payload ((pushBackListNode nodes list node).1 p) = payload (nodes p) := by
  unfold pushBackListNode
  cases list.tail with
  | none =>
    dsimp only
    rw [← storeNext_storePrev, storeNext_payload, storePrev_payload]
  | some tail =>
    dsimp only
    rw [← storeNext_storePrev, storeNext_payload, storePrev_payload]
    exact storeNext_payload nodes tail p (some node)

theorem popFrontListNode_kept :
    payload ((popFrontListNode nodes list).2.1 p) = payload (nodes p) := by
  unfold popFrontListNode
  split
  · rfl
  · split <;> simp

theorem removeListNode_kept {nodes' : NodePtr → HashNode N} {list' : HashNodeList}
    (removed : removeListNode nodes list node = some (nodes', list')) :
    payload (nodes' p) = payload (nodes p) := by
  unfold removeListNode at removed
  split at removed
  · cases removed
    rfl
  · split at removed
    · obtain ⟨head, _, same⟩ := Option.bind_eq_some_iff.mp removed
      cases same
      exact storePrev_payload _ _ _ _
    · split at removed
      · obtain ⟨tail, _, same⟩ := Option.bind_eq_some_iff.mp removed
        cases same
        exact storeNext_payload _ _ _ _
      · obtain ⟨before, _, rest⟩ := Option.bind_eq_some_iff.mp removed
        obtain ⟨behind, _, same⟩ := Option.bind_eq_some_iff.mp rest
        cases same
        rw [storePrev_payload, storeNext_payload]

end Payload

/-- A call only touches links. -/
theorem hashListNext_payload {s t : HashListState N} {call : HashListCall}
    (step : hashListNext s call = some t) (p : NodePtr) :
    payload (t.nodes p) = payload (s.nodes p) := by
  cases call with
  | pushBack node =>
    cases step
    exact pushBackListNode_kept s.nodes s.list node p
  | popFront =>
    cases step
    exact popFrontListNode_kept s.nodes s.list p
  | remove node =>
    obtain ⟨⟨nodes, list⟩, removed, same⟩ := Option.bind_eq_some_iff.mp step
    cases same
    exact removeListNode_kept s.nodes s.list node p removed

end BurstBuffer.Source
