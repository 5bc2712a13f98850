import BurstBuffer.Invariants.HashList

/-!
# The hash-node list is a sequence

For every sequence of calls that push a node which is not in the list and remove one which
is, the list is what appending, taking the first and erasing make of the empty sequence.
-/
namespace BurstBuffer.Guarantees

open Source Library

variable {N : Nat}

/-- The list is exactly the sequence, from both ends. -/
structure ListFaithful (q : SequenceState) (s : HashListState N) : Prop where
  head : s.list.head = q.items.head?
  tail : s.list.tail = q.items.getLast?
  /-- Both walks end in a null pointer. -/
  forward : walk (fun p => (s.nodes p).next) s.list.head s.list.count = some q.items
  backward : walk (fun p => (s.nodes p).prev) s.list.tail s.list.count = some q.items.reverse
  distinct : q.items.Nodup
  count : s.list.count = q.items.length
  /-- pop_front_list_node returned the first nodes, and a null pointer for no node. -/
  popped : s.popped = q.popped

theorem listFaithful_of_represents {q : SequenceState} {s : HashListState N}
    (related : Represents q s) : ListFaithful q s := by
  have linked := related.holds.linked
  have count := related.holds.count
  refine ⟨linked.head_eq, linked.tail_eq, ?_, ?_, related.holds.distinct, count, related.popped⟩
  · rw [count]
    exact linked.forward.walk_eq
  · rw [count, ← List.length_reverse]
    exact linked.backward.walk_eq

/-- No call goes through a null pointer, and the list is faithful behind the last of them,
whatever links the nodes have before the first. -/
theorem hash_list_faithful (nodes : NodePtr → HashNode N) (calls : List HashListCall)
    (q : SequenceState) (allowed : sequenceMachine.run ⟨[], []⟩ calls = some q) :
    ∃ s, (hashListMachine N).run ⟨nodes, newList, []⟩ calls = some s ∧ ListFaithful q s := by
  have empty : Represents ⟨[], []⟩ ⟨nodes, newList, []⟩ := ⟨.new nodes, rfl⟩
  have follow : ∀ (p : SequenceState) (s : HashListState N) call p', Represents p s →
      sequenceMachine.next p call = some p' →
      ∃ t, (hashListMachine N).next s call = some t ∧ Represents p' t :=
    fun _ _ _ _ related step => related.follow step
  obtain ⟨s, steps, related⟩ := Machine.run_simulates follow empty allowed
  exact ⟨s, steps, listFaithful_of_represents related⟩

/-- A heap in which each node has links to the one before it. -/
def staleNodes (p : NodePtr) : HashNode 1 where
  inode := none
  lbn := 0
  isValid := false
  mutex := false
  prev := some (p - 1)
  next := some (p - 1)

/-- The node 1 is removed from the front and pushed again. -/
theorem hash_list_faithful_reused : ∃ s,
    (hashListMachine 1).run ⟨staleNodes, newList, []⟩ [.pushBack 1, .pushBack 2, .pushBack 3,
      .remove 1, .pushBack 1, .remove 3, .popFront] = some s ∧
      ListFaithful ⟨[1], [some 2]⟩ s :=
  hash_list_faithful staleNodes _ _ rfl

/-- Calls only touch links: what a node says of its block stays. -/
theorem hash_list_payload {s t : HashListState N} {calls : List HashListCall}
    (steps : (hashListMachine N).run s calls = some t) (p : NodePtr) :
    payload (t.nodes p) = payload (s.nodes p) :=
  Machine.run_invariant (I := fun u => payload (u.nodes p) = payload (s.nodes p))
    (fun _ _ _ same step => (hashListNext_payload step p).trans same) rfl steps

end BurstBuffer.Guarantees
