import BurstBuffer.Library.Machine
import BurstBuffer.Source.HashTable

/-!
# Calls on a list of hash nodes

pop_front_list_node and remove_list_node of nvm0list.cc, next to the functions the
system uses, and any sequence of calls on one list. `none` is an access through a
null pointer.
-/
namespace BurstBuffer.Source

open Library

variable {N : Nat}

/-- `list->count--`, with `uint64_t` arithmetic below zero. -/
def countDown (count : Nat) : Nat := if count = 0 then 2 ^ 64 - 1 else count - 1

/-- `node->next = pointer` -/
def storeNext (nodes : NodePtr → HashNode N) (node : NodePtr) (pointer : Option NodePtr) :
    NodePtr → HashNode N :=
  Function.update nodes node { nodes node with next := pointer }

/-- `node->prev = pointer` -/
def storePrev (nodes : NodePtr → HashNode N) (node : NodePtr) (pointer : Option NodePtr) :
    NodePtr → HashNode N :=
  Function.update nodes node { nodes node with prev := pointer }

/-- pop_front_list_node -/
def popFrontListNode (nodes : NodePtr → HashNode N) (list : HashNodeList) :
    Option NodePtr × (NodePtr → HashNode N) × HashNodeList :=
  match list.head with
  | none => (none, nodes, list)
  | some node =>
    match (nodes node).next with
    | none => (some node, nodes, { head := none, tail := none, count := countDown list.count })
    | some head =>
      (some node, storePrev nodes head none,
        { list with head := some head, count := countDown list.count })

/-- remove_list_node -/
def removeListNode (nodes : NodePtr → HashNode N) (list : HashNodeList) (node : NodePtr) :
    Option ((NodePtr → HashNode N) × HashNodeList) :=
  if some node = list.head ∧ some node = list.tail then
    some (nodes, { head := none, tail := none, count := countDown list.count })
  else if some node = list.head then do
    let head ← (nodes node).next
    some (storePrev nodes head none, { list with head := some head, count := countDown list.count })
  else if some node = list.tail then do
    let tail ← (nodes node).prev
    some (storeNext nodes tail none, { list with tail := some tail, count := countDown list.count })
  else do
    let before ← (nodes node).prev
    let nodes := storeNext nodes before (nodes node).next
    let behind ← (nodes node).next
    some (storePrev nodes behind (nodes node).prev, { list with count := countDown list.count })

inductive HashListCall where
  | pushBack (node : NodePtr)
  | popFront
  | remove (node : NodePtr)

/-- The heap, one list in it, and what pop_front_list_node has returned, oldest first. -/
structure HashListState (N : Nat) where
  nodes : NodePtr → HashNode N
  list : HashNodeList
  popped : List (Option NodePtr)

def hashListNext (s : HashListState N) : HashListCall → Option (HashListState N)
  | .pushBack node =>
    let (nodes, list) := pushBackListNode s.nodes s.list node
    some { s with nodes := nodes, list := list }
  | .popFront =>
    let (node, nodes, list) := popFrontListNode s.nodes s.list
    some { nodes := nodes, list := list, popped := s.popped ++ [node] }
  | .remove node => do
    let (nodes, list) ← removeListNode s.nodes s.list node
    some { s with nodes := nodes, list := list }

/-- Every sequence of calls on a new list, in a heap with any links. -/
def hashListMachine (N : Nat) : Machine (HashListState N) HashListCall where
  init s := s.list = newList ∧ s.popped = []
  next := hashListNext

end BurstBuffer.Source
