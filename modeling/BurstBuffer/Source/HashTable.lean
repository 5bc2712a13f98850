import BurstBuffer.Source.Tables

/-!
# Hash nodes and the invalid list

nvm0hash.cc and the part of nvm0list.cc it uses. A hash table belongs to one
volume entry; its nodes live in the common heap.
-/
namespace BurstBuffer.Source

variable {C : CuckoohashMap} {N : Nat}

/-- new_list -/
def newList : HashNodeList := ⟨none, none, 0⟩

/-- push_back_list_node -/
def pushBackListNode (nodes : NodePtr → HashNode N) (list : HashNodeList) (node : NodePtr) :
    (NodePtr → HashNode N) × HashNodeList :=
  match list.tail with
  | none =>
    (Function.update nodes node { nodes node with prev := none, next := none },
      { head := some node, tail := some node, count := list.count + 1 })
  | some tail =>
    let nodes := Function.update nodes tail { nodes tail with next := some node }
    (Function.update nodes node { nodes node with prev := some tail, next := none },
      { list with tail := some node, count := list.count + 1 })

/-- new_hash_table -/
def newHashTable : HashTable C := ⟨C.empty, newList⟩

/-- search_hash_node -/
def searchHashNode (table : HashTable C) (lbn : Nat) : Option NodePtr := C.find table.map lbn

/-- new_hash_node: the node the heap returns is given the inode and its lbn. -/
def newHashNode (inode : InodeIdx N) (s : State C N) : NodePtr × State C N :=
  let node : HashNode N :=
    { inode := some inode, lbn := (s.inodeTable inode).lbn, isValid := true, mutex := false,
      prev := none, next := none }
  (s.nextNode, { s.setNode s.nextNode node with nextNode := s.nextNode + 1 })

/-- validate_hash_node -/
def validateHashNode (node : NodePtr) (inode : InodeIdx N) (s : State C N) : State C N :=
  s.setNode node { s.hashNodes node with
    inode := some inode, lbn := (s.inodeTable inode).lbn, isValid := true }

/-- insert_hash_node into the table of volume `v`: the key is read through the node's inode. -/
def insertHashNode (v : VolumeIdx) (node : NodePtr) (s : State C N) : Option (State C N) := do
  let table ← (s.volumeTable v).hashTable
  let inode ← (s.hashNodes node).inode
  let map := C.store table.map (s.inodeTable inode).lbn node
  some (s.setVolume v { s.volumeTable v with hashTable := some { table with map := map } })

/-- logical_delete_hash_node of the table of volume `v` -/
def logicalDeleteHashNode (v : VolumeIdx) (node : NodePtr) (s : State C N) :
    Option (State C N) := do
  let table ← (s.volumeTable v).hashTable
  let s := s.setNode node { s.hashNodes node with inode := none, isValid := false }
  let (nodes, list) := pushBackListNode s.hashNodes table.invalidList node
  some ({ s with hashNodes := nodes }.setVolume v
    { s.volumeTable v with hashTable := some { table with invalidList := list } })

end BurstBuffer.Source
