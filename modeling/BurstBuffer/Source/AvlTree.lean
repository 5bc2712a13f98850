import Mathlib.Logic.Function.Basic
import BurstBuffer.Library.Machine

/-!
# The tree of inodes

nvm0avltree.cc. A tree node is a cell of the heap, `none` is `nullptr`, and a
dereference of `nullptr` or of freed memory has no result. An `inode_entry*` is a
value of the type `I`, and `int` counters wrap as in two's complement. A
recursion and the loops on the tree take a bound on their depth or rounds.
-/
namespace BurstBuffer.Source

open Library

/-- uint32_t -/
abbrev Lbn : Type := Fin (2 ^ 32)
abbrev TreePtr : Type := Nat

instance lbnNeZero : NeZero (2 ^ 32) := ⟨by decide⟩

/-- TREE_VALID and TREE_INVALID -/
inductive TreeValid where
  | valid | invalid
  deriving DecidableEq, Repr

structure TreeNode (I : Type) where
  inode : I
  lbn : Lbn
  valid : TreeValid
  left : Option TreePtr
  right : Option TreePtr
  height : Int

abbrev TreeHeap (I : Type) : Type := TreePtr → Option (TreeNode I)

/-- tree_root, next to the heap -/
structure TreeState (I : Type) where
  heap : TreeHeap I
  root : Option TreePtr
  countTotal : Int
  countInvalid : Int

variable {I : Type}

def TreeHeap.store (heap : TreeHeap I) (a : TreePtr) (node : TreeNode I) : TreeHeap I :=
  Function.update heap a (some node)

def TreeHeap.free (heap : TreeHeap I) (a : TreePtr) : TreeHeap I := Function.update heap a none

def setLeft (heap : TreeHeap I) (a : TreePtr) (left : Option TreePtr) : Option (TreeHeap I) := do
  let node ← heap a
  some (heap.store a { node with left := left })

def setRight (heap : TreeHeap I) (a : TreePtr) (right : Option TreePtr) : Option (TreeHeap I) := do
  let node ← heap a
  some (heap.store a { node with right := right })

/-- More than the keys there are. -/
def treeFuel : Nat := 2 ^ 32 + 2

/-- `int` -/
def wrapInt (x : Int) : Int := x.bmod (2 ^ 32)

def getHeight (heap : TreeHeap I) : Option TreePtr → Option Int
  | none => some 0
  | some a => (heap a).map TreeNode.height

def maxHeight (a b : Int) : Int := if a > b then a else b

def getBalance (heap : TreeHeap I) : Option TreePtr → Option Int
  | none => some 0
  | some a => do
    let node ← heap a
    let left ← getHeight heap node.left
    let right ← getHeight heap node.right
    some (left - right)

/-- `root->height = max_height(get_height(root->left), get_height(root->right)) + 1` -/
def updateHeight (heap : TreeHeap I) (root : TreePtr) : Option (TreeHeap I) := do
  let node ← heap root
  let left ← getHeight heap node.left
  let right ← getHeight heap node.right
  some (heap.store root { node with height := maxHeight left right + 1 })

def rightRotate (heap : TreeHeap I) (y : TreePtr) : Option (TreePtr × TreeHeap I) := do
  let x ← (← heap y).left
  let T2 := (← heap x).right
  let heap ← setRight heap x (some y)
  let heap ← setLeft heap y T2
  let heap ← updateHeight heap y
  let heap ← updateHeight heap x
  some (x, heap)

def leftRotate (heap : TreeHeap I) (x : TreePtr) : Option (TreePtr × TreeHeap I) := do
  let y ← (← heap x).right
  let T2 := (← heap y).left
  let heap ← setLeft heap y (some x)
  let heap ← setRight heap x T2
  let heap ← updateHeight heap x
  let heap ← updateHeight heap y
  some (y, heap)

def initTreeNode (inode : I) (lbn : Lbn) : TreeNode I :=
  { inode := inode, lbn := lbn, valid := .valid, left := none, right := none, height := 1 }

/-- search_tree_node -/
def searchFrom (heap : TreeHeap I) (lbn : Lbn) :
    Nat → Option TreePtr → Option (Option TreePtr)
  | 0, _ => none
  | _ + 1, none => some none
  | fuel + 1, some localRoot => do
    let node ← heap localRoot
    if lbn = node.lbn then some (some localRoot)
    else if lbn < node.lbn then searchFrom heap lbn fuel node.left
    else searchFrom heap lbn fuel node.right

def searchTreeNode (tree : TreeState I) (lbn : Lbn) : Option (Option TreePtr) :=
  searchFrom tree.heap lbn treeFuel tree.root

/-- The rebalancing at the end of insert_tree_node. -/
def rebalanceInserted (heap : TreeHeap I) (root node : TreePtr) :
    Option (TreePtr × TreeHeap I) := do
  let balance ← getBalance heap (some root)
  let lbn := (← heap node).lbn
  if balance > 1 then
    let left ← (← heap root).left
    let leftLbn := (← heap left).lbn
    if lbn < leftLbn then rightRotate heap root
    else if lbn > leftLbn then
      let (left, heap) ← leftRotate heap left
      let heap ← setLeft heap root (some left)
      rightRotate heap root
    else some (root, heap)
  else if balance < -1 then
    let right ← (← heap root).right
    let rightLbn := (← heap right).lbn
    if lbn > rightLbn then leftRotate heap root
    else if lbn < rightLbn then
      let (right, heap) ← rightRotate heap right
      let heap ← setRight heap root (some right)
      leftRotate heap root
    else some (root, heap)
  else some (root, heap)

/-- insert_tree_node below a node -/
def insertBelow (node : TreePtr) :
    Nat → Option TreePtr → TreeHeap I → Option (TreePtr × TreeHeap I)
  | 0, _, _ => none
  | _ + 1, none, heap => some (node, heap)
  | fuel + 1, some root, heap => do
    let here ← heap root
    if (← heap node).lbn < here.lbn then
      let (left, heap) ← insertBelow node fuel here.left heap
      let heap ← setLeft heap root (some left)
      let heap ← updateHeight heap root
      rebalanceInserted heap root node
    else
      let (right, heap) ← insertBelow node fuel here.right heap
      let heap ← setRight heap root (some right)
      let heap ← updateHeight heap root
      rebalanceInserted heap root node

def insertTreeNode (tree : TreeState I) (node : TreePtr) : Option (TreeState I) := do
  let (root, heap) ← insertBelow node treeFuel tree.root tree.heap
  some { tree with heap := heap, root := some root, countTotal := wrapInt (tree.countTotal + 1) }

/-- The loop of logical_delete_tree_node. -/
def logicalDeleteFrom (node : TreePtr) :
    Nat → Option TreePtr → TreeState I → Option (TreeState I)
  | 0, _, _ => none
  | _ + 1, none, tree => some tree
  | fuel + 1, some localRoot, tree => do
    let lbn := (← tree.heap node).lbn
    let here ← tree.heap localRoot
    if lbn = here.lbn then
      if here.valid = .valid then
        some { tree with
          heap := tree.heap.store localRoot { here with valid := .invalid }
          countInvalid := wrapInt (tree.countInvalid + 1) }
      else some tree
    else if lbn < here.lbn then logicalDeleteFrom node fuel here.left tree
    else logicalDeleteFrom node fuel here.right tree

def logicalDeleteTreeNode (tree : TreeState I) (node : TreePtr) : Option (TreeState I) :=
  logicalDeleteFrom node treeFuel tree.root tree

def minValueNode (heap : TreeHeap I) : Nat → TreePtr → Option TreePtr
  | 0, _ => none
  | fuel + 1, current => do
    match (← heap current).left with
    | none => some current
    | some left => minValueNode heap fuel left

/-- The rebalancing at the end of physical_delete_tree_node. -/
def rebalanceDeleted (heap : TreeHeap I) (root : TreePtr) : Option (TreePtr × TreeHeap I) := do
  let heap ← updateHeight heap root
  let balance ← getBalance heap (some root)
  if balance > 1 then
    let left ← (← heap root).left
    if (← getBalance heap (some left)) ≥ 0 then rightRotate heap root
    else
      let (left, heap) ← leftRotate heap left
      let heap ← setLeft heap root (some left)
      rightRotate heap root
  else if balance < -1 then
    let right ← (← heap root).right
    if (← getBalance heap (some right)) ≤ 0 then leftRotate heap root
    else
      let (right, heap) ← rightRotate heap right
      let heap ← setRight heap root (some right)
      leftRotate heap root
  else some (root, heap)

/-- physical_delete_tree_node; `node` is `nullptr` for `none`. -/
def physicalDeleteBelow :
    Nat → Option TreePtr → Option TreePtr → TreeHeap I → Option (Option TreePtr × TreeHeap I)
  | 0, _, _, _ => none
  | _ + 1, _, none, heap => some (none, heap)
  | fuel + 1, node, some root, heap => do
    let lbn := (← node.bind heap).lbn
    let here ← heap root
    if lbn < here.lbn then
      let (left, heap) ← physicalDeleteBelow fuel node here.left heap
      let heap ← setLeft heap root left
      let (root, heap) ← rebalanceDeleted heap root
      some (some root, heap)
    else if lbn > here.lbn then
      let (right, heap) ← physicalDeleteBelow fuel node here.right heap
      let heap ← setRight heap root right
      let (root, heap) ← rebalanceDeleted heap root
      some (some root, heap)
    else
      match here.left, here.right with
      | none, none => some (none, heap.free root)
      | none, some temp | some temp, none => do
        -- the child is copied over the node and freed
        let child ← heap temp
        let (root, heap) ← rebalanceDeleted ((heap.store root child).free temp) root
        some (some root, heap)
      | some _, some right => do
        let temp ← minValueNode heap fuel right
        let min ← heap temp
        let heap := heap.store root
          { here with inode := min.inode, lbn := min.lbn, valid := min.valid }
        let (right, heap) ← physicalDeleteBelow fuel (some temp) (some right) heap
        let heap ← setRight heap root right
        let (root, heap) ← rebalanceDeleted heap root
        some (some root, heap)

/-- `tree->root = physical_delete_tree_node(tree->root, node)` -/
def physicalDeleteTreeNode (tree : TreeState I) (node : Option TreePtr) :
    Option (TreeState I) := do
  let (root, heap) ← physicalDeleteBelow treeFuel node tree.root tree.heap
  some { tree with heap := heap, root := root }

/-- The loop of find_invalid_tree_node over its stack, whose top is the first entry. -/
def findInvalidFrom (heap : TreeHeap I) :
    Nat → List (Option TreePtr) → Option (Option TreePtr)
  | 0, _ => none
  | _ + 1, [] => some none
  | _ + 1, none :: _ => some none
  | fuel + 1, some tnode :: stack => do
    let node ← heap tnode
    if node.valid = .invalid then some (some tnode)
    else
      let stack := if node.right = none then stack else node.right :: stack
      let stack := if node.left = none then stack else node.left :: stack
      findInvalidFrom heap fuel stack

def findInvalidTreeNode (tree : TreeState I) : Option (Option TreePtr) :=
  findInvalidFrom tree.heap treeFuel [tree.root]

/-- The body of the loop of rebalance_tree_node. -/
def rebalanceRound (tree : TreeState I) : Option (TreeState I) := do
  let invalidNode ← findInvalidTreeNode tree
  let tree ← physicalDeleteTreeNode tree invalidNode
  some { tree with
    countTotal := wrapInt (tree.countTotal - 1)
    countInvalid := wrapInt (tree.countInvalid - 1) }

def rebalanceLoop : Nat → TreeState I → Option (TreeState I)
  | 0, _ => none
  | fuel + 1, tree =>
    if tree.countInvalid > 0 then (rebalanceRound tree).bind (rebalanceLoop fuel) else some tree

def rebalanceTreeNode (tree : TreeState I) : Option (TreeState I) := rebalanceLoop treeFuel tree

/-- The callers of the tree. `init` gives an inode to init_tree_node, whose memory
the heap puts at `a`; the other operations take any node there is. -/
inductive TreeEvent (I : Type) where
  | init (a : TreePtr) (inode : I) (lbn : Lbn)
  | insert (a : TreePtr)
  | logicalDelete (a : TreePtr)
  | physicalDelete (a : TreePtr)
  | rebalance

def treeNext (tree : TreeState I) : TreeEvent I → Option (TreeState I)
  | .init a inode lbn =>
    if (tree.heap a).isNone then
      some { tree with heap := tree.heap.store a (initTreeNode inode lbn) }
    else none
  | .insert a => insertTreeNode tree a
  | .logicalDelete a => logicalDeleteTreeNode tree a
  | .physicalDelete a => physicalDeleteTreeNode tree (some a)
  | .rebalance => rebalanceTreeNode tree

def emptyTree : TreeState I := ⟨fun _ => none, none, 0, 0⟩

/-- The tree is empty at first, and so are the counters. -/
def treeSystem (I : Type) : Machine (TreeState I) (TreeEvent I) where
  init tree := tree = emptyTree
  next := treeNext

end BurstBuffer.Source
