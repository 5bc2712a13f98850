import Mathlib.Logic.Function.Basic
import Mathlib.Tactic.Simps.Basic
import BurstBuffer.Library.Machine

/-!
# lflist step by step

ut0lflist.cc: a step is one read of shared memory, one store or one atomic operation,
with what a thread does on its own behind it. A node is named by its place in the order
of the tail swaps, `0` is the dummy head. A `next` word is a pointer with its mark bit;
search masks the bit before it follows a word, so that its pointers have none.
-/
namespace BurstBuffer.Source

open Library

/-- A `next` word: the pointer get_ref leaves and the bit get_mark leaves. -/
structure NextWord where
  ref : Option Nat
  mark : Bool
  deriving DecidableEq

namespace NextWord

def null : NextWord := ⟨none, false⟩

/-- An unmarked pointer to a node. -/
def ofNode (node : Nat) : NextWord := ⟨some node, false⟩

def setMark (word : NextWord) : NextWord := { word with mark := true }

end NextWord

structure LfList where
  data : Nat → Nat
  next : Nat → NextWord
  tail : Nat
  count : Nat

namespace LfList

def head : Nat := 0

/-- The constructor: the dummy head has the data and the `next` of the constructor of node. -/
def new : LfList where
  data _ := 0
  next _ := .null
  tail := head
  count := 0

@[simps -fullyApplied]
def setNext (l : LfList) (node : Nat) (word : NextWord) : LfList :=
  { l with next := Function.update l.next node word }

@[simps -fullyApplied]
def setCount (l : LfList) (count : Nat) : LfList := { l with count := count }

/-- The new node with what the constructor of node has stored in it, as the tail. -/
@[simps -fullyApplied]
def setTail (l : LfList) (data : Nat) : LfList :=
  { l with
    data := Function.update l.data (l.tail + 1) data
    next := Function.update l.next (l.tail + 1) .null
    tail := l.tail + 1 }

end LfList

/-- The variables of search: its arguments, `left_node_next`, and whether remove called it. -/
structure SearchVars where
  data : Nat
  removing : Bool
  leftNode : Option Nat
  leftNodeNext : NextWord

inductive ListReply where
  | done
  | node (found : Nat)
  | code (value : Nat)
  deriving DecidableEq

/-- Where a thread is. `ready` holds what its last call has returned; `fault` is reached
by an access through a null pointer. -/
inductive ListPc where
  | ready (reply : ListReply)
  | swapTail (data : Nat)
  | linkOld (old node : Nat)
  | addCount (node : Nat)
  | readHead (vars : SearchVars)
  | testData (vars : SearchVars) (t : Nat) (tNext : NextWord)
  | testTail (vars : SearchVars) (t : Option Nat)
  | readNext (vars : SearchVars) (t : Nat)
  | swapLeft (vars : SearchVars) (rightNode : Nat)
  | testRight (vars : SearchVars) (rightNode : Nat)
  | testFound (vars : SearchVars) (curr : Nat)
  | testCurr (vars : SearchVars) (curr : Nat)
  | readSucc (vars : SearchVars) (curr : Nat)
  | markCurr (vars : SearchVars) (curr : Nat) (succ : NextWord)
  | subCount (curr : Nat)
  | fault

inductive ListCall where
  | append (data : Nat)
  | search (data : Nat) (leftNode : Option Nat)
  | remove (data : Nat)

/-- The start of a call. -/
def ListCall.begin : ListCall → ListPc
  | .append data => .swapTail data
  | .search data leftNode => .readHead ⟨data, false, leftNode, .null⟩
  | .remove data => .readHead ⟨data, true, none, .null⟩

/-- Behind the inner loop of search. -/
def SearchVars.afterLoop (vars : SearchVars) (t : Option Nat) : ListPc :=
  match t with
  | none => .readHead vars
  | some rightNode =>
    if vars.leftNodeNext = .ofNode rightNode then .testRight vars rightNode
    else .swapLeft vars rightNode

/-- Where search returns. -/
def SearchVars.return (vars : SearchVars) (rightNode : Nat) : ListPc :=
  if vars.removing then .testFound vars rightNode else .ready (.node rightNode)

/-- The next step of a thread. -/
def listStep (pc : ListPc) (l : LfList) : Option (ListPc × LfList) :=
  match pc with
  | .ready _ => none
  | .swapTail data => some (.linkOld l.tail (l.tail + 1), l.setTail data)
  | .linkOld old node => some (.addCount node, l.setNext old (.ofNode node))
  | .addCount _ => some (.ready .done, l.setCount ((l.count + 1) % 2 ^ 64))
  | .readHead vars => some (.testData vars LfList.head (l.next LfList.head), l)
  | .testData vars t tNext =>
    if tNext.mark = true ∨ l.data t ≠ vars.data then
      let vars :=
        if tNext.mark then vars else { vars with leftNode := some t, leftNodeNext := tNext }
      some (.testTail vars tNext.ref, l)
    else some (vars.afterLoop (some t), l)
  | .testTail vars t =>
    match t with
    | none => some (vars.afterLoop none, l)
    | some node =>
      if node = l.tail then some (vars.afterLoop (some node), l) else some (.readNext vars node, l)
  | .readNext vars t => some (.testData vars t (l.next t), l)
  | .swapLeft vars rightNode =>
    match vars.leftNode with
    | none => some (.fault, l)
    | some leftNode =>
      if l.next leftNode = vars.leftNodeNext then
        some (.testRight vars rightNode, l.setNext leftNode (.ofNode rightNode))
      else some (.readHead vars, l)
  | .testRight vars rightNode =>
    if (l.next rightNode).mark then some (.readHead vars, l) else some (vars.return rightNode, l)
  | .testFound vars curr =>
    if l.next curr = .null then some (.ready (.code 0), l) else some (.testCurr vars curr, l)
  | .testCurr vars curr =>
    if l.data curr ≠ vars.data then some (.ready (.code 0), l) else some (.readSucc vars curr, l)
  | .readSucc vars curr =>
    if (l.next curr).mark then some (.readHead { vars with leftNodeNext := .null }, l)
    else some (.markCurr vars curr (l.next curr), l)
  | .markCurr vars curr succ =>
    if l.next curr = succ then some (.subCount curr, l.setNext curr succ.setMark)
    else some (.readHead { vars with leftNodeNext := .null }, l)
  | .subCount _ => some (.ready (.code 1), l.setCount ((l.count + 2 ^ 64 - 1) % 2 ^ 64))
  | .fault => none

/-- What a call that has returned replies. -/
def ListPc.reply : ListPc → Option ListReply
  | .ready reply => some reply
  | _ => none

/-- A thread that runs alone until its call returns. -/
def runThread : Nat → ListPc → LfList → Option (ListReply × LfList)
  | 0, pc, l => pc.reply.map fun reply => (reply, l)
  | fuel + 1, pc, l =>
    match pc.reply with
    | some reply => some (reply, l)
    | none => (listStep pc l).bind fun (pc, l) => runThread fuel pc l

/-- The loop of the destructor, from the word in `curr` on: the nodes it deletes. It has
no result when it follows a marked word, which is not a pointer. -/
def deleteNodes (l : LfList) : Nat → NextWord → Option (List Nat)
  | 0, _ => none
  | fuel + 1, curr =>
    if curr = .null then some []
    else
      match curr with
      | ⟨some node, false⟩ => (deleteNodes l fuel (l.next node)).map (node :: ·)
      | _ => none

/-- The list and the threads. `appended` and `removed` record the nodes of the calls of
append that have returned and of the calls of remove that have returned 1. -/
structure ListSystem (τ : Type) where
  list : LfList
  pc : τ → ListPc
  appended : List Nat
  removed : List Nat

inductive ListEvent (τ : Type) where
  | call (thread : τ) (request : ListCall)
  | step (thread : τ)

section Threads

variable {τ : Type} [DecidableEq τ]

@[simps -fullyApplied]
def ListSystem.setPc (s : ListSystem τ) (thread : τ) (pc : ListPc) : ListSystem τ :=
  { s with pc := Function.update s.pc thread pc }

/-- What the step of a thread adds to the records. -/
def ListPc.appends : ListPc → List Nat
  | .addCount node => [node]
  | _ => []

def ListPc.removes : ListPc → List Nat
  | .subCount curr => [curr]
  | _ => []

/-- A thread has made a step. -/
@[simps -fullyApplied]
def ListSystem.advance (s : ListSystem τ) (thread : τ) (pc : ListPc) (list : LfList) :
    ListSystem τ where
  list := list
  pc := Function.update s.pc thread pc
  appended := s.appended ++ (s.pc thread).appends
  removed := s.removed ++ (s.pc thread).removes

def listNext (s : ListSystem τ) : ListEvent τ → Option (ListSystem τ)
  | .call thread request =>
    match s.pc thread with
    | .ready _ => some (s.setPc thread request.begin)
    | _ => none
  | .step thread =>
    (listStep (s.pc thread) s.list).map fun (pc, list) => s.advance thread pc list

def listMachine (τ : Type) [DecidableEq τ] : Machine (ListSystem τ) (ListEvent τ) where
  init s :=
    s.list = .new ∧ (∀ thread, s.pc thread = .ready .done) ∧ s.appended = [] ∧ s.removed = []
  next := listNext

end Threads

end BurstBuffer.Source
