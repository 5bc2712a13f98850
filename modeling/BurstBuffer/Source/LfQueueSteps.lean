import Mathlib.Logic.Function.Basic
import BurstBuffer.Library.Machine

/-!
# lfqueue step by step

The atomic steps of enqueue and dequeue of nvm0lfqueue.h on an open queue, for
any set of threads. `τ` names the threads, `α` is the type of the values. The
fields below `pc` record what has happened and decide no step: the value passed
for each producer ticket, the tickets of the completed calls of enqueue, and
what each completed call of dequeue returned.
-/
namespace BurstBuffer.Source

open Library

inductive QueuePc (α : Type) where
  | idle
  | enqueueSpin (ticket : Nat) (value : α)
  | enqueueStore (ticket : Nat) (value : α)
  | enqueuePublish (ticket : Nat) (value : α)
  | dequeueSpin (ticket : Nat)
  | dequeueRead (ticket : Nat)
  | dequeueRelease (ticket : Nat) (value : α)

structure QueueState (τ α : Type) (capacity : Nat) where
  pCount : Nat
  cCount : Nat
  values : Fin capacity → α
  cCounts : Fin capacity → Nat
  pCounts : Fin capacity → Nat
  pc : τ → QueuePc α
  passed : Nat → Option α
  stored : List Nat
  returned : List (Nat × α)

inductive QueueEvent (τ α : Type) where
  | enqueue (thread : τ) (value : α)
  | dequeue (thread : τ)
  | advance (thread : τ)

section Steps

variable {τ α : Type} [DecidableEq τ] {capacity : Nat} [NeZero capacity]

/-- `ticket % capacity` -/
def slot (capacity : Nat) [NeZero capacity] (ticket : Nat) : Fin capacity :=
  Fin.ofNat capacity ticket

/-- The constructor. `i + capacity` is a sum of 32-bit numbers. -/
def QueueState.initial (values : Fin capacity → α) : QueueState τ α capacity where
  pCount := capacity - 1
  cCount := capacity - 1
  values := values
  cCounts i := (i.val + capacity) % 2 ^ 32
  pCounts i := i.val
  pc _ := .idle
  passed _ := none
  stored := []
  returned := []

/-- `p_count.fetch_add(1) + 1`, as long as there are fewer than `2^64` tickets. -/
def claimProducer (thread : τ) (value : α) (s : QueueState τ α capacity) :
    Option (QueueState τ α capacity) :=
  match s.pc thread with
  | .idle =>
    if s.pCount + 1 < 2 ^ 64 then
      some { s with
        pCount := s.pCount + 1
        pc := Function.update s.pc thread (.enqueueSpin (s.pCount + 1) value)
        passed := Function.update s.passed (s.pCount + 1) (some value) }
    else none
  | _ => none

/-- `c_count.fetch_add(1) + 1` -/
def claimConsumer (thread : τ) (s : QueueState τ α capacity) : Option (QueueState τ α capacity) :=
  match s.pc thread with
  | .idle =>
    if s.cCount + 1 < 2 ^ 64 then
      some { s with
        cCount := s.cCount + 1
        pc := Function.update s.pc thread (.dequeueSpin (s.cCount + 1)) }
    else none
  | _ => none

/-- The next atomic step of a call that holds a ticket. A spin reads once. -/
def advance (thread : τ) (s : QueueState τ α capacity) : Option (QueueState τ α capacity) :=
  match s.pc thread with
  | .idle => none
  | .enqueueSpin ticket value =>
    if ticket = s.cCounts (slot capacity ticket) then
      some { s with pc := Function.update s.pc thread (.enqueueStore ticket value) }
    else some s
  | .enqueueStore ticket value =>
    some { s with
      values := Function.update s.values (slot capacity ticket) value
      pc := Function.update s.pc thread (.enqueuePublish ticket value) }
  | .enqueuePublish ticket _ =>
    some { s with
      pCounts := Function.update s.pCounts (slot capacity ticket) ticket
      pc := Function.update s.pc thread .idle
      stored := ticket :: s.stored }
  | .dequeueSpin ticket =>
    if ticket = s.pCounts (slot capacity ticket) then
      some { s with pc := Function.update s.pc thread (.dequeueRead ticket) }
    else some s
  | .dequeueRead ticket =>
    some { s with
      pc := Function.update s.pc thread
        (.dequeueRelease ticket (s.values (slot capacity ticket))) }
  | .dequeueRelease ticket value =>
    some { s with
      cCounts := Function.update s.cCounts (slot capacity ticket) ((ticket + capacity) % 2 ^ 64)
      pc := Function.update s.pc thread .idle
      returned := (ticket, value) :: s.returned }

def queueNext (s : QueueState τ α capacity) : QueueEvent τ α → Option (QueueState τ α capacity)
  | .enqueue thread value => claimProducer thread value s
  | .dequeue thread => claimConsumer thread s
  | .advance thread => advance thread s

def queueMachine (τ α : Type) [DecidableEq τ] (capacity : Nat) [NeZero capacity] :
    Machine (QueueState τ α capacity) (QueueEvent τ α) where
  init s := ∃ values, s = .initial values
  next := queueNext

end Steps

end BurstBuffer.Source
