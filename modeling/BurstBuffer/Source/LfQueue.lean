import BurstBuffer.Library.Pool

/-!
# lfqueue between operations

The content of an `lfqueue<T>` (nvm0lfqueue.h) that no thread is inside of: the
enqueued values not yet dequeued, oldest first, at most `capacity` of them. An
operation that would spin, an `enqueue` on a full queue or a `dequeue` on an
empty one, has no result.
-/
namespace BurstBuffer.Source

@[ext]
structure LfQueue (α : Type) (capacity : Nat) where
  values : List α
  fits : values.length ≤ capacity

namespace LfQueue

variable {α : Type} {capacity : Nat}

def new : LfQueue α capacity := ⟨[], Nat.zero_le _⟩

def enqueue (q : LfQueue α capacity) (value : α) : Option (LfQueue α capacity) :=
  if room : q.values.length < capacity then
    some ⟨q.values ++ [value], by rw [List.length_append]; exact room⟩
  else none

def dequeue (q : LfQueue α capacity) : Option (α × LfQueue α capacity) :=
  match values : q.values with
  | [] => none
  | value :: rest => some (value, ⟨rest, by
      have := q.fits
      rw [values, List.length_cons] at this
      omega⟩)

def getSize (q : LfQueue α capacity) : Nat := q.values.length

def isEmpty (q : LfQueue α capacity) : Bool := q.getSize = 0

@[simp] theorem new_values : (new : LfQueue α capacity).values = [] := rfl

theorem enqueue_eq_some {q q' : LfQueue α capacity} {value : α} :
    q.enqueue value = some q' ↔ q'.values = q.values ++ [value] := by
  unfold enqueue
  constructor
  · intro success
    split at success
    · cases success
      rfl
    · cases success
  · intro appended
    have bound := q'.fits
    rw [appended, List.length_append, List.length_singleton] at bound
    rw [dif_pos (by omega), Option.some.injEq]
    exact LfQueue.ext appended.symm

theorem enqueue_isSome {q : LfQueue α capacity} (value : α) (room : q.values.length < capacity) :
    ∃ q', q.enqueue value = some q' ∧ q'.values = q.values ++ [value] :=
  ⟨⟨q.values ++ [value], by rw [List.length_append]; exact room⟩, enqueue_eq_some.mpr rfl, rfl⟩

theorem dequeue_eq_some {q q' : LfQueue α capacity} {value : α} :
    q.dequeue = some (value, q') ↔ q.values = value :: q'.values := by
  obtain ⟨values, fits⟩ := q
  cases values with
  | nil => simp [dequeue]
  | cons head rest =>
    simp only [dequeue, Option.some.injEq, Prod.mk.injEq, List.cons.injEq]
    constructor
    · rintro ⟨rfl, rfl⟩
      exact ⟨rfl, rfl⟩
    · rintro ⟨rfl, same⟩
      exact ⟨rfl, LfQueue.ext same⟩

theorem dequeue_isSome {q : LfQueue α capacity} (nonempty : q.values ≠ []) :
    ∃ value q', q.dequeue = some (value, q') := by
  obtain ⟨values, fits⟩ := q
  cases values with
  | nil => exact absurd rfl nonempty
  | cons head rest => exact ⟨_, _, rfl⟩

end LfQueue

section Family

open Library

variable {κ α : Type} [DecidableEq κ] {capacity : Nat}

/-- The values of a family of queues, as one pool. -/
def contents (queues : κ → LfQueue α capacity) : κ → List α := fun k => (queues k).values

theorem contents_update (queues : κ → LfQueue α capacity) (k : κ) (q : LfQueue α capacity) :
    contents (Function.update queues k q) = Function.update (contents queues) k q.values := by
  funext j
  by_cases same : j = k
  · subst j
    simp [contents]
  · simp [contents, Function.update_of_ne same]

theorem length_le_enqueue {queues : κ → LfQueue α capacity} {k : κ} {q : LfQueue α capacity} {x : α}
    (success : (queues k).enqueue x = some q) (j : κ) :
    (queues j).values.length ≤ (Function.update queues k q j).values.length := by
  by_cases same : j = k
  · subst j
    rw [Function.update_self, LfQueue.enqueue_eq_some.mp success, List.length_append]
    exact Nat.le_add_right _ _
  · rw [Function.update_of_ne same]

variable [Fintype κ]

theorem poolSize_enqueue {queues : κ → LfQueue α capacity} {k : κ} {q : LfQueue α capacity} {x : α}
    (success : (queues k).enqueue x = some q) :
    poolSize (contents (Function.update queues k q)) = poolSize (contents queues) + 1 := by
  have moved := poolSize_update (contents queues) k q.values
  rw [← contents_update, LfQueue.enqueue_eq_some.mp success, List.length_append,
    List.length_singleton] at moved
  have here : (contents queues k).length = (queues k).values.length := rfl
  omega

theorem poolSize_dequeue {queues : κ → LfQueue α capacity} {k : κ} {q : LfQueue α capacity} {x : α}
    (success : (queues k).dequeue = some (x, q)) :
    poolSize (contents (Function.update queues k q)) + 1 = poolSize (contents queues) := by
  have moved := poolSize_update (contents queues) k q.values
  have here : (contents queues k).length = (queues k).values.length := rfl
  rw [← contents_update, here, LfQueue.dequeue_eq_some.mp success, List.length_cons] at moved
  omega

variable [DecidableEq α]

theorem copies_enqueue {queues : κ → LfQueue α capacity} {k : κ} {q : LfQueue α capacity} {x : α}
    (success : (queues k).enqueue x = some q) (i : α) :
    copies (contents (Function.update queues k q)) i =
      copies (contents queues) i + if x = i then 1 else 0 := by
  rw [contents_update, LfQueue.enqueue_eq_some.mp success]
  exact copies_push (contents queues) k x i

theorem copies_dequeue {queues : κ → LfQueue α capacity} {k : κ} {q : LfQueue α capacity} {x : α}
    (success : (queues k).dequeue = some (x, q)) (i : α) :
    copies (contents queues) i =
      copies (contents (Function.update queues k q)) i + if x = i then 1 else 0 := by
  have head : contents queues k = x :: q.values := LfQueue.dequeue_eq_some.mp success
  rw [contents_update]
  exact (copies_pop head i).symm

omit [Fintype κ] in
theorem count_enqueue {queues : κ → LfQueue α capacity} {k : κ} {q : LfQueue α capacity} {x : α}
    (success : (queues k).enqueue x = some q) (j : κ) (i : α) :
    (Function.update queues k q j).values.count i =
      (queues j).values.count i + if j = k ∧ x = i then 1 else 0 := by
  by_cases same : j = k
  · subst j
    rw [Function.update_self, LfQueue.enqueue_eq_some.mp success, List.count_append,
      List.count_singleton]
    simp
  · rw [Function.update_of_ne same, if_neg fun both => same both.1, Nat.add_zero]

omit [Fintype κ] in
theorem count_dequeue {queues : κ → LfQueue α capacity} {k : κ} {q : LfQueue α capacity} {x : α}
    (success : (queues k).dequeue = some (x, q)) (j : κ) (i : α) :
    (queues j).values.count i =
      (Function.update queues k q j).values.count i + if j = k ∧ x = i then 1 else 0 := by
  by_cases same : j = k
  · subst j
    rw [Function.update_self, LfQueue.dequeue_eq_some.mp success, List.count_cons]
    simp
  · rw [Function.update_of_ne same, if_neg fun both => same both.1, Nat.add_zero]

end Family

end BurstBuffer.Source
