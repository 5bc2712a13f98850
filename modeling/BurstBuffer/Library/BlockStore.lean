import BurstBuffer.Library.Trace

/-!
# Stores of blocks

An abstract store keeps a block of `n` bytes under every key. A write gives the first bytes
of a block; the rest of it may become anything. Whatever writes are shown, each block then
starts as the last write to it says, and a block that was not written is as before.
-/
namespace BurstBuffer.Library

/-- A write of `count` bytes to the block under `key`. -/
structure BlockWrite (κ β : Type) where
  key : κ
  bytes : Nat → β
  count : Nat

section Store

variable {κ β : Type} {n : Nat}

/-- The block starts with the bytes of the write. -/
def BlockWrite.Written (w : BlockWrite κ β) (block : Fin n → β) : Prop :=
  ∀ i : Fin n, i.val < w.count → block i = w.bytes i.val

variable [DecidableEq κ]

/-- One write; `rest` is what it leaves behind the bytes it gives. -/
def storeBlock (blocks : κ → Fin n → β) (w : BlockWrite κ β) (rest : Fin n → β) : κ → Fin n → β :=
  Function.update blocks w.key fun i => if i.val < w.count then w.bytes i.val else rest i

/-- The store, whose events are the writes with what each of them leaves. -/
def blockStore (κ β : Type) (n : Nat) [DecidableEq κ] :
    Machine (κ → Fin n → β) (BlockWrite κ β × (Fin n → β)) where
  init _ := True
  next blocks e := some (storeBlock blocks e.1 e.2)

def storeLabel (_ : κ → Fin n → β) (e : BlockWrite κ β × (Fin n → β)) : List (BlockWrite κ β) :=
  [e.1]

/-- The last write to the block under `key`. -/
def lastWrite (l : List (BlockWrite κ β)) (key : κ) : Option (BlockWrite κ β) :=
  l.reverse.find? fun w => w.key = key

/-- What a run that shows `l` makes of the block under `key`. -/
def AsWritten (l : List (BlockWrite κ β)) (key : κ) (before after : Fin n → β) : Prop :=
  match lastWrite l key with
  | some w => w.Written after
  | none => after = before

theorem lastWrite_cons (w : BlockWrite κ β) (l : List (BlockWrite κ β)) (key : κ) :
    lastWrite (w :: l) key = (lastWrite l key).or (if w.key = key then some w else none) := by
  rw [lastWrite, List.reverse_cons, List.find?_append, lastWrite, List.find?_cons]
  by_cases here : w.key = key <;> simp [here]

theorem lastWrite_concat (l : List (BlockWrite κ β)) (w : BlockWrite κ β) (key : κ) :
    lastWrite (l ++ [w]) key = if w.key = key then some w else lastWrite l key := by
  rw [lastWrite, List.reverse_append, List.reverse_singleton, List.singleton_append,
    List.find?_cons, lastWrite]
  by_cases here : w.key = key <;> simp [here]

variable {blocks after : κ → Fin n → β}

theorem storeBlock_self (w : BlockWrite κ β) (rest : Fin n → β) :
    w.Written (storeBlock blocks w rest w.key) := by
  intro i inside
  rw [storeBlock, Function.update_self, if_pos inside]

theorem storeBlock_of_ne {w : BlockWrite κ β} {key : κ} (other : key ≠ w.key) (rest : Fin n → β) :
    storeBlock blocks w rest key = blocks key :=
  Function.update_of_ne other _ blocks

/-- A change of one block that starts as written is a write. -/
theorem shows_write {w : BlockWrite κ β} (here : w.Written (after w.key))
    (others : ∀ key, key ≠ w.key → after key = blocks key) :
    (blockStore κ β n).Shows storeLabel blocks [w] after := by
  have made : storeBlock blocks w (after w.key) = after := by
    funext key i
    by_cases same : key = w.key
    · subst key
      rw [storeBlock, Function.update_self]
      split
      · rename_i inside
        exact (here i inside).symm
      · rfl
    · rw [storeBlock_of_ne same, others key same]
  exact ⟨[(w, after w.key)], by simp [Machine.run, blockStore, made], rfl⟩

theorem AsWritten.cons {w : BlockWrite κ β} {rest block : Fin n → β} {l : List (BlockWrite κ β)}
    {key : κ} (written : AsWritten l key (storeBlock blocks w rest key) block) :
    AsWritten (w :: l) key (blocks key) block := by
  unfold AsWritten at written ⊢
  rw [lastWrite_cons]
  cases last : lastWrite l key with
  | some x =>
    rw [last] at written
    exact written
  | none =>
    rw [last] at written
    by_cases here : w.key = key
    · subst key
      rw [Option.none_or, if_pos rfl, written]
      exact storeBlock_self w rest
    · rw [Option.none_or, if_neg here, written]
      exact storeBlock_of_ne (Ne.symm here) rest

/-- Every block is as the last write to it says. -/
theorem asWritten_of_shows {l : List (BlockWrite κ β)}
    (shown : (blockStore κ β n).Shows storeLabel blocks l after) (key : κ) :
    AsWritten l key (blocks key) (after key) := by
  obtain ⟨es, steps, rfl⟩ := shown
  induction es generalizing blocks with
  | nil =>
    cases steps
    rfl
  | cons e es ih =>
    have rest : AsWritten ((blockStore κ β n).trace storeLabel (storeBlock blocks e.1 e.2) es) key
        (storeBlock blocks e.1 e.2 key) (after key) := ih steps
    exact rest.cons

end Store

end BurstBuffer.Library
