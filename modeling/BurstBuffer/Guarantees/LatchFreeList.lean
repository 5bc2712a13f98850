import BurstBuffer.Invariants.LfListThreads

/-!
# The latch-free list under any interleaving

No step of any number of threads loses a node of lflist, brings a removed one back or
counts one twice, as long as no call looks for the data `0` of the dummy head.
-/
namespace BurstBuffer.Guarantees

open Source Library

/-- What holds whenever a thread is about to make a step. -/
structure NothingLost {τ : Type} [DecidableEq τ] (s : ListSystem τ) : Prop where
  frozen : ∀ es t, (∀ e ∈ es, KeyedCalls s e) → (listMachine τ).run s es = some t →
    ∀ a, s.list.Marked a → t.list.next a = s.list.next a
  unlinks : ∀ e t, listNext s e = some t → ∀ a, Follows s.list.link LfList.head a →
    ¬ Follows t.list.link LfList.head a → s.list.Marked a
  swaps : ∀ w vars left rightNode, s.pc w = .swapLeft vars rightNode →
    vars.leftNode = some left → s.list.next left = vars.leftNodeNext →
    left < rightNode ∧ ∀ a, left < a → a < rightNode → s.list.Marked a
  reachable : ∀ a ≤ s.list.tail, ¬ s.list.Marked a →
    (∀ c ≤ a, ∀ w old, s.pc w ≠ .linkOld old c) → Follows s.list.link LfList.head a
  ordered : ∀ path : List Nat, path.IsChain (fun a b => s.list.link a = some b) →
    path.Pairwise (· < ·)
  removedOnce : s.removed.Nodup
  count : (∀ w, ∃ reply, s.pc w = .ready reply) → s.removed ⊆ s.appended ∧
    s.list.count = (s.appended.length - s.removed.length) % 2 ^ 64

/-- Every state that any threads reach loses and revives nothing. The count is one of 64 bits. -/
theorem nothing_lost (τ : Type) [Fintype τ] [DecidableEq τ] (s : ListSystem τ)
    (reach : (listMachine τ).ReachableBy KeyedCalls s) : NothingLost s := by
  have ok := ListSystemOk.of_reachable reach
  constructor
  · intro es t keyed steps a marked
    exact ok.frozen_run keyed steps marked
  · intro e t step a before after
    exact ok.marked_of_unlinked step before after
  · intro w vars left rightNode here leftNode same
    have knows := ok.thread w
    rw [here] at knows
    obtain ⟨_, _, left', next, leftNode', leftNodeNext, less, order, passed⟩ := knows
    cases leftNode.symm.trans leftNode'
    rw [leftNodeNext] at same
    refine ⟨Nat.lt_of_lt_of_le less order, fun a low high => ?_⟩
    rcases Nat.lt_or_ge a next with before | behind
    · have linked : s.list.link left = some next := by
        rw [LfList.link, same]
        rfl
      exact ok.list.skips.jumps left next a linked low before
    · exact passed a behind high
  · intro a inside unmarked linked
    exact ok.follows inside unmarked linked
  · intro path chain
    exact ok.list.skips.sorted chain
  · exact ok.removed_nodup
  · intro rest
    exact ok.count_at_rest rest

/-- Two threads append `5` and `7`, the second one links first. Then `5` is removed, and a
search for `7` takes its node out. -/
def twoThreads : List (ListEvent (Fin 2)) :=
  [.call 0 (.append 5), .call 1 (.append 7), .step 0, .step 1, .step 1, .step 0, .step 1, .step 0,
    .call 0 (.remove 5)] ++ List.replicate 11 (.step 0) ++ [.call 1 (.search 7 none)] ++
    List.replicate 8 (.step 1)

theorem twoThreads_keyed : ∀ e ∈ twoThreads, ∀ s : ListSystem (Fin 2), KeyedCalls s e := by
  simp [twoThreads, KeyedCalls, ListCall.Keyed]

def idleSystem (τ : Type) : ListSystem τ := ⟨.new, fun _ => .ready .done, [], []⟩

theorem nothing_lost_two : ∃ s : ListSystem (Fin 2),
    s.appended = [2, 1] ∧ s.removed = [1] ∧ s.list.link LfList.head = some 2 ∧ NothingLost s := by
  have runs : ((listMachine (Fin 2)).run (idleSystem (Fin 2)) twoThreads).any (fun s =>
      s.appended = [2, 1] ∧ s.removed = [1] ∧ s.list.link LfList.head = some 2) = true := by
    decide +kernel
  obtain ⟨s, steps, shape⟩ := (Option.any_eq_true _ _).mp runs
  obtain ⟨appended, removed, first⟩ := of_decide_eq_true shape
  have initial : (listMachine (Fin 2)).init (idleSystem (Fin 2)) := ⟨rfl, fun _ => rfl, rfl, rfl⟩
  refine ⟨s, appended, removed, first, ?_⟩
  exact nothing_lost (Fin 2) s (.run (.init initial) twoThreads_keyed steps)

end BurstBuffer.Guarantees
