import BurstBuffer.Invariants.FlushThreads

/-!
# Flush threads take turns with the volumes

However many threads flush, and however many allocate volumes and fill dirty
queues meanwhile.
-/
namespace BurstBuffer.Guarantees

open Library Source

variable {τ : Type} [DecidableEq τ] {N : Nat} [NeZero N]

structure FlushesAlone (s : FlushState τ N) : Prop where
  /-- A volume whose first enqueue is done is once in the queue or with one flush thread. -/
  place : ∀ v, s.inuse.Published v →
    s.inuse.waits v = 1 ∧ (∀ θ, v ∉ (s.pc θ).holding) ∨
    s.inuse.waits v = 0 ∧ ∃! θ, v ∈ (s.pc θ).holding
  /-- It stays one. -/
  kept : ∀ v, s.inuse.Published v → ∀ e t, flushNext s e = some t → t.inuse.Published v
  /-- A dirty queue has one consumer at a time. -/
  consumer : ∀ v θ η ticket other, ((s.dirty v).pc θ).consuming = some ticket →
    ((s.dirty v).pc η).consuming = some other → θ = η
  /-- A call of enqueue has claimed the ticket before. -/
  claimed : ∀ v θ ticket, ((s.dirty v).pc θ).consuming = some ticket →
    ∃ idx, (s.dirty v).passed ticket = some idx

section Derive

variable [Fintype τ] {s : FlushState τ N}

/-- Whoever consumes from a dirty queue is in the first loop of nvm_flush. -/
theorem collects (ok : FlushOk s) {v : VolumeIdx} {θ : τ} {ticket : Nat}
    (consumes : ((s.dirty v).pc θ).consuming = some ticket) :
    ∃ iIdxs n writeSize, s.pc θ = .collect v iIdxs n writeSize := by
  have at' := ok.dirtyAt θ v
  have notIdle : (s.dirty v).pc θ ≠ .idle := by
    intro idle
    rw [idle] at consumes
    cases consumes
  have notProducing : ∀ t idx, ((s.dirty v).pc θ).producing ≠ some (t, idx) := by
    intro t idx producing
    cases place : (s.dirty v).pc θ <;> rw [place] at consumes producing <;> cases consumes <;>
      cases producing
  cases here : s.pc θ with
  | collect w iIdxs n writeSize =>
    rw [here] at at'
    by_cases home : w = v
    · subst w
      exact ⟨iIdxs, n, writeSize, rfl⟩
    · simp only [FlushPc.dirtyUse, if_neg home] at at'
      exact absurd at' notIdle
  | dirtyEnqueue w idx | enqueueAgain w _ _ _ idx =>
    rw [here] at at'
    by_cases home : w = v
    · simp only [FlushPc.dirtyUse, if_pos home] at at'
      rcases at' with idle | ⟨t, producing⟩
      · exact absurd idle notIdle
      · exact absurd producing (notProducing t idx)
    · simp only [FlushPc.dirtyUse, if_neg home] at at'
      exact absurd at' notIdle
  | _ =>
    rw [here] at at'
    exact absurd at' notIdle

theorem place_of_flushOk (ok : FlushOk s) {v : VolumeIdx} (enqueued : s.inuse.Published v) :
    s.inuse.waits v = 1 ∧ (∀ θ, v ∉ (s.pc θ).holding) ∨
      s.inuse.waits v = 0 ∧ ∃! θ, v ∈ (s.pc θ).holding := by
  obtain ⟨notFree, notAllocating⟩ := ok.fresh v enqueued
  have total := ok.tokens v
  rw [notFree, notAllocating] at total
  by_cases held : copies (fun θ => (s.pc θ).holding) v = 0
  · refine Or.inl ⟨by omega, copies_eq_zero.mp held⟩
  · obtain ⟨θ, mine⟩ := copies_pos.mp (Nat.pos_of_ne_zero held)
    exact Or.inr ⟨by omega, θ, mine, fun η theirs => ok.holding_alone theirs mine⟩

theorem claimed_of_flushOk (ok : FlushOk s) {v : VolumeIdx} {θ : τ} {ticket : Nat}
    (consumes : ((s.dirty v).pc θ).consuming = some ticket) :
    ∃ idx, (s.dirty v).passed ticket = some idx := by
  obtain ⟨iIdxs, n, writeSize, here⟩ := collects ok consumes
  have budget := ok.budget θ
  have inside : ((s.dirty v).pc θ).outside = false := by
    cases place : (s.dirty v).pc θ <;> rw [place] at consumes <;> first | rfl | cases consumes
  rw [here] at budget
  simp only [FlushPc.Budget, inside, Bool.false_eq_true, if_false] at budget
  obtain ⟨low, high, _⟩ := ((QueueOk.of_reachable (ok.dirty v)).threads θ).consumer ticket consumes
  exact passed_of_reachable (ok.dirty v) low (by omega)

end Derive

/-- In every interleaving, from its first enqueue on a volume is once in the queue or with one
flush thread, its dirty queue has one consumer at a time, and the entry consumed has a ticket
already. -/
theorem flushes_alone (τ : Type) [Fintype τ] [DecidableEq τ] (N : Nat) [NeZero N]
    (s : FlushState τ N) (reach : (flushMachine τ N).Reachable s) : FlushesAlone s := by
  have ok := FlushOk.of_reachable reach
  constructor
  · exact fun v enqueued => place_of_flushOk ok enqueued
  · intro v enqueued e t next
    obtain ⟨θ, pc, step⟩ := ok.next next
    rcases step.inuse with same | ⟨f, queueStep⟩
    · rw [same]
      exact enqueued
    · exact (QueueOk.of_reachable ok.inuse).published_next queueStep enqueued
  · intro v θ η ticket other consumes consumes'
    obtain ⟨_, _, _, here⟩ := collects ok consumes
    obtain ⟨_, _, _, there⟩ := collects ok consumes'
    refine ok.holding_alone (v := v) ?_ ?_
    · rw [here]
      exact List.mem_cons_self
    · rw [there]
      exact List.mem_cons_self
  · exact fun v θ ticket consumes => claimed_of_flushOk ok consumes

/-- The entry queue of a new system. -/
def filledFree : Option (QueueState Bool VolumeIdx maxVolumeEntry) :=
  (List.finRange maxVolumeEntry).foldlM (enqueueWhole true) (.initial fun _ => 0)

/-- One thread allocates an entry, the other one dequeues it to flush it. -/
def takeFirst : List (FlushEvent Bool 1) :=
  .alloc true :: List.replicate 10 (.advance true false) ++
    .flush false :: List.replicate 6 (.advance false false)

def filledStart (free : QueueState Bool VolumeIdx maxVolumeEntry) : FlushState Bool 1 where
  free := free
  inuse := .initial fun _ => 0
  dirty _ := .initial fun _ => 0
  dirtyCount := 0
  pc _ := .idle

theorem flushes_alone_first : ∃ s : FlushState Bool 1,
    (s.pc false).holding = [0] ∧ FlushesAlone s := by
  have runs : (filledFree.bind fun free => (flushMachine Bool 1).run (filledStart free)
      takeFirst).any (fun s => decide ((s.pc false).holding = [0])) = true := by decide +kernel
  cases reached : filledFree.bind fun free => (flushMachine Bool 1).run (filledStart free)
      takeFirst with
  | none =>
    rw [reached] at runs
    cases runs
  | some s =>
    rw [reached] at runs
    obtain ⟨free, filled, steps⟩ := Option.bind_eq_some_iff.mp reached
    have start : FlushStart (filledStart free) :=
      ⟨⟨_, true, filled⟩, ⟨_, rfl⟩, fun _ => ⟨_, rfl⟩, rfl, fun _ => rfl⟩
    exact ⟨s, of_decide_eq_true runs, flushes_alone Bool 1 s (.run (.init start) steps)⟩

end BurstBuffer.Guarantees
