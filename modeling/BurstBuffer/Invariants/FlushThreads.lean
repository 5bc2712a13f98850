import BurstBuffer.Invariants.QueueCalls

/-!
# A volume entry is one token

An entry lies in the free queue or in the queue of volumes in use, is on its way
from one to the other with the thread that allocates it, or is in the hands of one
flush thread. So the dirty queue of a volume has one consumer at a time, and what
this consumer has seen of the queue's size is still there when it dequeues.
-/
namespace BurstBuffer.Source

open Library

variable {τ : Type} {N : Nat} [NeZero N]

namespace FlushPc

/-- The entry the thread has taken from the free queue and not yet put into use. -/
def allocating : FlushPc N → List VolumeIdx
  | .allocEnqueue v => [v]
  | _ => []

/-- The volume the thread has dequeued and not yet enqueued again. -/
def holding : FlushPc N → List VolumeIdx
  | .dirtyGetSize v | .dirtyGetSizeLoad v _ | .flushGetSize v | .flushGetSizeLoad v _
  | .collect v _ _ _ | .tryLock v _ _ _ _ | .enqueueAgain v _ _ _ _ | .handOff v _
  | .inuseEnqueue v => [v]
  | _ => []

def freeUse : FlushPc N → QueueUse VolumeIdx
  | .freeDequeue => .dequeue
  | _ => .none

def inuseUse : FlushPc N → QueueUse VolumeIdx
  | .allocEnqueue v | .inuseEnqueue v => .enqueue v
  | .inuseDequeue => .dequeue
  | _ => .none

def dirtyUse (w : VolumeIdx) : FlushPc N → QueueUse (InodeIdx N)
  | .dirtyEnqueue v idx | .enqueueAgain v _ _ _ idx => if v = w then .enqueue idx else .none
  | .collect v _ _ _ => if v = w then .dequeue else .none
  | _ => .none

/-- What the thread knows of the size of the dirty queue it drains: the tickets it
may still take have been claimed by producers. -/
def Budget (dirty : VolumeIdx → QueueState τ (InodeIdx N) N) (θ : τ) : FlushPc N → Prop
  | .flushGetSizeLoad v pCount => pCount ≤ (dirty v).pCount
  | .collect v iIdxs _ writeSize =>
    if ((dirty v).pc θ).outside then
      iIdxs.length < writeSize → (dirty v).cCount + writeSize ≤ (dirty v).pCount + iIdxs.length
    else iIdxs.length < writeSize ∧
      (dirty v).cCount + writeSize ≤ (dirty v).pCount + iIdxs.length + 1
  | .tryLock v iIdxs _ writeSize _ => iIdxs.length < writeSize ∧
    (dirty v).cCount + writeSize ≤ (dirty v).pCount + iIdxs.length + 1
  | .enqueueAgain v iIdxs _ writeSize _ => iIdxs.length < writeSize ∧
    (dirty v).cCount + writeSize ≤ (dirty v).pCount + iIdxs.length +
      if ((dirty v).pc θ).outside then 1 else 0
  | _ => True

omit [NeZero N] in
/-- Producers do not shorten it. -/
theorem Budget.mono {dirty dirty' : VolumeIdx → QueueState τ (InodeIdx N) N} {θ : τ}
    {pc : FlushPc N} (budget : pc.Budget dirty θ)
    (counts : ∀ v ∈ pc.holding, (dirty v).pCount ≤ (dirty' v).pCount ∧
      (dirty' v).cCount = (dirty v).cCount ∧ (dirty' v).pc θ = (dirty v).pc θ) :
    pc.Budget dirty' θ := by
  cases pc with
  | flushGetSizeLoad v pCount =>
    obtain ⟨grown, _, _⟩ := counts v List.mem_cons_self
    exact Nat.le_trans budget grown
  | collect v iIdxs n writeSize =>
    obtain ⟨grown, same, here⟩ := counts v List.mem_cons_self
    simp only [Budget, here, same] at budget ⊢
    split at budget
    · rename_i outside
      rw [if_pos outside]
      intro more
      have bound := budget more
      omega
    · rename_i inside
      rw [if_neg inside]
      omega
  | tryLock v iIdxs n writeSize idx =>
    obtain ⟨grown, same, _⟩ := counts v List.mem_cons_self
    simp only [Budget, same] at budget ⊢
    omega
  | enqueueAgain v iIdxs n writeSize idx =>
    obtain ⟨grown, same, here⟩ := counts v List.mem_cons_self
    simp only [Budget, here, same] at budget ⊢
    omega
  | _ => trivial

end FlushPc

variable [Fintype τ] [DecidableEq τ]

structure FlushOk (s : FlushState τ N) : Prop where
  free : (queueMachine τ VolumeIdx maxVolumeEntry).Reachable s.free
  inuse : (queueMachine τ VolumeIdx maxVolumeEntry).Reachable s.inuse
  dirty : ∀ v, (queueMachine τ (InodeIdx N) N).Reachable (s.dirty v)
  freeAt : ∀ θ, (s.pc θ).freeUse.At (s.free.pc θ)
  inuseAt : ∀ θ, (s.pc θ).inuseUse.At (s.inuse.pc θ)
  dirtyAt : ∀ θ v, ((s.pc θ).dirtyUse v).At ((s.dirty v).pc θ)
  tokens : ∀ v, s.free.waits v + s.inuse.waits v + copies (fun θ => (s.pc θ).allocating) v +
    copies (fun θ => (s.pc θ).holding) v = 1
  fresh : ∀ v, s.inuse.Published v →
    s.free.waits v = 0 ∧ copies (fun θ => (s.pc θ).allocating) v = 0
  budget : ∀ θ, (s.pc θ).Budget s.dirty θ

/-- What a step of `θ`, which ends at `pc`, does to the queues and the tokens. -/
structure FlushStep (s t : FlushState τ N) (θ : τ) (pc : FlushPc N) : Prop where
  moved : t.pc = Function.update s.pc θ pc
  free : t.free = s.free ∨ ∃ e, queueNext s.free e = some t.free
  inuse : t.inuse = s.inuse ∨ ∃ e, queueNext s.inuse e = some t.inuse
  dirty : ∀ v, t.dirty v = s.dirty v ∨ ∃ e, queueNext (s.dirty v) e = some (t.dirty v)
  freeOthers : ∀ η, η ≠ θ → t.free.pc η = s.free.pc η
  inuseOthers : ∀ η, η ≠ θ → t.inuse.pc η = s.inuse.pc η
  dirtyOthers : ∀ η, η ≠ θ → ∀ v, (t.dirty v).pc η = (s.dirty v).pc η
  freeAt : pc.freeUse.At (t.free.pc θ)
  inuseAt : pc.inuseUse.At (t.inuse.pc θ)
  dirtyAt : ∀ v, (pc.dirtyUse v).At ((t.dirty v).pc θ)
  tokens : ∀ v, t.free.waits v + t.inuse.waits v + pc.allocating.count v + pc.holding.count v =
    s.free.waits v + s.inuse.waits v + (s.pc θ).allocating.count v + (s.pc θ).holding.count v
  fresh : ∀ v, t.free.waits v + pc.allocating.count v ≤
    s.free.waits v + (s.pc θ).allocating.count v
  published : ∀ v, t.inuse.Published v → s.inuse.Published v ∨ 0 < t.inuse.waits v
  counts : ∀ v, (s.dirty v).pCount ≤ (t.dirty v).pCount ∧
    ((t.dirty v).cCount = (s.dirty v).cCount ∨ v ∈ (s.pc θ).holding)
  budget : pc.Budget t.dirty θ

namespace FlushOk

variable {s t : FlushState τ N} {θ : τ} {pc : FlushPc N}

/-- A volume is in the hands of one thread. -/
theorem holding_alone (ok : FlushOk s) {η : τ} {v : VolumeIdx} (mine : v ∈ (s.pc θ).holding)
    (theirs : v ∈ (s.pc η).holding) : θ = η := by
  have total := ok.tokens v
  exact eq_of_copies_le_one (F := fun θ => (s.pc θ).holding) (by omega) mine theirs

theorem step (ok : FlushOk s) (step : FlushStep s t θ pc) : FlushOk t := by
  have here : t.pc θ = pc := by
    rw [step.moved, Function.update_self]
  have there : ∀ η, η ≠ θ → t.pc η = s.pc η := by
    intro η other
    rw [step.moved, Function.update_of_ne other]
  have allocating := fun v => copies_goto FlushPc.allocating s.pc θ pc v
  have holding := fun v => copies_goto FlushPc.holding s.pc θ pc v
  rw [← step.moved] at allocating holding
  have tokens : ∀ v, t.free.waits v + t.inuse.waits v +
      copies (fun θ => (t.pc θ).allocating) v + copies (fun θ => (t.pc θ).holding) v = 1 := by
    intro v
    have before := ok.tokens v
    have change := step.tokens v
    have moved := allocating v
    have moved' := holding v
    omega
  refine ⟨?_, ?_, fun v => ?_, fun η => ?_, fun η => ?_, fun η v => ?_, tokens,
    fun v enqueued => ?_,
    fun η => ?_⟩
  · rcases step.free with same | ⟨e, next⟩
    · exact same ▸ ok.free
    · exact ok.free.step next
  · rcases step.inuse with same | ⟨e, next⟩
    · exact same ▸ ok.inuse
    · exact ok.inuse.step next
  · rcases step.dirty v with same | ⟨e, next⟩
    · exact same ▸ ok.dirty v
    · exact (ok.dirty v).step next
  · by_cases mine : η = θ
    · subst η
      rw [here]
      exact step.freeAt
    · rw [there η mine, step.freeOthers η mine]
      exact ok.freeAt η
  · by_cases mine : η = θ
    · subst η
      rw [here]
      exact step.inuseAt
    · rw [there η mine, step.inuseOthers η mine]
      exact ok.inuseAt η
  · by_cases mine : η = θ
    · subst η
      rw [here]
      exact step.dirtyAt v
    · rw [there η mine, step.dirtyOthers η mine]
      exact ok.dirtyAt η v
  · have total := tokens v
    rcases step.published v enqueued with old | waits
    · have before := ok.fresh v old
      have change := step.fresh v
      have moved := allocating v
      omega
    · omega
  · by_cases mine : η = θ
    · subst η
      rw [here]
      exact step.budget
    · rw [there η mine]
      refine (ok.budget η).mono fun v holds => ?_
      obtain ⟨grown, same | consumer⟩ := step.counts v
      · exact ⟨grown, same, step.dirtyOthers η mine v⟩
      · exact absurd (ok.holding_alone holds consumer) mine

/-- A step that is not in a queue. -/
theorem outside_step (ok : FlushOk s) {before : FlushPc N} (was : s.pc θ = before)
    (free : before.freeUse = .none) (inuse : before.inuseUse = .none)
    (dirty : ∀ v, (s.dirty v).pc θ = .idle) (moved : t.pc = Function.update s.pc θ pc)
    (queues : t.free = s.free ∧ t.inuse = s.inuse ∧ t.dirty = s.dirty)
    (allocating : pc.allocating = before.allocating) (holding : pc.holding = before.holding)
    (budget : pc.Budget s.dirty θ) : FlushStep s t θ pc := by
  subst was
  obtain ⟨sameFree, sameInuse, sameDirty⟩ := queues
  have freeIdle : s.free.pc θ = .idle := by
    have at' := ok.freeAt θ
    rwa [free] at at'
  have inuseIdle : s.inuse.pc θ = .idle := by
    have at' := ok.inuseAt θ
    rwa [inuse] at at'
  refine ⟨moved, .inl sameFree, .inl sameInuse, fun v => .inl (by rw [sameDirty]),
    fun _ _ => by rw [sameFree], fun _ _ => by rw [sameInuse], fun _ _ _ => by rw [sameDirty],
    ?_, ?_, fun v => ?_, fun v => ?_, fun v => ?_, fun v enqueued => ?_, fun v => ?_, ?_⟩
  · rw [sameFree, freeIdle]
    exact QueueUse.at_idle _
  · rw [sameInuse, inuseIdle]
    exact QueueUse.at_idle _
  · rw [sameDirty, dirty]
    exact QueueUse.at_idle _
  · rw [sameFree, sameInuse, allocating, holding]
  · rw [sameFree, allocating]
  · rw [sameInuse] at enqueued
    exact Or.inl enqueued
  · rw [sameDirty]
    exact ⟨Nat.le_refl _, Or.inl rfl⟩
  · rw [sameDirty]
    exact budget

/-- A step of alloc_volume_entry_idx in the free queue. -/
theorem freeDequeue_step (ok : FlushOk s) {returned : Option VolumeIdx}
    {q : QueueState τ VolumeIdx maxVolumeEntry} (here : s.pc θ = .freeDequeue)
    (called : callDequeue θ s.free = some (returned, q))
    (target : pc = match returned with | none => .freeDequeue | some v => .allocEnqueue v) :
    FlushStep s ({ s with free := q }.goto θ pc) θ pc := by
  have use := ok.freeAt θ
  have inuseIdle := ok.inuseAt θ
  have dirtyIdle := fun v => ok.dirtyAt θ v
  rw [here] at use inuseIdle
  simp only [here] at dirtyIdle
  have effect := (QueueOk.of_reachable ok.free).callDequeue use called
  refine ⟨rfl, .inr (callDequeue_next called), .inl rfl,
    fun _ => .inl rfl, effect.others, fun _ _ => rfl, fun _ _ _ => rfl, ?_, ?_, fun v => ?_,
    fun x => ?_, fun x => ?_, fun x enqueued => .inl enqueued, fun v => ⟨Nat.le_refl _, .inl rfl⟩,
    ?_⟩
  · have mine := effect.mine
    cases returned with
    | none =>
      subst target
      exact Or.inr mine
    | some v =>
      subst target
      exact mine
  · exact QueueUse.at_of_idle inuseIdle
  · exact QueueUse.at_of_idle (dirtyIdle v)
  · have waits := effect.waits x
    rw [here]
    cases returned with
    | none =>
      subst target
      simp [FlushState.goto, FlushPc.allocating, FlushPc.holding] at waits ⊢
      omega
    | some v =>
      subst target
      simp [FlushState.goto, FlushPc.allocating, FlushPc.holding, List.count_singleton] at waits ⊢
      omega
  · have waits := effect.waits x
    rw [here]
    cases returned with
    | none =>
      subst target
      simp [FlushState.goto, FlushPc.allocating] at waits ⊢
      omega
    | some v =>
      subst target
      simp [FlushState.goto, FlushPc.allocating, List.count_singleton] at waits ⊢
      omega
  · cases returned <;> subst target <;> trivial

/-- A step of a call that puts a volume into use, for the first time or again. -/
theorem inuseEnqueue_step (ok : FlushOk s) {v : VolumeIdx} {returned : Bool}
    {q : QueueState τ VolumeIdx maxVolumeEntry}
    (here : s.pc θ = .allocEnqueue v ∨ s.pc θ = .inuseEnqueue v)
    (called : callEnqueue θ v s.inuse = some (returned, q))
    (target : pc = if returned then .idle else s.pc θ) :
    FlushStep s ({ s with inuse := q }.goto θ pc) θ pc := by
  have use := ok.inuseAt θ
  have freeIdle := ok.freeAt θ
  have dirtyIdle := fun w => ok.dirtyAt θ w
  have uses : (s.pc θ).inuseUse = .enqueue v ∧ (s.pc θ).freeUse = .none ∧
      ∀ w, (s.pc θ).dirtyUse w = .none := by
    rcases here with here | here <;> rw [here] <;> exact ⟨rfl, rfl, fun _ => rfl⟩
  obtain ⟨enqueues, freeNone, dirtyNone⟩ := uses
  have token : ∀ x, (s.pc θ).allocating.count x + (s.pc θ).holding.count x =
      if v = x then 1 else 0 := by
    intro x
    rcases here with here | here <;> rw [here] <;>
      simp [FlushPc.allocating, FlushPc.holding, List.count_singleton]
  rw [enqueues] at use
  rw [freeNone] at freeIdle
  simp only [dirtyNone] at dirtyIdle
  have effect := (QueueOk.of_reachable ok.inuse).callEnqueue use called
  refine ⟨rfl, .inl rfl, .inr (callEnqueue_next called),
    fun _ => .inl rfl, fun _ _ => rfl, effect.others, fun _ _ _ => rfl, ?_, ?_, fun w => ?_,
    fun x => ?_, fun x => ?_, fun x enqueued => ?_, fun w => ⟨Nat.le_refl _, .inl rfl⟩, ?_⟩
  · exact QueueUse.at_of_idle freeIdle
  · have mine := effect.mine
    cases returned with
    | false =>
      subst target
      rw [if_neg (by decide), enqueues]
      exact Or.inr mine
    | true =>
      subst target
      exact mine
  · exact QueueUse.at_of_idle (dirtyIdle w)
  · have waits := effect.waits x
    have mine := token x
    change s.free.waits x + q.waits x + _ + _ = _
    cases returned with
    | false =>
      rw [if_neg (by decide)] at target
      rw [if_neg (by simp)] at waits
      rw [target, waits]
      rfl
    | true =>
      have gone : pc.allocating.count x = 0 ∧ pc.holding.count x = 0 := by
        subst target
        exact ⟨rfl, rfl⟩
      simp only [true_and] at waits
      omega
  · cases returned with
    | false =>
      subst target
      exact Nat.le_refl _
    | true =>
      subst target
      simp [FlushState.goto, FlushPc.allocating]
  · rcases (effect.published x).mp enqueued with old | ⟨done, rfl⟩
    · exact Or.inl old
    · have waits := effect.waits v
      rw [if_pos ⟨done, rfl⟩] at waits
      change s.inuse.Published v ∨ 0 < q.waits v
      exact Or.inr (by omega)
  · cases returned with
    | false =>
      subst target
      rcases here with here | here <;> rw [if_neg (by decide), here] <;> trivial
    | true =>
      subst target
      trivial

/-- A step of the dequeue of a flush thread. -/
theorem inuseDequeue_step (ok : FlushOk s) {returned : Option VolumeIdx}
    {q : QueueState τ VolumeIdx maxVolumeEntry} (here : s.pc θ = .inuseDequeue)
    (called : callDequeue θ s.inuse = some (returned, q))
    (target : pc = match returned with | none => .inuseDequeue | some v => .dirtyGetSize v) :
    FlushStep s ({ s with inuse := q }.goto θ pc) θ pc := by
  have use := ok.inuseAt θ
  have freeIdle := ok.freeAt θ
  have dirtyIdle := fun v => ok.dirtyAt θ v
  rw [here] at use freeIdle
  simp only [here] at dirtyIdle
  have effect := (QueueOk.of_reachable ok.inuse).callDequeue use called
  refine ⟨rfl, .inl rfl, .inr (callDequeue_next called),
    fun _ => .inl rfl, fun _ _ => rfl, effect.others, fun _ _ _ => rfl, ?_, ?_, fun v => ?_,
    fun x => ?_, fun x => ?_, fun x enqueued => .inl ((effect.published x).mp enqueued),
    fun v => ⟨Nat.le_refl _, .inl rfl⟩, ?_⟩
  · exact QueueUse.at_of_idle freeIdle
  · have mine := effect.mine
    cases returned with
    | none =>
      subst target
      exact Or.inr mine
    | some v =>
      subst target
      exact mine
  · exact QueueUse.at_of_idle (dirtyIdle v)
  · have waits := effect.waits x
    rw [here]
    cases returned with
    | none =>
      subst target
      simp [FlushState.goto, FlushPc.allocating, FlushPc.holding] at waits ⊢
      omega
    | some v =>
      subst target
      simp [FlushState.goto, FlushPc.allocating, FlushPc.holding, List.count_singleton] at waits ⊢
      omega
  · rw [here]
    cases returned <;> subst target <;> exact Nat.le_refl _
  · cases returned <;> subst target <;> trivial

omit [Fintype τ] [DecidableEq τ] in
theorem setDirty_self (v : VolumeIdx) (q : QueueState τ (InodeIdx N) N) :
    (s.setDirty v q).dirty v = q := by
  unfold FlushState.setDirty
  dsimp only
  rw [Function.update_self]

omit [Fintype τ] [DecidableEq τ] in
theorem setDirty_other {v w : VolumeIdx} (q : QueueState τ (InodeIdx N) N) (other : w ≠ v) :
    (s.setDirty v q).dirty w = s.dirty w := by
  unfold FlushState.setDirty
  dsimp only
  rw [Function.update_of_ne other]

omit [Fintype τ] [DecidableEq τ] in
theorem setDirty_pc (v w : VolumeIdx) (q : QueueState τ (InodeIdx N) N) {η : τ}
    (same : q.pc η = (s.dirty v).pc η) : ((s.setDirty v q).dirty w).pc η = (s.dirty w).pc η := by
  by_cases home : w = v
  · subst w
    rw [setDirty_self, same]
  · rw [setDirty_other q home]

omit [Fintype τ] in
theorem setDirty_dirty {v : VolumeIdx} {q : QueueState τ (InodeIdx N) N}
    (next : ∃ e, queueNext (s.dirty v) e = some q) (w : VolumeIdx) :
    (s.setDirty v q).dirty w = s.dirty w ∨
      ∃ e, queueNext (s.dirty w) e = some ((s.setDirty v q).dirty w) := by
  by_cases home : w = v
  · subst w
    rw [setDirty_self]
    exact Or.inr next
  · exact Or.inl (setDirty_other q home)

/-- A step of a call that enqueues an inode into a dirty queue. -/
theorem dirtyEnqueue_step (ok : FlushOk s) {v : VolumeIdx} {idx : InodeIdx N} {returned : Bool}
    {q : QueueState τ (InodeIdx N) N} {before : FlushPc N} (was : s.pc θ = before)
    (free : before.freeUse = .none) (inuse : before.inuseUse = .none)
    (dirty : ∀ w, before.dirtyUse w = if v = w then .enqueue idx else .none)
    (called : callEnqueue θ idx (s.dirty v) = some (returned, q))
    (stays : returned = false → pc = before) (allocating : pc.allocating = before.allocating)
    (holding : pc.holding = before.holding)
    (budget : Enqueued θ idx (s.dirty v) q returned → pc.Budget (s.setDirty v q).dirty θ) :
    FlushStep s ((s.setDirty v q).goto θ pc) θ pc := by
  subst was
  have use := ok.dirtyAt θ v
  have freeIdle := ok.freeAt θ
  have inuseIdle := ok.inuseAt θ
  rw [dirty, if_pos rfl] at use
  rw [free] at freeIdle
  rw [inuse] at inuseIdle
  have effect := (QueueOk.of_reachable (ok.dirty v)).callEnqueue use called
  refine ⟨rfl, .inl rfl, .inl rfl, fun w => ?_, fun _ _ => rfl,
    fun _ _ => rfl, fun η other w => setDirty_pc v w q (effect.others η other), ?_, ?_, fun w => ?_,
    fun x => ?_, fun x => ?_, fun x enqueued => .inl enqueued, fun w => ?_, budget effect⟩
  · exact setDirty_dirty (callEnqueue_next called) w
  · exact QueueUse.at_of_idle freeIdle
  · exact QueueUse.at_of_idle inuseIdle
  · change (pc.dirtyUse w).At (((s.setDirty v q).dirty w).pc θ)
    by_cases home : w = v
    · subst w
      rw [setDirty_self]
      have mine := effect.mine
      cases returned with
      | false =>
        rw [stays rfl, dirty, if_pos rfl]
        exact Or.inr mine
      | true =>
        exact QueueUse.at_of_idle mine
    · rw [setDirty_other q home]
      have rest := ok.dirtyAt θ w
      rw [dirty, if_neg (Ne.symm home)] at rest
      exact QueueUse.at_of_idle rest
  · rw [allocating, holding]
    rfl
  · rw [allocating]
    exact Nat.le_refl _
  · change (s.dirty w).pCount ≤ ((s.setDirty v q).dirty w).pCount ∧
      (((s.setDirty v q).dirty w).cCount = (s.dirty w).cCount ∨ _)
    by_cases home : w = v
    · subst w
      rw [setDirty_self, effect.pCount, effect.cCount]
      exact ⟨Nat.le_add_right _ _, Or.inl rfl⟩
    · rw [setDirty_other q home]
      exact ⟨Nat.le_refl _, Or.inl rfl⟩

/-- A step of a dequeue of nvm_flush. -/
theorem collect_step (ok : FlushOk s) {v : VolumeIdx} {iIdxs : List (InodeIdx N)}
    {n writeSize : Int} {returned : Option (InodeIdx N)} {q : QueueState τ (InodeIdx N) N}
    (here : s.pc θ = .collect v iIdxs n writeSize) (more : iIdxs.length < writeSize)
    (called : callDequeue θ (s.dirty v) = some (returned, q))
    (target : pc = match returned with
      | none => .collect v iIdxs n writeSize
      | some idx => .tryLock v iIdxs n writeSize idx) :
    FlushStep s ((s.setDirty v q).goto θ pc) θ pc := by
  have use := ok.dirtyAt θ v
  have freeIdle := ok.freeAt θ
  have inuseIdle := ok.inuseAt θ
  have budget := ok.budget θ
  rw [here] at use freeIdle inuseIdle budget
  simp only [FlushPc.dirtyUse, if_true] at use
  have effect := (QueueOk.of_reachable (ok.dirty v)).callDequeue use called
  have tokens : pc.allocating = (s.pc θ).allocating ∧ pc.holding = (s.pc θ).holding := by
    rw [here]
    cases returned <;> subst target <;> exact ⟨rfl, rfl⟩
  refine ⟨rfl, .inl rfl, .inl rfl, fun w => ?_, fun _ _ => rfl,
    fun _ _ => rfl, fun η other w => setDirty_pc v w q (effect.others η other), ?_, ?_, fun w => ?_,
    fun x => ?_, fun x => ?_, fun x enqueued => .inl enqueued, fun w => ?_, ?_⟩
  · exact setDirty_dirty (callDequeue_next called) w
  · exact QueueUse.at_of_idle freeIdle
  · exact QueueUse.at_of_idle inuseIdle
  · change (pc.dirtyUse w).At (((s.setDirty v q).dirty w).pc θ)
    by_cases home : w = v
    · subst w
      rw [setDirty_self]
      have mine := effect.mine
      cases returned with
      | none =>
        subst target
        simp only [FlushPc.dirtyUse, if_true]
        exact Or.inr mine
      | some idx =>
        exact QueueUse.at_of_idle mine
    · rw [setDirty_other q home]
      have rest := ok.dirtyAt θ w
      rw [here] at rest
      simp only [FlushPc.dirtyUse, if_neg (Ne.symm home)] at rest
      exact QueueUse.at_of_idle rest
  · rw [tokens.1, tokens.2]
    rfl
  · rw [tokens.1]
    exact Nat.le_refl _
  · change (s.dirty w).pCount ≤ ((s.setDirty v q).dirty w).pCount ∧
      (((s.setDirty v q).dirty w).cCount = (s.dirty w).cCount ∨ _)
    by_cases home : w = v
    · subst w
      rw [setDirty_self, effect.pCount, here]
      exact ⟨Nat.le_refl _, Or.inr List.mem_cons_self⟩
    · rw [setDirty_other q home]
      exact ⟨Nat.le_refl _, Or.inl rfl⟩
  · have pCount := effect.pCount
    have cCount := effect.cCount
    -- the claim of a ticket uses up one of those the loop may still take
    have afterClaim : iIdxs.length < writeSize ∧
        q.cCount + writeSize ≤ q.pCount + iIdxs.length + 1 := by
      simp only [FlushPc.Budget] at budget
      rw [pCount, cCount]
      split at budget
      · rename_i outside
        rw [outside, if_pos rfl]
        have bound := budget more
        push_cast
        omega
      · rename_i inside
        rw [if_neg inside]
        exact budget
    cases returned with
    | none =>
      subst target
      have inside : (q.pc θ).outside = false := by
        obtain ⟨ticket, consuming⟩ : ∃ ticket, (q.pc θ).consuming = some ticket := effect.mine
        cases place : q.pc θ <;> rw [place] at consuming <;> first | rfl | cases consuming
      simp only [FlushPc.Budget, FlushState.goto, setDirty_self, inside]
      exact afterClaim
    | some idx =>
      subst target
      simp only [FlushPc.Budget, FlushState.goto, setDirty_self]
      exact afterClaim

omit [Fintype τ] in
theorem goto_self (s : FlushState τ N) (θ : τ) : s.goto θ (s.pc θ) = s := by
  unfold FlushState.goto
  rw [Function.update_eq_self]

theorem loadedSize_le (pCount cCount : Nat) : loadedSize pCount cCount ≤ pCount - cCount := by
  unfold loadedSize
  split
  · exact Nat.mod_le _ _
  · exact Nat.zero_le _

/-- The loop of nvm_flush starts with no more rounds than tickets have been claimed. -/
theorem budget_start (pCount cCount : Nat) {now : Nat} (grown : pCount ≤ now) {writeSize : Int}
    (size : writeSize ≤ numDirtyInodesOf (loadedSize pCount cCount)) (more : 0 < writeSize) :
    cCount + writeSize ≤ now := by
  have fewer := loadedSize_le pCount cCount
  have bound := numDirtyInodesOf_lt (loadedSize pCount cCount)
  omega

theorem call (ok : FlushOk s) {e : FlushEvent τ N} (step : flushCall θ s e = some t) :
    ∃ pc, FlushStep s t θ pc := by
  unfold flushCall at step
  split at step
  case h_2 => cases step
  rename_i here
  have dirtyIdle : ∀ v, (s.dirty v).pc θ = .idle := by
    intro v
    have at' := ok.dirtyAt θ v
    rwa [here] at at'
  cases e with
  | alloc η =>
    cases step
    exact ⟨_, ok.outside_step here rfl rfl dirtyIdle rfl ⟨rfl, rfl, rfl⟩ rfl rfl trivial⟩
  | makeDirty η v idx =>
    cases step
    exact ⟨_, ok.outside_step here rfl rfl dirtyIdle rfl ⟨rfl, rfl, rfl⟩ rfl rfl trivial⟩
  | flush η =>
    dsimp only at step
    split at step <;> cases step
    exact ⟨_, ok.outside_step here rfl rfl dirtyIdle rfl ⟨rfl, rfl, rfl⟩ rfl rfl trivial⟩
  | advance η locked => cases step

theorem advance (ok : FlushOk s) {locked : Bool} (step : flushAdvance θ locked s = some t) :
    ∃ pc, FlushStep s t θ pc := by
  have budget := ok.budget θ
  have dirtyIdle : (∀ v, (s.pc θ).dirtyUse v = .none) → ∀ v, (s.dirty v).pc θ = .idle := by
    intro none v
    have at' := ok.dirtyAt θ v
    rwa [none] at at'
  unfold flushAdvance at step
  cases here : s.pc θ with
  | idle =>
    rw [here] at step
    cases step
  | freeDequeue =>
    rw [here] at step
    obtain ⟨⟨returned, q⟩, called, rest⟩ := Option.bind_eq_some_iff.mp step
    cases returned with
    | none =>
      cases rest
      have same := ok.freeDequeue_step here called rfl
      dsimp only at same
      rw [← here] at same
      exact ⟨_, (goto_self { s with free := q } θ) ▸ same⟩
    | some v =>
      cases rest
      exact ⟨_, ok.freeDequeue_step here called rfl⟩
  | allocEnqueue v =>
    rw [here] at step
    obtain ⟨⟨returned, q⟩, called, rest⟩ := Option.bind_eq_some_iff.mp step
    cases returned with
    | false =>
      cases rest
      exact ⟨_, (goto_self { s with inuse := q } θ) ▸ ok.inuseEnqueue_step (Or.inl here) called rfl⟩
    | true =>
      cases rest
      exact ⟨_, ok.inuseEnqueue_step (Or.inl here) called rfl⟩
  | inuseEnqueue v =>
    rw [here] at step
    obtain ⟨⟨returned, q⟩, called, rest⟩ := Option.bind_eq_some_iff.mp step
    cases returned with
    | false =>
      cases rest
      exact ⟨_, (goto_self { s with inuse := q } θ) ▸ ok.inuseEnqueue_step (Or.inr here) called rfl⟩
    | true =>
      cases rest
      exact ⟨_, ok.inuseEnqueue_step (Or.inr here) called rfl⟩
  | inuseDequeue =>
    rw [here] at step
    obtain ⟨⟨returned, q⟩, called, rest⟩ := Option.bind_eq_some_iff.mp step
    cases returned with
    | none =>
      cases rest
      have same := ok.inuseDequeue_step here called rfl
      dsimp only at same
      rw [← here] at same
      exact ⟨_, (goto_self { s with inuse := q } θ) ▸ same⟩
    | some v =>
      cases rest
      exact ⟨_, ok.inuseDequeue_step here called rfl⟩
  | dirtyEnqueue v idx =>
    rw [here] at step
    obtain ⟨⟨returned, q⟩, called, rest⟩ := Option.bind_eq_some_iff.mp step
    cases returned with
    | false =>
      cases rest
      have same : FlushStep s ((s.setDirty v q).goto θ (s.pc θ)) θ (s.pc θ) :=
        ok.dirtyEnqueue_step here rfl rfl (fun _ => rfl) called (fun _ => here) (by rw [here])
        (by rw [here])
        fun _ => by rw [here]; trivial
      exact ⟨_, (goto_self (s.setDirty v q) θ) ▸ same⟩
    | true =>
      cases rest
      exact ⟨_, ok.dirtyEnqueue_step here rfl rfl (fun _ => rfl) called
        (fun again => absurd again.symm Bool.false_ne_true) rfl rfl
        fun _ => trivial⟩
  | collect v iIdxs n writeSize =>
    rw [here] at step
    dsimp only at step
    split at step
    · rename_i more
      obtain ⟨⟨returned, q⟩, called, rest⟩ := Option.bind_eq_some_iff.mp step
      cases returned with
      | none =>
        cases rest
        have same := ok.collect_step here more called rfl
        dsimp only at same
        rw [← here] at same
        exact ⟨_, (goto_self (s.setDirty v q) θ) ▸ same⟩
      | some idx =>
        cases rest
        exact ⟨_, ok.collect_step here more called rfl⟩
    · rename_i full
      cases step
      refine ⟨_, ok.outside_step here rfl rfl (fun w => ?_) rfl
        ⟨rfl, rfl, rfl⟩ rfl rfl trivial⟩
      have at' := ok.dirtyAt θ w
      rw [here] at at' budget
      by_cases home : v = w
      · subst w
        simp only [FlushPc.Budget] at budget
        split at budget
        · rename_i outside
          exact QueuePc.outside_iff.mp outside
        · exact absurd budget.1 full
      · simp only [FlushPc.dirtyUse, if_neg home] at at'
        exact at'
  | tryLock v iIdxs n writeSize idx =>
    rw [here] at step budget
    dsimp only at step
    have idle := dirtyIdle (fun w => by rw [here]; rfl)
    have outside : ((s.dirty v).pc θ).outside = true := by rw [idle]; rfl
    split at step
    · cases step
      refine ⟨_, ok.outside_step here rfl rfl idle rfl ⟨rfl, rfl, rfl⟩ rfl rfl ?_⟩
      simp only [FlushPc.Budget, outside, if_true] at budget ⊢
      exact budget
    · cases step
      refine ⟨_, ok.outside_step here rfl rfl idle rfl ⟨rfl, rfl, rfl⟩ rfl rfl ?_⟩
      simp only [FlushPc.Budget, outside, if_true, List.length_append, List.length_singleton]
        at budget ⊢
      omega
  | enqueueAgain v iIdxs n writeSize idx =>
    rw [here] at step budget
    obtain ⟨⟨returned, q⟩, called, rest⟩ := Option.bind_eq_some_iff.mp step
    cases returned with
    | false =>
      cases rest
      have same : FlushStep s ((s.setDirty v q).goto θ (s.pc θ)) θ (s.pc θ) :=
        ok.dirtyEnqueue_step here rfl rfl (fun _ => rfl) called (fun _ => here) (by rw [here])
        (by rw [here]) fun effect => by
          obtain ⟨ticket, producing⟩ : ∃ ticket, (q.pc θ).producing = some (ticket, idx) :=
            effect.mine
          have inside : (q.pc θ).outside = false := by
            cases place : q.pc θ <;> rw [place] at producing <;> first | rfl | cases producing
          rw [here]
          simp only [FlushPc.Budget, setDirty_self, inside] at budget ⊢
          rw [effect.pCount, effect.cCount]
          cases outside : ((s.dirty v).pc θ).outside <;> simp [outside] at budget ⊢ <;> omega
      exact ⟨_, (goto_self (s.setDirty v q) θ) ▸ same⟩
    | true =>
      cases rest
      refine ⟨_, ok.dirtyEnqueue_step here rfl rfl (fun _ => rfl) called
        (fun again => absurd again.symm Bool.false_ne_true) rfl rfl
        fun effect => ?_⟩
      have idle : q.pc θ = .idle := effect.mine
      have counts := effect.pCount
      rw [effect.inside rfl] at counts
      simp only [FlushPc.Budget, effect.inside rfl] at budget
      simp only [FlushPc.Budget, setDirty_self, idle, QueuePc.outside, if_true]
      rw [counts, effect.cCount]
      have fewer : (if n - 1 < flushBatchSize then writeSize - 1 else writeSize) ≤ writeSize := by
        split <;> omega
      intro more
      simp only [Bool.false_eq_true, if_false] at budget ⊢
      omega
  | dirtyGetSizeLoad v pCount =>
    rw [here] at step
    dsimp only at step
    have idle := dirtyIdle (fun w => by rw [here]; rfl)
    split at step <;> cases step <;>
      exact ⟨_, ok.outside_step here rfl rfl idle rfl ⟨rfl, rfl, rfl⟩ rfl rfl trivial⟩
  | flushGetSize v =>
    rw [here] at step
    cases step
    exact ⟨_, ok.outside_step here rfl rfl
      (dirtyIdle fun w => by rw [here]; rfl) rfl ⟨rfl, rfl, rfl⟩ rfl rfl (Nat.le_refl _)⟩
  | flushGetSizeLoad v pCount =>
    rw [here] at step budget
    cases step
    have idle := dirtyIdle (fun w => by rw [here]; rfl)
    have outside : ((s.dirty v).pc θ).outside = true := by rw [idle]; rfl
    refine ⟨_, ok.outside_step here rfl rfl idle rfl ⟨rfl, rfl, rfl⟩ rfl rfl ?_⟩
    simp only [FlushPc.Budget, outside, if_true, List.length_nil] at budget ⊢
    intro more
    have start := budget_start pCount (s.dirty v).cCount budget (by split <;> omega) more
    simpa using start
  | handOff v rest =>
    rw [here] at step
    have idle := dirtyIdle (fun w => by rw [here]; rfl)
    cases rest <;> cases step <;>
      exact ⟨_, ok.outside_step here rfl rfl idle rfl ⟨rfl, rfl, rfl⟩ rfl rfl trivial⟩
  | freeIsEmptyLoad pCount =>
    rw [here] at step
    dsimp only at step
    split at step <;> cases step
    exact ⟨_, ok.outside_step here rfl rfl
      (dirtyIdle fun w => by rw [here]; rfl) rfl ⟨rfl, rfl, rfl⟩ rfl rfl trivial⟩
  | inuseGetSizeLoad pCount =>
    rw [here] at step
    dsimp only at step
    have idle := dirtyIdle (fun w => by rw [here]; rfl)
    split at step <;> cases step <;>
      exact ⟨_, ok.outside_step here rfl rfl idle rfl ⟨rfl, rfl, rfl⟩ rfl rfl trivial⟩
  | freeIsEmpty | inuseGetSize | dirtyGetSize =>
    rw [here] at step
    cases step
    exact ⟨_, ok.outside_step here rfl rfl
      (dirtyIdle fun w => by rw [here]; rfl) rfl ⟨rfl, rfl, rfl⟩ rfl rfl trivial⟩

omit [Fintype τ] in
theorem enqueueWhole_spec {α : Type} [DecidableEq α] {capacity : Nat} [NeZero capacity]
    {q q' : QueueState τ α capacity} {value : α}
    (reach : (queueMachine τ α capacity).Reachable q) (idle : ∀ η, q.pc η = .idle)
    (whole : enqueueWhole θ q value = some q') :
    (queueMachine τ α capacity).Reachable q' ∧ (∀ η, q'.pc η = .idle) ∧
      ∀ x, q'.waits x = q.waits x + if value = x then 1 else 0 := by
  obtain ⟨⟨returned₁, q₁⟩, call₁, rest₁⟩ := Option.bind_eq_some_iff.mp whole
  obtain ⟨⟨returned₂, q₂⟩, call₂, rest₂⟩ := Option.bind_eq_some_iff.mp rest₁
  obtain ⟨⟨returned₃, q₃⟩, call₃, rest₃⟩ := Option.bind_eq_some_iff.mp rest₂
  obtain ⟨⟨returned₄, q₄⟩, call₄, rest₄⟩ := Option.bind_eq_some_iff.mp rest₃
  dsimp only at rest₄
  split at rest₄ <;> cases rest₄
  rename_i flags
  simp only [Bool.and_eq_true, Bool.not_eq_true'] at flags
  obtain ⟨⟨⟨rfl, rfl⟩, rfl⟩, rfl⟩ := flags
  have follow : ∀ {x y : QueueState τ α capacity} {r : Bool},
      (queueMachine τ α capacity).Reachable x → (QueueUse.enqueue value).At (x.pc θ) →
      callEnqueue θ value x = some (r, y) →
      (queueMachine τ α capacity).Reachable y ∧ Enqueued θ value x y r := by
    intro x y r before use called
    obtain ⟨e, next⟩ := callEnqueue_next called
    exact ⟨before.step next, (QueueOk.of_reachable before).callEnqueue use called⟩
  obtain ⟨reach₁, effect₁⟩ := follow reach (Or.inl (idle θ)) call₁
  obtain ⟨reach₂, effect₂⟩ := follow reach₁ (Or.inr effect₁.mine) call₂
  obtain ⟨reach₃, effect₃⟩ := follow reach₂ (Or.inr effect₂.mine) call₃
  obtain ⟨reach₄, effect₄⟩ := follow reach₃ (Or.inr effect₃.mine) call₄
  refine ⟨reach₄, fun η => ?_, fun x => ?_⟩
  · by_cases mine : η = θ
    · subst η
      exact effect₄.mine
    · rw [effect₄.others η mine, effect₃.others η mine, effect₂.others η mine,
        effect₁.others η mine, idle]
  · rw [effect₄.waits, effect₃.waits, effect₂.waits, effect₁.waits]
    simp

theorem start (start : FlushStart s) : FlushOk s := by
  obtain ⟨values, main, filled⟩ := start.free
  obtain ⟨reach, idle, waits⟩ := foldlM_invariant (f := enqueueWhole main)
    (I := fun rest q => (queueMachine τ VolumeIdx maxVolumeEntry).Reachable q ∧
      (∀ η, q.pc η = .idle) ∧
      ∀ x, q.waits x + rest.count x = (List.finRange maxVolumeEntry).count x)
    (fun v rest q q' before whole => by
      obtain ⟨reach, idle, waits⟩ := before
      obtain ⟨reach', idle', waits'⟩ := enqueueWhole_spec reach idle whole
      refine ⟨reach', idle', fun x => ?_⟩
      have total := waits x
      have more := waits' x
      rw [List.count_cons] at total
      simp only [beq_iff_eq] at total
      omega)
    ⟨.init ⟨values, rfl⟩, fun _ => rfl, fun x => by
      simp [QueueState.waits, QueueState.initial]⟩ filled
  have one : ∀ x, s.free.waits x = 1 := by
    intro x
    have total := waits x
    rw [List.count_nil, Nat.add_zero] at total
    rw [total]
    exact List.count_eq_one_of_mem (List.nodup_finRange _) (List.mem_finRange x)
  obtain ⟨inuseValues, inuse⟩ := start.inuse
  have empty : ∀ x, s.inuse.waits x = 0 := fun x => by
    rw [inuse]
    rfl
  have noTokens : (fun θ => (s.pc θ).allocating) = (fun _ => []) ∧
      (fun θ => (s.pc θ).holding) = (fun _ => []) := by
    constructor <;> funext θ <;> rw [start.idle] <;> rfl
  refine ⟨reach, ?_, fun v => ?_, fun θ => ?_, fun θ => ?_, fun θ v => ?_, fun v => ?_,
    fun v enqueued => ?_, fun θ => ?_⟩
  · rw [inuse]
    exact .init ⟨inuseValues, rfl⟩
  · obtain ⟨dirtyValues, dirty⟩ := start.dirty v
    rw [dirty]
    exact .init ⟨dirtyValues, rfl⟩
  · rw [idle]
    exact QueueUse.at_idle _
  · rw [inuse]
    exact QueueUse.at_idle _
  · obtain ⟨dirtyValues, dirty⟩ := start.dirty v
    rw [dirty]
    exact QueueUse.at_idle _
  · rw [noTokens.1, noTokens.2, copies_nil, one, empty]
  · obtain ⟨ticket, member, _⟩ := enqueued
    rw [inuse] at member
    cases member
  · rw [start.idle]
    trivial

theorem next (ok : FlushOk s) {e : FlushEvent τ N} (step : flushNext s e = some t) :
    ∃ θ pc, FlushStep s t θ pc := by
  cases e with
  | alloc θ => exact ⟨θ, ok.call (e := .alloc θ) step⟩
  | makeDirty θ v idx => exact ⟨θ, ok.call (e := .makeDirty θ v idx) step⟩
  | flush θ => exact ⟨θ, ok.call (e := .flush θ) step⟩
  | advance θ locked => exact ⟨θ, ok.advance step⟩

theorem of_reachable (reach : (flushMachine τ N).Reachable s) : FlushOk s :=
  reach.invariant (fun _ => start) fun _ _ _ _ ok next => by
    obtain ⟨_, _, step⟩ := ok.next next
    exact ok.step step

end FlushOk

end BurstBuffer.Source
