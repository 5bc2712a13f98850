import BurstBuffer.Source.BlockSwap
import BurstBuffer.Invariants.Ownership

/-!
# Owners while blocks are being swapped

Between the two stores of a swap the inode still shows the block it has given
away. Its owner in effect is what it will show: in effect each block keeps one
owner, as long as a volume's block is not read while a swap of it is under way.
-/
namespace BurstBuffer.Source

open Library

section Places

variable {N : Nat}

namespace SwapPc

/-- The request and the block of a writer between its read of the volume's block
index and its store there. -/
def reading : SwapPc N → Option (Request N × BlockIdx N)
  | .copy r ownerless | .storeVolume r ownerless => some (r, ownerless)
  | _ => none

/-- The same up to its store of the inode's block index: the block it copies into. -/
def swapping : SwapPc N → Option (Request N × BlockIdx N)
  | .copy r ownerless | .storeVolume r ownerless | .storeInode r ownerless => some (r, ownerless)
  | _ => none

/-- The request of a writer that has given the inode's block to the volume. -/
def storing : SwapPc N → Option (Request N × BlockIdx N)
  | .storeInode r ownerless => some (r, ownerless)
  | _ => none

/-- The inode the writer has locked. -/
def locked : SwapPc N → Option (InodeIdx N)
  | .readVolume r | .copy r _ | .storeVolume r _ | .storeInode r _ | .unlockInode r => some r.inode
  | _ => none

theorem swapping_of_reading {pc : SwapPc N} {x : Request N × BlockIdx N}
    (reads : pc.reading = some x) : pc.swapping = some x := by
  cases pc <;> first | exact reads | cases reads

theorem locked_of_swapping {pc : SwapPc N} {x : Request N × BlockIdx N}
    (swaps : pc.swapping = some x) : pc.locked = some x.1.inode := by
  cases pc <;> cases swaps <;> rfl

theorem reading_or_storing {pc : SwapPc N} {x : Request N × BlockIdx N}
    (swaps : pc.swapping = some x) : pc.reading = some x ∨ pc.storing = some x := by
  cases pc <;> first | exact Or.inl swaps | exact Or.inr swaps

end SwapPc

end Places

variable {W : Type} {N : Nat} [DecidableEq W] {a : Assignment N} {s t : SwapState W N}

@[simp] theorem SwapState.goto_writer (s : SwapState W N) (w : W) (pc : SwapPc N) :
    (s.goto w pc).writer = Function.update s.writer w pc := rfl

theorem swapNext_others {e : SwapEvent W N} (step : swapNext a s e = some t) {w : W}
    (other : w ≠ e.writer) : t.writer w = s.writer w := by
  unfold swapNext at step
  dsimp only at step
  split at step
  all_goals
    try split at step
    all_goals
      cases step
      try exact Function.update_of_ne other _ _

/-- A writer in a swap has the lock of its inode to itself. -/
structure SwapLocks (s : SwapState W N) : Prop where
  held : ∀ w i, (s.writer w).locked = some i → s.lock i = true
  alone : ∀ w w' i, (s.writer w).locked = some i → (s.writer w').locked = some i → w = w'

namespace SwapLocks

/-- A writer that keeps what it has locked. -/
theorem goto (locks : SwapLocks s) {w : W} {pc : SwapPc N} (same : t.lock = s.lock)
    (writers : t.writer = Function.update s.writer w pc)
    (place : pc.locked = (s.writer w).locked) : SwapLocks t := by
  have places : ∀ w', (t.writer w').locked = (s.writer w').locked := by
    intro w'
    rw [writers]
    by_cases here : w' = w
    · subst w'
      rw [Function.update_self, place]
    · rw [Function.update_of_ne here]
  constructor
  · intro w' i locked
    rw [places] at locked
    rw [same]
    exact locks.held w' i locked
  · intro w' w'' i locked locked'
    rw [places] at locked locked'
    exact locks.alone w' w'' i locked locked'

theorem acquire (locks : SwapLocks s) {w : W} {pc : SwapPc N} {i : InodeIdx N}
    (free : s.lock i = false) (lock : t.lock = Function.update s.lock i true)
    (writers : t.writer = Function.update s.writer w pc) (place : pc.locked = some i) :
    SwapLocks t := by
  have none : ∀ w', (s.writer w').locked ≠ some i := by
    intro w' locked
    rw [locks.held w' i locked] at free
    cases free
  constructor
  · intro w' j locked
    rw [writers] at locked
    rw [lock]
    by_cases here : j = i
    · subst j
      rw [Function.update_self]
    · rw [Function.update_of_ne here]
      by_cases mine : w' = w
      · subst w'
        rw [Function.update_self, place] at locked
        exact absurd (Option.some.inj locked).symm here
      · rw [Function.update_of_ne mine] at locked
        exact locks.held w' j locked
  · intro w' w'' j locked locked'
    rw [writers] at locked locked'
    by_cases mine : w' = w <;> by_cases mine' : w'' = w
    · rw [mine, mine']
    · subst w'
      rw [Function.update_self, place] at locked
      rw [Function.update_of_ne mine', ← locked] at locked'
      exact absurd locked' (none w'')
    · subst w''
      rw [Function.update_self, place] at locked'
      rw [Function.update_of_ne mine, ← locked'] at locked
      exact absurd locked (none w')
    · rw [Function.update_of_ne mine] at locked
      rw [Function.update_of_ne mine'] at locked'
      exact locks.alone w' w'' j locked locked'

theorem release (locks : SwapLocks s) {w : W} {pc : SwapPc N} {i : InodeIdx N}
    (mine : (s.writer w).locked = some i) (lock : t.lock = Function.update s.lock i false)
    (writers : t.writer = Function.update s.writer w pc) (place : pc.locked = none) :
    SwapLocks t := by
  have others : ∀ w' j, (t.writer w').locked = some j → w' ≠ w ∧ (s.writer w').locked = some j := by
    intro w' j locked
    rw [writers] at locked
    by_cases here : w' = w
    · subst w'
      rw [Function.update_self, place] at locked
      cases locked
    · rw [Function.update_of_ne here] at locked
      exact ⟨here, locked⟩
  constructor
  · intro w' j locked
    obtain ⟨other, before⟩ := others w' j locked
    have apart : j ≠ i := by
      rintro rfl
      exact other (locks.alone w' w j before mine)
    rw [lock, Function.update_of_ne apart]
    exact locks.held w' j before
  · intro w' w'' j locked locked'
    exact locks.alone w' w'' j (others w' j locked).2 (others w'' j locked').2

theorem next (locks : SwapLocks s) {e : SwapEvent W N} (step : swapNext a s e = some t) :
    SwapLocks t := by
  unfold swapNext at step
  dsimp only at step
  split at step
  case h_1 pc =>
    split at step
    · cases step
      exact locks.goto rfl rfl (by rw [pc]; rfl)
    · cases step
  case h_2 r pc =>
    split at step
    · cases step
    · cases step
      exact locks.goto rfl rfl (by rw [pc]; rfl)
  case h_3 r pc =>
    split at step
    · cases step
    · rename_i free
      cases step
      exact locks.acquire (by simpa using free) rfl rfl rfl
  case h_8 r pc =>
    cases step
    exact locks.release (by rw [pc]; rfl) rfl rfl rfl
  all_goals
    rename_i pc
    cases step
    exact locks.goto rfl rfl (by rw [pc]; rfl)

end SwapLocks

/-- In effect an inode owns the block it is about to store, else the one it shows. -/
structure InEffect (s : SwapState W N) (owner : InodeIdx N → BlockIdx N) : Prop where
  distinct : Function.Injective (Sum.elim owner s.volumeBlock)
  storing : ∀ w x, (s.writer w).storing = some x → owner x.1.idx = x.2
  shown : ∀ i, (∀ w x, (s.writer w).storing = some x → x.1.idx ≠ i) → owner i = s.blockIndex i

structure SwapOk (a : Assignment N) (s : SwapState W N) : Prop where
  locks : SwapLocks s
  read : ∀ w x, (s.writer w).reading = some x → x.2 = s.volumeBlock (a.volume x.1.idx)
  volumes : ∀ w w' x x', (s.writer w).reading = some x → (s.writer w').reading = some x' →
    a.volume x.1.idx = a.volume x'.1.idx → w = w'
  indices : ∀ w w' x x', (s.writer w).swapping = some x → (s.writer w').swapping = some x' →
    x.1.idx = x'.1.idx → w = w'
  owned : ∃ owner, InEffect s owner

/-- No other call is between its read of the volume's block index and its store there. -/
def VolumeFree (a : Assignment N) (s : SwapState W N) (w : W) (r : Request N) : Prop :=
  ∀ w' x, w' ≠ w → (s.writer w').reading = some x → a.volume x.1.idx ≠ a.volume r.idx

/-- No other call swaps the block of another inode under the same computed index. -/
def IndexFree (s : SwapState W N) (w : W) (r : Request N) : Prop :=
  ∀ w' x, w' ≠ w → (s.writer w').swapping = some x → x.1.inode ≠ r.inode → x.1.idx ≠ r.idx

/-- A volume's block index is read while nobody else is swapping it, and no two
calls in flight have the same computed index. -/
def OneSwap (a : Assignment N) (s : SwapState W N) (e : SwapEvent W N) : Prop :=
  ∀ r, s.writer e.writer = .readVolume r → VolumeFree a s e.writer r ∧ IndexFree s e.writer r

namespace SwapOk

omit [DecidableEq W] in
theorem start (initial : SwapStart s) : SwapOk a s := by
  have idle := initial.idle
  refine ⟨⟨fun w i locked => ?_, fun w w' i locked => ?_⟩, fun w x reads => ?_,
    fun w w' x x' reads => ?_, fun w w' x x' swaps => ?_, s.blockIndex, initial.owned,
    fun w x stores => ?_, fun i _ => rfl⟩
  · rw [idle] at locked
    cases locked
  · rw [idle] at locked
    cases locked
  · rw [idle] at reads
    cases reads
  · rw [idle] at reads
    cases reads
  · rw [idle] at swaps
    cases swaps
  · rw [idle] at stores
    cases stores

/-- A step that moves no writer into, through or out of its swap. -/
theorem quiet (ok : SwapOk a s) (locks : SwapLocks t) {w : W} {pc : SwapPc N}
    (writers : t.writer = Function.update s.writer w pc)
    (blocks : t.blockIndex = s.blockIndex ∧ t.volumeBlock = s.volumeBlock)
    (place : pc.reading = (s.writer w).reading ∧ pc.swapping = (s.writer w).swapping ∧
      pc.storing = (s.writer w).storing) : SwapOk a t := by
  have places : ∀ w', (t.writer w').reading = (s.writer w').reading ∧
      (t.writer w').swapping = (s.writer w').swapping ∧
      (t.writer w').storing = (s.writer w').storing := by
    intro w'
    rw [writers]
    by_cases here : w' = w
    · subst w'
      rw [Function.update_self]
      exact place
    · rw [Function.update_of_ne here]
      exact ⟨rfl, rfl, rfl⟩
  obtain ⟨owner, effect⟩ := ok.owned
  refine ⟨locks, fun w' x reads => ?_, fun w' w'' x x' reads reads' => ?_,
    fun w' w'' x x' swaps swaps' => ?_, owner, ?_, fun w' x stores => ?_, fun i away => ?_⟩
  · rw [(places w').1] at reads
    rw [blocks.2]
    exact ok.read w' x reads
  · rw [(places _).1] at reads reads'
    exact ok.volumes w' w'' x x' reads reads'
  · rw [(places _).2.1] at swaps swaps'
    exact ok.indices w' w'' x x' swaps swaps'
  · rw [blocks.2]
    exact effect.distinct
  · rw [(places w').2.2] at stores
    exact effect.storing w' x stores
  · rw [blocks.1]
    apply effect.shown i
    intro w' x stores
    exact away w' x (by rw [(places w').2.2]; exact stores)

/-- The read of the volume's block index. -/
theorem readVolume (ok : SwapOk a s) {w : W} {r : Request N} (pc : s.writer w = .readVolume r)
    (volumeFree : VolumeFree a s w r) (indexFree : IndexFree s w r) :
    SwapOk a (s.goto w (.copy r (s.volumeBlock (a.volume r.idx)))) := by
  have locks : SwapLocks (s.goto w (.copy r (s.volumeBlock (a.volume r.idx)))) :=
    ok.locks.goto rfl rfl (by rw [pc]; rfl)
  have apart : ∀ w' x, w' ≠ w → (s.writer w').swapping = some x → x.1.idx ≠ r.idx := by
    intro w' x other swaps
    apply indexFree w' x other swaps
    intro same
    have mine : (s.writer w).locked = some r.inode := by rw [pc]; rfl
    have locked := SwapPc.locked_of_swapping swaps
    rw [same] at locked
    exact other (ok.locks.alone w' w r.inode locked mine)
  obtain ⟨owner, effect⟩ := ok.owned
  refine ⟨locks, fun w' x reads => ?_, fun w' w'' x x' reads reads' same => ?_,
    fun w' w'' x x' swaps swaps' same => ?_, owner, effect.distinct, fun w' x stores => ?_,
    fun i away => ?_⟩
  · by_cases here : w' = w
    · subst w'
      rw [SwapState.goto_writer, Function.update_self] at reads
      cases reads
      rfl
    · rw [SwapState.goto_writer, Function.update_of_ne here] at reads
      exact ok.read w' x reads
  · rw [SwapState.goto_writer] at reads reads'
    by_cases here : w' = w <;> by_cases there : w'' = w
    · rw [here, there]
    · subst w'
      rw [Function.update_self] at reads
      rw [Function.update_of_ne there] at reads'
      cases reads
      exact absurd same.symm (volumeFree w'' x' there reads')
    · subst w''
      rw [Function.update_self] at reads'
      rw [Function.update_of_ne here] at reads
      cases reads'
      exact absurd same (volumeFree w' x here reads)
    · rw [Function.update_of_ne here] at reads
      rw [Function.update_of_ne there] at reads'
      exact ok.volumes w' w'' x x' reads reads' same
  · rw [SwapState.goto_writer] at swaps swaps'
    by_cases here : w' = w <;> by_cases there : w'' = w
    · rw [here, there]
    · subst w'
      rw [Function.update_self] at swaps
      rw [Function.update_of_ne there] at swaps'
      cases swaps
      exact absurd same.symm (apart w'' x' there swaps')
    · subst w''
      rw [Function.update_self] at swaps'
      rw [Function.update_of_ne here] at swaps
      cases swaps'
      exact absurd same (apart w' x here swaps)
    · rw [Function.update_of_ne here] at swaps
      rw [Function.update_of_ne there] at swaps'
      exact ok.indices w' w'' x x' swaps swaps' same
  · rw [SwapState.goto_writer] at stores
    by_cases here : w' = w
    · subst w'
      rw [Function.update_self] at stores
      cases stores
    · rw [Function.update_of_ne here] at stores
      exact effect.storing w' x stores
  · apply effect.shown i
    intro w' x stores
    apply away w' x
    have other : w' ≠ w := by
      rintro rfl
      rw [pc] at stores
      cases stores
    rw [SwapState.goto_writer, Function.update_of_ne other]
    exact stores

/-- The store of the volume's block index: in effect the two blocks change hands here. -/
theorem storeVolume (ok : SwapOk a s) {w : W} {r : Request N} {ownerless : BlockIdx N}
    (pc : s.writer w = .storeVolume r ownerless) : SwapOk a ({ s with
      volumeBlock := Function.update s.volumeBlock (a.volume r.idx) (s.blockIndex r.idx) }.goto w
        (.storeInode r ownerless)) := by
  have mine : (s.writer w).reading = some (r, ownerless) := by rw [pc]; rfl
  have inside := SwapPc.swapping_of_reading mine
  obtain ⟨owner, effect⟩ := ok.owned
  have shown : owner r.idx = s.blockIndex r.idx := by
    apply effect.shown
    intro w' x stores same
    have swaps : (s.writer w').swapping = some x := by
      cases here : s.writer w' <;> rw [here] at stores <;> first | exact stores | cases stores
    have one := ok.indices w' w x _ swaps inside same
    rw [one, pc] at stores
    cases stores
  have current : ownerless = s.volumeBlock (a.volume r.idx) := ok.read w _ mine
  obtain ⟨t, after⟩ : ∃ t, t = ({ s with
      volumeBlock := Function.update s.volumeBlock (a.volume r.idx) (s.blockIndex r.idx) } :
        SwapState W N).goto w (.storeInode r ownerless) := ⟨_, rfl⟩
  have writers : t.writer = Function.update s.writer w (.storeInode r ownerless) := by
    rw [after]
    rfl
  have self : t.writer w = .storeInode r ownerless := by rw [writers, Function.update_self]
  have others : ∀ w', w' ≠ w → t.writer w' = s.writer w' := by
    intro w' other
    rw [writers, Function.update_of_ne other]
  rw [← after]
  refine ⟨ok.locks.goto (by rw [after]; rfl) writers (by rw [pc]; rfl), fun w' x reads => ?_,
    fun w' w'' x x' reads reads' same => ?_, fun w' w'' x x' swaps swaps' same => ?_,
    Function.update owner r.idx ownerless, ?_, fun w' x stores => ?_, fun i away => ?_⟩
  · have other : w' ≠ w := by
      rintro rfl
      rw [self] at reads
      cases reads
    rw [others w' other] at reads
    have elsewhere : a.volume x.1.idx ≠ a.volume r.idx := fun same =>
      other (ok.volumes w' w x _ reads mine same)
    rw [after]
    simp only [SwapState.goto, Function.update_of_ne elsewhere]
    exact ok.read w' x reads
  · have still : ∀ v y, (t.writer v).reading = some y → (s.writer v).reading = some y := by
      intro v y reads
      have other : v ≠ w := by
        rintro rfl
        rw [self] at reads
        cases reads
      rw [← others v other]
      exact reads
    exact ok.volumes w' w'' x x' (still w' x reads) (still w'' x' reads') same
  · have still : ∀ v y, (t.writer v).swapping = some y → (s.writer v).swapping = some y := by
      intro v y swaps
      by_cases here : v = w
      · rw [here, self] at swaps
        rw [here, inside]
        exact swaps
      · rw [← others v here]
        exact swaps
    exact ok.indices w' w'' x x' (still w' x swaps) (still w'' x' swaps') same
  · have moved : Sum.elim (Function.update owner r.idx ownerless) t.volumeBlock =
        Sum.elim owner s.volumeBlock ∘ Equiv.swap (Sum.inl r.idx) (Sum.inr (a.volume r.idx)) := by
      rw [after, current, ← elim_exchange, shown]
      rfl
    rw [moved]
    exact effect.distinct.comp (Equiv.injective _)
  · by_cases here : w' = w
    · rw [here, self] at stores
      cases stores
      exact Function.update_self _ _ _
    · rw [others w' here] at stores
      have swaps : (s.writer w').swapping = some x := by
        cases place : s.writer w' <;> rw [place] at stores <;> first | exact stores | cases stores
      have apart : x.1.idx ≠ r.idx := fun same => here (ok.indices w' w x _ swaps inside same)
      rw [Function.update_of_ne apart]
      exact effect.storing w' x stores
  · have apart : i ≠ r.idx := fun same =>
      away w (r, ownerless) (by rw [self]; rfl) same.symm
    rw [Function.update_of_ne apart, after]
    apply effect.shown i
    intro w' x stores
    have other : w' ≠ w := by
      rintro rfl
      rw [pc] at stores
      cases stores
    exact away w' x (by rw [others w' other]; exact stores)

/-- The store of the inode's block index shows what holds already. -/
theorem storeInode (ok : SwapOk a s) {w : W} {r : Request N} {ownerless : BlockIdx N}
    (pc : s.writer w = .storeInode r ownerless) : SwapOk a ({ s with
      blockIndex := Function.update s.blockIndex r.idx ownerless }.goto w (.unlockInode r)) := by
  have mine : (s.writer w).storing = some (r, ownerless) := by rw [pc]; rfl
  obtain ⟨owner, effect⟩ := ok.owned
  obtain ⟨t, after⟩ : ∃ t, t = ({ s with
      blockIndex := Function.update s.blockIndex r.idx ownerless } : SwapState W N).goto w
        (.unlockInode r) := ⟨_, rfl⟩
  have writers : t.writer = Function.update s.writer w (.unlockInode r) := by
    rw [after]
    rfl
  have volumes : t.volumeBlock = s.volumeBlock := by
    rw [after]
    rfl
  have self : t.writer w = .unlockInode r := by rw [writers, Function.update_self]
  have others : ∀ w', w' ≠ w → t.writer w' = s.writer w' := by
    intro w' other
    rw [writers, Function.update_of_ne other]
  -- whoever is in a swap now is another writer, and has been there before
  have still : ∀ {β : Type} (place : SwapPc N → Option β), place (.unlockInode r) = none →
      ∀ v y, place (t.writer v) = some y → v ≠ w ∧ place (s.writer v) = some y := by
    intro β place out v y here
    have other : v ≠ w := by
      rintro rfl
      rw [self, out] at here
      cases here
    rw [others v other] at here
    exact ⟨other, here⟩
  rw [← after]
  refine ⟨ok.locks.goto (by rw [after]; rfl) writers (by rw [pc]; rfl), fun w' x reads => ?_,
    fun w' w'' x x' reads reads' => ?_, fun w' w'' x x' swaps swaps' => ?_, owner, ?_,
    fun w' x stores => ?_, fun i away => ?_⟩
  · rw [volumes]
    exact ok.read w' x (still SwapPc.reading rfl w' x reads).2
  · exact ok.volumes w' w'' x x' (still SwapPc.reading rfl w' x reads).2
      (still SwapPc.reading rfl w'' x' reads').2
  · exact ok.indices w' w'' x x' (still SwapPc.swapping rfl w' x swaps).2
      (still SwapPc.swapping rfl w'' x' swaps').2
  · rw [volumes]
    exact effect.distinct
  · exact effect.storing w' x (still SwapPc.storing rfl w' x stores).2
  · rw [after]
    simp only [SwapState.goto]
    by_cases here : i = r.idx
    · subst i
      rw [Function.update_self]
      exact effect.storing w (r, ownerless) mine
    · rw [Function.update_of_ne here]
      apply effect.shown i
      intro w' x stores
      by_cases same : w' = w
      · rw [same, mine] at stores
        cases stores
        exact Ne.symm here
      · exact away w' x (by rw [others w' same]; exact stores)

theorem next (ok : SwapOk a s) {e : SwapEvent W N} (allowed : OneSwap a s e)
    (step : swapNext a s e = some t) : SwapOk a t := by
  have locks := ok.locks.next step
  unfold swapNext at step
  dsimp only at step
  split at step
  case h_4 r pc =>
    cases step
    obtain ⟨volumeFree, indexFree⟩ := allowed r pc
    exact ok.readVolume pc volumeFree indexFree
  case h_6 r ownerless pc =>
    cases step
    exact ok.storeVolume pc
  case h_7 r ownerless pc =>
    cases step
    exact ok.storeInode pc
  case h_1 pc =>
    split at step
    · cases step
      exact ok.quiet locks rfl ⟨rfl, rfl⟩ (by rw [pc]; exact ⟨rfl, rfl, rfl⟩)
    · cases step
  case h_2 r pc | h_3 r pc =>
    split at step
    · cases step
    · cases step
      exact ok.quiet locks rfl ⟨rfl, rfl⟩ (by rw [pc]; exact ⟨rfl, rfl, rfl⟩)
  all_goals
    rename_i pc
    cases step
    exact ok.quiet locks rfl ⟨rfl, rfl⟩ (by rw [pc]; exact ⟨rfl, rfl, rfl⟩)

theorem of_reachable (reach : (swaps W a).ReachableBy (OneSwap a) s) : SwapOk a s :=
  reach.invariant (fun _ initial => start initial) fun _ _ _ ok allowed step =>
    ok.next allowed step

end SwapOk

end BurstBuffer.Source
