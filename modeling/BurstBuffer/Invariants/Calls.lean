import BurstBuffer.Invariants.CallHeap
import BurstBuffer.Invariants.HandOff

/-!
# What calls and balloon threads hold

An inode that no node points to is one token, which lies in a free queue, is in
the hands of a call that has taken it, or of the balloon thread that frees it. A
locked node is one token of the call or balloon thread that will unlock it. A key
without a valid node is up to one call at a time: `missing`.
-/
namespace BurstBuffer.Source

open Library

section Places

variable {N : Nat}

/-- The writer has yet to store DIRTY. -/
def WriterPc.Clear : WriterPc N → Prop
  | .lockInode _ | .readState _ | .storeDirty _ _ => True
  | _ => False

namespace CallPc

/-- The inode the call has taken from a free queue and not yet published. -/
def taken : CallPc N → List (InodeIdx N)
  | .storeKey _ _ idx | .uncount _ _ idx | .publish _ _ idx => [idx]
  | _ => []

/-- The node whose mutex the call holds. -/
def holds : CallPc N → List NodePtr
  | .recheck _ p | .release _ p | .readInode _ p | .inBlock _ p => [p]
  | _ => []

/-- The node the call takes to be valid without looking again. -/
def relies : CallPc N → List NodePtr
  | .lockNode _ p true | .readInode _ p | .inBlock _ p => [p]
  | _ => []

/-- The key under which the call has found no valid node, until it has published one. -/
def missing : CallPc N → Option (VolumeIdx × Nat)
  | .isValid c none | .isEnough c _ | .nextFree c _ | .dequeue c _ _ | .storeKey c _ _
  | .uncount c _ _ | .publish c _ _ => some (c.volume, c.lbn)
  | _ => none

/-- The call will make the inode of node `p` DIRTY. -/
def Dirties (writer : WriterPc N) (p : NodePtr) : CallPc N → Prop
  | .lockNode _ q true | .readInode _ q => q = p
  | .inBlock _ q => q = p ∧ writer.Clear
  | _ => False

/-- The call is in the block of its node. -/
def inside : CallPc N → Bool
  | .inBlock _ _ => true
  | _ => false

theorem ne_inBlock {pc : CallPc N} (outside : pc.inside = false) (c : Call) (p : NodePtr) :
    pc ≠ .inBlock c p := by
  intro same
  rw [same] at outside
  cases outside

theorem not_missing {pc : CallPc N} {P : VolumeIdx × Nat → Prop} (none : pc.missing = none)
    (key : VolumeIdx × Nat) (missing : pc.missing = some key) : P key := by
  rw [none] at missing
  cases missing

/-- What the call knows of the nodes and keys. -/
def Local (h : HeapView N) (writer : WriterPc N) : CallPc N → Prop
  | .idle | .search _ => True
  | .isValid c found => h.nodeAt c.volume c.lbn = found
  | .isEnough c found | .nextFree c found | .dequeue c found _ | .storeKey c found _ =>
    h.Missing c found
  | .uncount c found idx | .publish c found idx =>
    h.Missing c found ∧ h.volume idx = some c.volume ∧ h.lbn idx = c.lbn
  | .lockNode c p fresh =>
    h.nodeAt c.volume c.lbn = some p ∧ (fresh = true → (h.inode p).isSome)
  | .recheck c p | .release c p => h.nodeAt c.volume c.lbn = some p
  | .readInode c p => h.nodeAt c.volume c.lbn = some p ∧ (h.inode p).isSome
  | .inBlock c p => h.nodeAt c.volume c.lbn = some p ∧
    ∃ r, writer.request = some r ∧ h.inode p = some r.inode

/-- Changes elsewhere do not touch it. -/
theorem Local.change {h h' : HeapView N} {writer : WriterPc N} {pc : CallPc N}
    (old : pc.Local h writer)
    (kept : ∀ v l p, h.nodeAt v l = some p → h'.nodeAt v l = some p)
    (missing : ∀ v l, pc.missing = some (v, l) → h'.nodeAt v l = h.nodeAt v l ∧
      ∀ p, h.nodeAt v l = some p → h'.inode p = h.inode p)
    (relied : ∀ p ∈ pc.relies, h'.inode p = h.inode p)
    (taken : ∀ i ∈ pc.taken, h'.volume i = h.volume i ∧ h'.lbn i = h.lbn i) :
    pc.Local h' writer := by
  cases pc with
  | idle | search => trivial
  | isValid c found =>
    cases found with
    | none => exact (missing _ _ rfl).1.trans old
    | some p => exact kept _ _ p old
  | isEnough c found | nextFree c found | dequeue c found | storeKey c found =>
    obtain ⟨same, nodes⟩ := missing _ _ rfl
    exact ⟨same.trans old.1, fun p here => (nodes p (old.1.trans here)).trans (old.2 p here)⟩
  | uncount c found idx | publish c found idx =>
    obtain ⟨same, nodes⟩ := missing _ _ rfl
    obtain ⟨volume, lbn⟩ := taken idx List.mem_cons_self
    obtain ⟨⟨here, empty⟩, carried⟩ := old
    exact ⟨⟨same.trans here, fun p seen => (nodes p (here.trans seen)).trans (empty p seen)⟩,
      volume.trans carried.1, lbn.trans carried.2⟩
  | lockNode c p fresh =>
    refine ⟨kept _ _ p old.1, fun isFresh => ?_⟩
    subst isFresh
    rw [relied p List.mem_cons_self]
    exact old.2 rfl
  | recheck c p | release c p => exact kept _ _ p old
  | readInode c p =>
    refine ⟨kept _ _ p old.1, ?_⟩
    rw [relied p List.mem_cons_self]
    exact old.2
  | inBlock c p =>
    obtain ⟨found, r, asked, points⟩ := old
    exact ⟨kept _ _ p found, r, asked, (relied p List.mem_cons_self).trans points⟩

end CallPc

namespace BalloonPc

/-- The inode the balloon thread has taken from its node and not yet enqueued. -/
def freed : BalloonPc N → List (InodeIdx N)
  | .storeFree idx _ | .count idx _ | .nextQueue idx _ | .enqueue idx _ _ => [idx]
  | _ => []

/-- The node whose mutex the balloon thread holds. -/
def holds : BalloonPc N → List NodePtr
  | .retest _ p | .giveUp p | .delete _ p | .storeFree _ p | .count _ p | .nextQueue _ p
  | .enqueue _ p _ | .unlock p => [p]
  | _ => []

/-- The inode it has found CLEAN. -/
def tested : BalloonPc N → List (InodeIdx N)
  | .search idx | .tryLock idx _ | .retest idx _ | .delete idx _ | .storeFree idx _ => [idx]
  | _ => []

/-- It is about to set the inode to FREE. -/
def storing : BalloonPc N → Bool
  | .storeFree _ _ => true
  | _ => false

theorem ne_storeFree {pc : BalloonPc N} (other : pc.storing = false) (idx : InodeIdx N)
    (p : NodePtr) : pc ≠ .storeFree idx p := by
  intro same
  rw [same] at other
  cases other

end BalloonPc

/-- Node `p` carries the key of inode `i`, and points to it unless a balloon thread
has just deleted it. -/
def HeapView.Placed (h : HeapView N) (balloon : Fin defaultNumBalloon → BalloonPc N)
    (i : InodeIdx N) (p : NodePtr) : Prop :=
  h.Keyed i p ∧ (h.inode p = some i ∨ ∃ b, balloon b = .storeFree i p)

namespace BalloonPc

/-- What a balloon thread knows of the inode it has found CLEAN. -/
def Local (h : HeapView N) (state : InodeIdx N → InodeState)
    (balloon : Fin defaultNumBalloon → BalloonPc N) : BalloonPc N → Prop
  | .search idx => ∃ p, h.Placed balloon idx p
  | .tryLock idx p => h.Placed balloon idx p
  | .retest idx p => h.inode p = some idx
  | .delete idx p => h.inode p = some idx ∧ state idx = .clean
  | .storeFree idx p => h.Keyed idx p ∧ state idx = .clean
  | _ => True

theorem Local.change {h h' : HeapView N} {state state' : InodeIdx N → InodeState}
    {balloon balloon' : Fin defaultNumBalloon → BalloonPc N} {pc : BalloonPc N}
    (old : pc.Local h state balloon)
    (keyed : ∀ i ∈ pc.tested, ∀ p, h.Keyed i p → h'.Keyed i p)
    (placed : ∀ i p, (pc = .search i ∨ pc = .tryLock i p) → h.Placed balloon i p →
      h'.inode p = some i ∨ ∃ b, balloon' b = .storeFree i p)
    (held : ∀ i p, (pc = .retest i p ∨ pc = .delete i p) → h.inode p = some i →
      h'.inode p = some i)
    (clean : ∀ i p, (pc = .delete i p ∨ pc = .storeFree i p) → state i = .clean →
      state' i = .clean) :
    pc.Local h' state' balloon' := by
  cases pc with
  | search idx =>
    obtain ⟨p, here⟩ := old
    exact ⟨p, keyed idx List.mem_cons_self p here.1, placed idx p (.inl rfl) here⟩
  | tryLock idx p =>
    exact ⟨keyed idx List.mem_cons_self p old.1, placed idx p (.inr rfl) old⟩
  | retest idx p => exact held idx p (.inl rfl) old
  | delete idx p => exact ⟨held idx p (.inr rfl) old.1, clean idx p (.inl rfl) old.2⟩
  | storeFree idx p =>
    exact ⟨keyed idx List.mem_cons_self p old.1, clean idx p (.inr rfl) old.2⟩
  | _ => trivial

end BalloonPc

end Places

variable {C : CuckoohashMap} {W : Type} {N S : Nat} [Fintype W]

/-- The tokens of an inode that no node points to. -/
def freeTokens (s : CallState C W N S) (i : InodeIdx N) : Nat :=
  copies (contents s.freeQueue) i + copies (fun w => (s.call w).taken) i +
    copies (fun b => (s.balloon b).freed) i

/-- The tokens of a locked node. -/
def nodeTokens (s : CallState C W N S) (p : NodePtr) : Nat :=
  copies (fun w => (s.call w).holds) p + copies (fun b => (s.balloon b).holds) p

structure CallsOk (s : CallState C W N S) : Prop where
  handOff : HandOff s.core
  heap : HeapOk s.view
  bound : ∀ p i, s.view.inode p = some i → freeTokens s i = 0
  unbound : ∀ i, (∀ p, s.view.inode p ≠ some i) → freeTokens s i = 1
  free : ∀ i, (∀ p, s.view.inode p ≠ some i) →
    s.core.state i = .free ∨ ∃ b p, s.balloon b = .storeFree i p
  published : ∀ p i, s.view.inode p = some i → s.core.state i = .free →
    ∃ w, (s.call w).Dirties (s.core.writer w) p
  mutex : ∀ p, nodeTokens s p = if (s.node p).mutex then 1 else 0
  fresh : ∀ p, s.view.next ≤ p → (s.node p).mutex = false
  quiet : ∀ w, (∀ c p, s.call w ≠ .inBlock c p) → s.core.writer w = .idle
  call : ∀ w, (s.call w).Local s.view (s.core.writer w)
  balloon : ∀ b, (s.balloon b).Local s.view s.core.state s.balloon
  apart : ∀ w x key, (s.call w).missing = some key → (s.call x).missing = some key → w = x

namespace CallsOk

variable {s t : CallState C W N S}

theorem start (start : CallStart s) : CallsOk s := by
  obtain ⟨calls, balloons⟩ := start.idle
  have noInode : ∀ p, s.view.inode p = none := fun p => (start.heap p).1
  have noNode : ∀ v l, s.view.nodeAt v l = none := by
    intro v l
    simp [CallState.view, CallState.nodeAt, searchHashNode, start.tables, newHashTable,
      C.find_empty]
  refine ⟨HandOff.start start.core, ⟨fun p => ?_, fun p i points => ?_, fun v w l m p found _ => ?_,
    fun v l p found => ?_⟩, fun p i points => ?_, fun i _ => ?_,
    fun i _ => .inl (start.core.free i),
    fun p i points => ?_, fun p => ?_, fun p _ => (start.heap p).2.2,
    fun w _ => start.core.idle.1 w, fun w => ?_, fun b => ?_, fun w x key missing => ?_⟩
  · rw [noInode]
    exact (start.heap p).2.1
  · rw [noInode] at points
    cases points
  · rw [noNode] at found
    cases found
  · rw [noNode] at found
    cases found
  · rw [noInode] at points
    cases points
  · simp [freeTokens, start.free, calls, balloons, CallPc.taken, BalloonPc.freed, copies_nil]
  · rw [noInode] at points
    cases points
  · simp [nodeTokens, (start.heap p).2.2, calls, balloons, CallPc.holds, BalloonPc.holds,
      copies_nil]
  · rw [calls]
    trivial
  · rw [balloons]
    trivial
  · rw [calls] at missing
    cases missing

/-- No node points to an inode that a call has taken. -/
theorem unbound_of_taken (ok : CallsOk s) {w : W} {i : InodeIdx N} (mine : i ∈ (s.call w).taken)
    (p : NodePtr) : s.view.inode p ≠ some i := by
  intro points
  have none := ok.bound p i points
  have present : 0 < copies (fun w => (s.call w).taken) i := copies_pos.mpr ⟨w, mine⟩
  unfold freeTokens at none
  omega

/-- No node points to an inode that a balloon thread is freeing. -/
theorem unbound_of_freed (ok : CallsOk s) {b : Fin defaultNumBalloon} {i : InodeIdx N}
    (mine : i ∈ (s.balloon b).freed) (p : NodePtr) : s.view.inode p ≠ some i := by
  intro points
  have none := ok.bound p i points
  have present : 0 < copies (fun b => (s.balloon b).freed) i := copies_pos.mpr ⟨b, mine⟩
  unfold freeTokens at none
  omega

/-- What a call has taken nobody frees. -/
theorem not_freed_of_taken (ok : CallsOk s) {w : W} {i : InodeIdx N}
    (mine : i ∈ (s.call w).taken) (b : Fin defaultNumBalloon) : i ∉ (s.balloon b).freed := by
  intro theirs
  have one := ok.unbound i (ok.unbound_of_taken mine)
  have present : 0 < copies (fun w => (s.call w).taken) i := copies_pos.mpr ⟨w, mine⟩
  have present' : 0 < copies (fun b => (s.balloon b).freed) i := copies_pos.mpr ⟨b, theirs⟩
  unfold freeTokens at one
  omega

theorem freed_alone (ok : CallsOk s) {b c : Fin defaultNumBalloon} {i : InodeIdx N}
    (mine : i ∈ (s.balloon b).freed) (theirs : i ∈ (s.balloon c).freed) : b = c := by
  have one := ok.unbound i (ok.unbound_of_freed mine)
  unfold freeTokens at one
  exact eq_of_copies_le_one (F := fun b => (s.balloon b).freed) (by omega) mine theirs

/-- The nodes whose mutex a call holds are in a table. -/
theorem allocated_of_holds (ok : CallsOk s) {writer : WriterPc N} {pc : CallPc N} {p : NodePtr}
    (knows : pc.Local s.view writer) (mine : p ∈ pc.holds) : p < s.view.next := by
  cases pc with
  | recheck c q | release c q =>
    cases List.mem_singleton.mp mine
    exact ok.heap.allocated _ _ _ knows
  | readInode c q | inBlock c q =>
    cases List.mem_singleton.mp mine
    exact ok.heap.allocated _ _ _ knows.1
  | _ => cases mine

theorem nodeTokens_le_one (ok : CallsOk s) (p : NodePtr) : nodeTokens s p ≤ 1 := by
  rw [ok.mutex]
  split <;> omega

/-- A call and a balloon thread do not hold the same node. -/
theorem holds_apart (ok : CallsOk s) {w : W} {b : Fin defaultNumBalloon} {p : NodePtr}
    (mine : p ∈ (s.call w).holds) : p ∉ (s.balloon b).holds := by
  intro theirs
  have one := ok.nodeTokens_le_one p
  have present : 0 < copies (fun w => (s.call w).holds) p := copies_pos.mpr ⟨w, mine⟩
  have present' : 0 < copies (fun b => (s.balloon b).holds) p := copies_pos.mpr ⟨b, theirs⟩
  unfold nodeTokens at one
  omega

theorem balloon_holds_alone (ok : CallsOk s) {b c : Fin defaultNumBalloon} {p : NodePtr}
    (mine : p ∈ (s.balloon b).holds) (theirs : p ∈ (s.balloon c).holds) : b = c := by
  have one := ok.nodeTokens_le_one p
  unfold nodeTokens at one
  exact eq_of_copies_le_one (F := fun b => (s.balloon b).holds) (by omega) mine theirs

theorem locked_of_holds (ok : CallsOk s) {b : Fin defaultNumBalloon} {p : NodePtr}
    (mine : p ∈ (s.balloon b).holds) : (s.node p).mutex = true := by
  have tokens := ok.mutex p
  have present : 0 < copies (fun b => (s.balloon b).holds) p := copies_pos.mpr ⟨b, mine⟩
  unfold nodeTokens at tokens
  by_contra unlocked
  rw [if_neg unlocked] at tokens
  omega

theorem locked_of_call_holds (ok : CallsOk s) {w : W} {p : NodePtr}
    (mine : p ∈ (s.call w).holds) : (s.node p).mutex = true := by
  have tokens := ok.mutex p
  have present : 0 < copies (fun w => (s.call w).holds) p := copies_pos.mpr ⟨w, mine⟩
  unfold nodeTokens at tokens
  by_contra unlocked
  rw [if_neg unlocked] at tokens
  omega

/-- A balloon thread that has found its inode CLEAN again, or has deleted its node,
still has it CLEAN when a call makes the inode of a node it holds DIRTY. -/
theorem clean_of_call (ok : CallsOk s) {w : W} {b : Fin defaultNumBalloon} {i : InodeIdx N}
    {p q : NodePtr} (at_ : s.balloon b = .delete i p ∨ s.balloon b = .storeFree i p)
    (mine : q ∈ (s.call w).holds) : s.view.inode q ≠ some i := by
  intro points
  have knows := ok.balloon b
  rcases at_ with here | here
  · rw [here] at knows
    cases ok.heap.unique knows.1 points
    exact ok.holds_apart mine (b := b) (by rw [here]; exact List.mem_cons_self)
  · exact ok.unbound_of_freed (b := b) (by rw [here]; exact List.mem_cons_self) q points

variable [DecidableEq W]

/-- A step of the call of `w` that leaves keys and nodes as they are, from what it
does to the tokens. -/
theorem of_call (ok : CallsOk s) {u : CallState C W N S} {w : W} {pc : CallPc N}
    (view : u.view = s.view) (pcs : u.call = s.call ∧ u.balloon = s.balloon)
    (handOff : HandOff u.core)
    (writers : ∀ x, x ≠ w → u.core.writer x = s.core.writer x)
    (state : ∀ i, u.core.state i = s.core.state i ∨
      u.core.state i = .dirty ∧ ∃ p ∈ (s.call w).holds, s.view.inode p = some i)
    (free : ∀ i, copies (contents u.freeQueue) i + pc.taken.count i =
      copies (contents s.freeQueue) i + (s.call w).taken.count i)
    (mutex : ∀ p, pc.holds.count p + (if (s.node p).mutex then 1 else 0) =
      (s.call w).holds.count p + if (u.node p).mutex then 1 else 0)
    (dirties : ∀ p i, s.view.inode p = some i → u.core.state i = .free →
      (s.call w).Dirties (s.core.writer w) p → pc.Dirties (u.core.writer w) p)
    (quiet : (∀ c p, pc ≠ .inBlock c p) → u.core.writer w = .idle)
    (here : pc.Local s.view (u.core.writer w))
    (missing : ∀ key, pc.missing = some key → ∀ x, x ≠ w → (s.call x).missing ≠ some key) :
    CallsOk (u.toCall w pc) := by
  obtain ⟨calls, balloons⟩ := pcs
  have same : (u.toCall w pc).view = s.view := view
  have tokens : ∀ i, freeTokens (u.toCall w pc) i = freeTokens s i := by
    intro i
    have moved := copies_goto CallPc.taken s.call w pc i
    have change := free i
    simp only [freeTokens, CallState.toCall, calls, balloons]
    omega
  have atFree : ∀ i, u.core.state i = .free → s.core.state i = .free := by
    intro i isFree
    rcases state i with old | ⟨dirty, _⟩
    · exact old ▸ isFree
    · rw [isFree] at dirty
      cases dirty
  refine ⟨handOff, ?_, ?_, ?_, ?_, ?_, ?_, ?_, ?_, ?_, ?_, ?_⟩
  · rw [same]
    exact ok.heap
  · intro p i points
    rw [tokens]
    exact ok.bound p i (same ▸ points)
  · intro i nobody
    rw [tokens]
    exact ok.unbound i (same ▸ nobody)
  · intro i nobody
    rw [same] at nobody
    rcases state i with old | ⟨_, p, _, points⟩
    · have before := ok.free i nobody
      simpa only [CallState.toCall, old, balloons] using before
    · exact absurd points (nobody p)
  · intro p i points isFree
    rw [same] at points
    obtain ⟨x, will⟩ := ok.published p i points (atFree i isFree)
    refine ⟨x, ?_⟩
    by_cases mine : x = w
    · subst x
      simpa only [CallState.toCall, Function.update_self] using dirties p i points isFree will
    · simpa only [CallState.toCall, Function.update_of_ne mine, calls, writers x mine] using will
  · intro p
    have moved := copies_goto CallPc.holds s.call w pc p
    have before := ok.mutex p
    have change := mutex p
    simp only [nodeTokens, CallState.toCall, calls, balloons] at before ⊢
    omega
  · intro p beyond
    rw [same] at beyond
    have change := mutex p
    by_contra locked
    simp only [CallState.toCall, Bool.not_eq_false] at locked
    rw [ok.fresh p beyond, locked] at change
    have holds : p ∈ pc.holds := List.count_pos_iff.mp (by simp at change; omega)
    exact absurd (ok.allocated_of_holds here holds) (Nat.not_lt.mpr beyond)
  · intro x outside
    by_cases mine : x = w
    · subst x
      exact quiet (by simpa only [CallState.toCall, Function.update_self] using outside)
    · simp only [CallState.toCall, Function.update_of_ne mine, calls] at outside
      exact (writers x mine).trans (ok.quiet x outside)
  · intro x
    rw [same]
    by_cases mine : x = w
    · subst x
      simpa only [CallState.toCall, Function.update_self] using here
    · simpa only [CallState.toCall, Function.update_of_ne mine, calls,
      writers x mine] using ok.call x
  · intro b
    rw [same]
    simp only [CallState.toCall, balloons]
    refine (ok.balloon b).change (fun _ _ _ keyed => keyed) (fun _ _ _ placed => placed.2)
      (fun _ _ _ points => points) fun i p here clean => ?_
    rcases state i with old | ⟨_, q, holds, points⟩
    · exact old.trans clean
    · exact absurd points (ok.clean_of_call here holds)
  · intro x y key first second
    by_cases mine : x = w
    · subst x
      by_cases yours : y = w
      · exact yours.symm
      · simp only [CallState.toCall, Function.update_self, Function.update_of_ne yours, calls]
          at first second
        exact absurd second (missing key first y yours)
    · by_cases yours : y = w
      · subst y
        simp only [CallState.toCall, Function.update_self, Function.update_of_ne mine, calls]
          at first second
        exact absurd first (missing key second x mine)
      · simp only [CallState.toCall, Function.update_of_ne mine, Function.update_of_ne yours, calls]
          at first second
        exact ok.apart x y key first second

omit [DecidableEq W] in
/-- A step of a flush or sync thread. -/
theorem of_core (ok : CallsOk s) {core : ThreadState W N S} (handOff : HandOff core)
    (writers : core.writer = s.core.writer)
    (free : ∀ i, core.state i = .free ↔ s.core.state i = .free)
    (clean : ∀ i, s.core.state i = .clean → core.state i = .clean) :
    CallsOk { s with core := core } where
  handOff := handOff
  heap := ok.heap
  bound := ok.bound
  unbound := ok.unbound
  free i nobody := by
    rcases ok.free i nobody with isFree | freeing
    · exact .inl ((free i).mpr isFree)
    · exact .inr freeing
  published p i points isFree := by
    simp only [writers]
    exact ok.published p i points ((free i).mp isFree)
  mutex := ok.mutex
  fresh := ok.fresh
  quiet w outside := by
    simp only [writers]
    exact ok.quiet w outside
  call w := by
    simp only [writers]
    exact ok.call w
  balloon b := (ok.balloon b).change (fun _ _ _ keyed => keyed) (fun _ _ _ placed => placed.2)
    (fun _ _ _ points => points) fun i _ _ => clean i
  apart := ok.apart

omit [DecidableEq W] in
/-- A step of balloon thread `b` that leaves keys and nodes as they are. -/
theorem of_balloon (ok : CallsOk s) {u : CallState C W N S} {b : Fin defaultNumBalloon}
    {pc : BalloonPc N} (view : u.view = s.view) (pcs : u.call = s.call ∧ u.balloon = s.balloon)
    (handOff : HandOff u.core) (writers : u.core.writer = s.core.writer)
    (state : ∀ i, u.core.state i = s.core.state i ∨
      u.core.state i = .free ∧ ∃ p, s.balloon b = .storeFree i p)
    (free : ∀ i, copies (contents u.freeQueue) i + pc.freed.count i =
      copies (contents s.freeQueue) i + (s.balloon b).freed.count i)
    (mutex : ∀ p, pc.holds.count p + (if (s.node p).mutex then 1 else 0) =
      (s.balloon b).holds.count p + if (u.node p).mutex then 1 else 0)
    (fresh : ∀ p, p ∈ pc.holds → p ∈ (s.balloon b).holds ∨ p < s.view.next)
    (stored : ∀ i p, s.balloon b = .storeFree i p → u.core.state i = .free ∧
      ∀ c, c ≠ b → s.balloon c ≠ .search i ∧ ∀ q, s.balloon c ≠ .tryLock i q)
    (here : pc.Local s.view u.core.state (Function.update s.balloon b pc)) :
    CallsOk (u.toBalloon b pc) := by
  obtain ⟨calls, balloons⟩ := pcs
  have same : (u.toBalloon b pc).view = s.view := view
  have tokens : ∀ i, freeTokens (u.toBalloon b pc) i = freeTokens s i := by
    intro i
    have moved := copies_goto BalloonPc.freed s.balloon b pc i
    have change := free i
    simp only [freeTokens, CallState.toBalloon, calls, balloons]
    omega
  have others : ∀ {c i p}, s.balloon c = .storeFree i p → c ≠ b →
      ∃ d, (u.toBalloon b pc).balloon d = .storeFree i p := by
    intro c i p freeing other
    exact ⟨c, by simpa only [CallState.toBalloon, balloons,
      Function.update_of_ne other] using freeing⟩
  refine ⟨handOff, ?_, ?_, ?_, ?_, ?_, ?_, ?_, ?_, ?_, ?_, ?_⟩
  · rw [same]
    exact ok.heap
  · intro p i points
    rw [tokens]
    exact ok.bound p i (same ▸ points)
  · intro i nobody
    rw [tokens]
    exact ok.unbound i (same ▸ nobody)
  · intro i nobody
    rw [same] at nobody
    rcases state i with old | ⟨isFree, _⟩
    · rcases ok.free i nobody with isFree | ⟨c, p, freeing⟩
      · exact .inl (old.trans isFree)
      · by_cases mine : c = b
        · subst c
          exact .inl (stored i p freeing).1
        · obtain ⟨d, still⟩ := others freeing mine
          exact .inr ⟨d, p, still⟩
    · exact .inl isFree
  · intro p i points isFree
    rw [same] at points
    rcases state i with old | ⟨_, q, freeing⟩
    · have before := ok.published p i points (old ▸ isFree)
      simpa only [CallState.toBalloon, calls, writers] using before
    · exact absurd points
        (ok.unbound_of_freed (b := b) (by rw [freeing]; exact List.mem_cons_self) p)
  · intro p
    have moved := copies_goto BalloonPc.holds s.balloon b pc p
    have before := ok.mutex p
    have change := mutex p
    simp only [nodeTokens, CallState.toBalloon, calls, balloons] at before ⊢
    omega
  · intro p beyond
    rw [same] at beyond
    have change := mutex p
    by_contra locked
    simp only [CallState.toBalloon, Bool.not_eq_false] at locked
    rw [ok.fresh p beyond, locked] at change
    have holds : p ∈ pc.holds := List.count_pos_iff.mp (by simp at change; omega)
    rcases fresh p holds with before | low
    · have locked' := ok.locked_of_holds before
      rw [ok.fresh p beyond] at locked'
      cases locked'
    · exact absurd low (Nat.not_lt.mpr beyond)
  · intro w outside
    simp only [CallState.toBalloon, calls, writers] at outside ⊢
    exact ok.quiet w outside
  · intro w
    rw [same]
    simpa only [CallState.toBalloon, calls, writers] using ok.call w
  · intro c
    rw [same]
    by_cases mine : c = b
    · subst c
      simpa only [CallState.toBalloon, balloons, Function.update_self] using here
    · have keep : (s.balloon c).Local s.view u.core.state (Function.update s.balloon b pc) := by
        refine (ok.balloon c).change (fun _ _ _ keyed => keyed) (fun i p at_ placed => ?_)
          (fun _ _ _ points => points) fun i p at_ clean => ?_
        · rcases placed.2 with points | ⟨d, freeing⟩
          · exact .inl points
          · by_cases yours : d = b
            · subst d
              obtain ⟨noSearch, noLock⟩ := (stored i p freeing).2 c mine
              rcases at_ with searching | locking
              · exact absurd searching noSearch
              · exact absurd locking (noLock p)
            · exact .inr ⟨d, by rw [Function.update_of_ne yours, freeing]⟩
        · rcases state i with old | ⟨_, q, freeing⟩
          · exact old.trans clean
          · have mine' : i ∈ (s.balloon b).freed := by
              rw [freeing]
              exact List.mem_cons_self
            rcases at_ with deleting | freeing'
            · have knows := ok.balloon c
              rw [deleting] at knows
              exact absurd knows.1 (ok.unbound_of_freed mine' p)
            · have yours : i ∈ (s.balloon c).freed := by
                rw [freeing']
                exact List.mem_cons_self
              exact absurd (ok.freed_alone yours mine') mine
      simpa only [CallState.toBalloon, balloons, Function.update_of_ne mine] using keep
  · simpa only [CallState.toBalloon, calls] using ok.apart

end CallsOk

end BurstBuffer.Source
