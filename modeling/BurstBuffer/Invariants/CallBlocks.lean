import BurstBuffer.Invariants.BlockContents
import BurstBuffer.Invariants.CallAssignment
import BurstBuffer.Invariants.CallEffects

/-!
# Blocks under concurrent calls

A block number of a volume carries at most one inode in use. While there is none, the disk
lacks nothing of the block; the bytes of CLEAN inodes are on disk, those of SYNC inodes written
to the file.
-/
namespace BurstBuffer.Source

open Library

section Places

variable {N : Nat}

/-- The block a call in flight writes. -/
def CallPc.asked : CallPc N → Option Call
  | .idle => none
  | .search c | .isValid c _ | .isEnough c _ | .nextFree c _ | .dequeue c _ _ | .storeKey c _ _
  | .uncount c _ _ | .publish c _ _ | .lockNode c _ _ | .recheck c _ | .release c _
  | .readInode c _ | .inBlock c _ => some c

end Places

variable {C : CuckoohashMap} {W : Type} {N S : Nat}

/-- Inode `i` is in use for the block under `key`. -/
def Carries (s : CallState C W N S) (i : InodeIdx N) (key : VolumeIdx × Nat) : Prop :=
  s.core.state i ≠ .free ∧ s.volume i = some key.1 ∧ s.lbn i = key.2

theorem Carries.key_eq {s : CallState C W N S} {i : InodeIdx N} {key other : VolumeIdx × Nat}
    (first : Carries s i key) (second : Carries s i other) : key = other :=
  Prod.ext (Option.some.inj (first.2.1.symm.trans second.2.1)) (first.2.2.symm.trans second.2.2)

/-- The inodes in use carry the keys of `a`. -/
structure BlocksOk (a : Assignment N) (s : CallState C W N S) : Prop where
  agrees : ∀ i, s.core.state i ≠ .free → Carries s i (a.key i)
  low : ∀ i, a.lbn i < 2 ^ 32 - 1
  small : ∀ i, s.core.state i ≠ .free → s.lbn i < 2 ^ 18
  durability : Durability a s.core
  unheld : ∀ key, (∀ i, ¬ Carries s i key) →
    readBlock blockSize (s.core.durable key.1) key.2 =
      readBlock blockSize (s.core.cache key.1) key.2

/-- Beyond that: the calls in their blocks write what was asked for. -/
structure CallBlocks (s : CallState C W N S) : Prop where
  assigned : ∃ a, BlocksOk a s
  requests : ∀ w c p r, s.call w = .inBlock c p → (s.core.writer w).request = some r →
    r.buf = c.buf ∧ r.localCount = c.localCount
  lows : ∀ w c, (s.call w).asked = some c → c.lbn < 2 ^ 18

/-- The calls are for block numbers below `2^18`. -/
def LowCalls (s : CallState C W N S) : StorageEvent W S → Prop
  | .step (.call w c) => s.call w = .idle → c.lbn < 2 ^ 18
  | .step (.flusher _) | .step (.syncer _) | .step (.balloon _) | .writeBack _ => True

namespace BlocksOk

variable {a : Assignment N} {s t : CallState C W N S} {i : InodeIdx N} {key : VolumeIdx × Nat}

theorem key_of_carries (ok : BlocksOk a s) (carries : Carries s i key) : a.key i = key :=
  (ok.agrees i carries.1).key_eq carries

/-- At most one inode in use carries a key. -/
theorem alone (ok : BlocksOk a s) {j : InodeIdx N} (first : Carries s i key)
    (second : Carries s j key) : i = j :=
  a.key_injective ((ok.key_of_carries first).trans (ok.key_of_carries second).symm)

/-- A step that leaves the inodes in use and their keys as they are. -/
theorem of_same (ok : BlocksOk a s) (durability : Durability a t.core)
    (states : ∀ i, t.core.state i = .free ↔ s.core.state i = .free)
    (keys : ∀ i, s.core.state i ≠ .free → t.volume i = s.volume i ∧ t.lbn i = s.lbn i)
    (files : ∀ key, (∀ i, ¬ Carries s i key) →
      readBlock blockSize (t.core.durable key.1) key.2 =
        readBlock blockSize (t.core.cache key.1) key.2) : BlocksOk a t := by
  have used : ∀ {i}, t.core.state i ≠ .free → s.core.state i ≠ .free := fun notFree isFree =>
    notFree ((states _).mpr isFree)
  refine ⟨fun i notFree => ?_, ok.low, fun i notFree => ?_, durability, fun key none => ?_⟩
  · obtain ⟨volume, lbn⟩ := keys i (used notFree)
    exact ⟨notFree, volume.trans (ok.agrees i (used notFree)).2.1,
      lbn.trans (ok.agrees i (used notFree)).2.2⟩
  · rw [(keys i (used notFree)).2]
    exact ok.small i (used notFree)
  · refine files key fun i carries => none i ?_
    obtain ⟨volume, lbn⟩ := keys i carries.1
    exact ⟨fun isFree => carries.1 ((states i).mp isFree), volume.trans carries.2.1,
      lbn.trans carries.2.2⟩

end BlocksOk

section Moves

variable [DecidableEq W] {s t : CallState C W N S} {w : W} {request : Call}

/-- What a step of a call does to the inodes in use and their blocks. -/
inductive CallMove (s t : CallState C W N S) (w : W) : Prop where
  | quiet (was : (s.call w).inside = false) (core : t.core = s.core)
      (keys : ∀ i, s.core.state i ≠ .free → t.volume i = s.volume i ∧ t.lbn i = s.lbn i)
      (outside : (t.call w).inside = false)
  | enter (c : Call) (p : NodePtr) (i : InodeIdx N) (was : (s.call w).inside = false)
      (core : t.core = s.core.toWriter w (.lockInode ⟨i, c.buf, c.localCount⟩))
      (keys : t.volume = s.volume ∧ t.lbn = s.lbn) (inside : t.call w = .inBlock c p)
  | leave (r : Request N) (last : s.core.writer w = .unlockNode r)
      (core : t.core = s.core.toWriter w .idle)
      (keys : t.volume = s.volume ∧ t.lbn = s.lbn) (outside : (t.call w).inside = false)
  | block (c : Call) (p : NodePtr) (core : ThreadState W N S) (inside : s.call w = .inBlock c p)
      (step : blockNext s.volume c.volume w s.core = some core)
      (only : t = { s with core := core })

theorem CallMove.of_core {u : CallState C W N S} {before pc : CallPc N} (was : s.call w = before)
    (started : before.inside = false) (core : u.core = s.core) (volume : u.volume = s.volume)
    (lbn : u.lbn = s.lbn) (outside : pc.inside = false) : CallMove s (u.toCall w pc) w := by
  subst was
  refine .quiet started core (fun i _ => ?_) (by rw [CallState.toCall_self]; exact outside)
  rw [← volume, ← lbn]
  exact ⟨rfl, rfl⟩

theorem CallsOk.call_move [Fintype W] (ok : CallsOk s) (step : callNext w request s = some t) :
    CallMove s t w := by
  cases pc : s.call w with
  | idle =>
    simp only [callNext, pc] at step
    split at step
    · cases step
      exact .of_core pc rfl rfl rfl rfl rfl
    · cases step
  | isEnough c found =>
    simp only [callNext, pc] at step
    split at step <;> cases step <;> exact .of_core pc rfl rfl rfl rfl rfl
  | lockNode c p fresh =>
    simp only [callNext, pc] at step
    split at step
    · cases step
    · cases step
      cases fresh <;> exact .of_core pc rfl rfl rfl rfl rfl
  | search | nextFree | uncount | release =>
    simp only [callNext, pc] at step
    cases step
    exact .of_core pc rfl rfl rfl rfl rfl
  | isValid c found =>
    cases found with
    | none =>
      simp only [callNext, pc] at step
      cases step
      exact .of_core pc rfl rfl rfl rfl rfl
    | some p =>
      simp only [callNext, pc] at step
      split at step <;> cases step <;> exact .of_core pc rfl rfl rfl rfl rfl
  | dequeue c found k =>
    simp only [callNext, pc] at step
    obtain ⟨_, _, rfl⟩ := Option.map_eq_some_iff.mp step
    exact .of_core pc rfl rfl rfl rfl rfl
  | storeKey c found idx =>
    simp only [callNext, pc] at step
    cases step
    have taken : idx ∈ (s.call w).taken := by
      rw [pc]
      exact List.mem_cons_self
    refine .quiet (by rw [pc]; rfl) rfl (fun i used => ?_) (by rw [CallState.toCall_self]; rfl)
    have other : i ≠ idx := by
      rintro rfl
      rcases ok.free i (ok.unbound_of_taken taken) with isFree | ⟨b, q, freeing⟩
      · exact used isFree
      · exact ok.not_freed_of_taken taken b (by rw [freeing]; exact List.mem_cons_self)
    exact ⟨Function.update_of_ne other _ _, Function.update_of_ne other _ _⟩
  | publish c found idx =>
    cases found with
    | none =>
      simp only [callNext, pc] at step
      cases step
      exact .of_core pc rfl rfl rfl rfl rfl
    | some p =>
      simp only [callNext, pc] at step
      split at step <;> cases step <;> exact .of_core pc rfl rfl rfl rfl rfl
  | recheck c p =>
    simp only [callNext, pc] at step
    cases step
    split <;> exact .of_core pc rfl rfl rfl rfl rfl
  | readInode c p =>
    simp only [callNext, pc] at step
    obtain ⟨i, _, rfl⟩ := Option.map_eq_some_iff.mp step
    exact .enter c p i (by rw [pc]; rfl) rfl ⟨rfl, rfl⟩ (CallState.toCall_self _ _ _)
  | inBlock c p =>
    simp only [callNext, pc] at step
    split at step
    · rename_i r last
      cases step
      exact .leave r last rfl ⟨rfl, rfl⟩ (by rw [CallState.toCall_self]; rfl)
    · obtain ⟨core, next, rfl⟩ := Option.map_eq_some_iff.mp step
      exact .block c p core pc next rfl

/-- A call keeps to its block until it is through. -/
theorem callNext_asked (step : callNext w request s = some t) :
    (t.call w).asked = none ∨ (t.call w).asked = (s.call w).asked ∨
      s.call w = .idle ∧ (t.call w).asked = some request := by
  have goto : ∀ (u : CallState C W N S) (pc : CallPc N), pc.asked = (s.call w).asked →
      ((u.toCall w pc).call w).asked = (s.call w).asked := by
    intro u pc same
    rw [CallState.toCall_self]
    exact same
  cases pc : s.call w with
  | idle =>
    simp only [callNext, pc] at step
    split at step
    · cases step
      rw [CallState.toCall_self]
      exact .inr (.inr ⟨rfl, rfl⟩)
    · cases step
  | isValid c found | publish c found =>
    rw [pc] at goto
    cases found with
    | none =>
      simp only [callNext, pc] at step
      cases step
      exact .inr (.inl (goto _ _ rfl))
    | some p =>
      simp only [callNext, pc] at step
      split at step <;> cases step <;> exact .inr (.inl (goto _ _ rfl))
  | isEnough c found =>
    rw [pc] at goto
    simp only [callNext, pc] at step
    split at step <;> cases step <;> exact .inr (.inl (goto _ _ rfl))
  | search | nextFree | storeKey | uncount | release =>
    rw [pc] at goto
    simp only [callNext, pc] at step
    cases step
    exact .inr (.inl (goto _ _ rfl))
  | dequeue | readInode =>
    rw [pc] at goto
    simp only [callNext, pc] at step
    obtain ⟨_, _, rfl⟩ := Option.map_eq_some_iff.mp step
    exact .inr (.inl (goto _ _ rfl))
  | lockNode c p fresh =>
    rw [pc] at goto
    simp only [callNext, pc] at step
    split at step
    · cases step
    · cases step
      cases fresh <;> exact .inr (.inl (goto _ _ rfl))
  | recheck c p =>
    rw [pc] at goto
    simp only [callNext, pc] at step
    cases step
    refine .inr (.inl (goto _ _ ?_))
    split <;> rfl
  | inBlock c p =>
    simp only [callNext, pc] at step
    split at step
    · cases step
      rw [CallState.toCall_self]
      exact .inl rfl
    · obtain ⟨core, _, rfl⟩ := Option.map_eq_some_iff.mp step
      exact .inr (.inl (congrArg CallPc.asked pc))

end Moves

section Steps

variable [Fintype W] [DecidableEq W] [NeZero S] {a : Assignment N} {s t : CallState C W N S}

section Inside

variable {w : W} {c : Call} {p : NodePtr} {r : Request N}

omit [DecidableEq W] [NeZero S] in
/-- A writer at work is that of a call in its block. -/
theorem CallsOk.inBlock_of_writer (calls : CallsOk s) (busy : s.core.writer w ≠ .idle) :
    ∃ c p, s.call w = .inBlock c p := by
  by_contra outside
  exact busy (calls.quiet w fun c p inside => outside ⟨c, p, inside⟩)

omit [DecidableEq W] [NeZero S] in
/-- The inode of a call in its block carries the key of the block. -/
theorem CallsOk.key_inside (calls : CallsOk s) (inside : s.call w = .inBlock c p)
    (asked : (s.core.writer w).request = some r) :
    s.volume r.inode = some c.volume ∧ s.lbn r.inode = c.lbn := by
  have knows := calls.call w
  rw [inside] at knows
  obtain ⟨place, q, asked', points⟩ := knows
  cases asked.symm.trans asked'
  exact calls.heap.key place points

omit [DecidableEq W] [NeZero S] in
/-- No other inode in use does. -/
theorem CallsOk.carries_alone (calls : CallsOk s) (inside : s.call w = .inBlock c p)
    (asked : (s.core.writer w).request = some r) {j : InodeIdx N}
    (carries : Carries s j (c.volume, c.lbn)) : j = r.inode := by
  obtain ⟨used, volume, lbn⟩ := carries
  have knows := calls.call w
  rw [inside] at knows
  obtain ⟨place, q, asked', points⟩ := knows
  cases asked.symm.trans asked'
  have same : ∀ {x}, s.view.Keyed j x → x = p := by
    rintro x ⟨v, owner, found⟩
    cases volume.symm.trans owner
    rw [show s.view.lbn j = c.lbn from lbn, place] at found
    exact (Option.some.inj found).symm
  by_cases bound : ∃ x, s.view.inode x = some j
  · obtain ⟨x, points'⟩ := bound
    rw [same (calls.heap.bound x j points'), points] at points'
    exact (Option.some.inj points').symm
  · rcases calls.free j fun x points' => bound ⟨x, points'⟩ with isFree | ⟨b, x, freeing⟩
    · exact absurd isFree used
    · -- the balloon thread that frees `j` would hold the node as well
      have theirs := calls.balloon b
      rw [freeing] at theirs
      obtain rfl := same theirs.1
      exact absurd (by rw [freeing]; exact List.mem_cons_self)
        (calls.holds_apart (w := w) (b := b) (p := x) (by rw [inside]; exact List.mem_cons_self))

omit [DecidableEq W] [NeZero S] in
/-- The assignment may give the inode the key before it is in use. -/
theorem BlocksOk.rebind (ok : BlocksOk a s) (calls : CallsOk s) (inside : s.call w = .inBlock c p)
    (asked : (s.core.writer w).request = some r) (fits : c.lbn < 2 ^ 18) :
    BlocksOk (a.rebind r.inode (c.volume, c.lbn)) s := by
  obtain ⟨volume, lbn⟩ := calls.key_inside inside asked
  have kept : ∀ i, s.core.state i ≠ .free →
      (a.rebind r.inode (c.volume, c.lbn)).key i = a.key i := by
    intro i used
    by_cases here : i = r.inode
    · subst here
      rw [Assignment.rebind_self]
      exact (ok.key_of_carries ⟨used, volume, lbn⟩).symm
    · refine Assignment.rebind_other here fun same => here ?_
      exact calls.carries_alone inside asked (same ▸ ok.agrees i used)
  refine ⟨fun i used => ?_, Assignment.rebind_low ok.low (by dsimp only; omega), ok.small,
    ok.durability.reassign calls.handOff kept, ok.unheld⟩
  rw [kept i used]
  exact ok.agrees i used

omit [NeZero S] in
/-- A call in its block. -/
theorem BlocksOk.block_step (ok : BlocksOk a s) (calls : CallsOk s)
    (inside : s.call w = .inBlock c p) (asked : (s.core.writer w).request = some r)
    (fits : c.lbn < 2 ^ 18)
    {core : ThreadState W N S} (step : blockNext s.volume c.volume w s.core = some core) :
    BlocksOk (a.rebind r.inode (c.volume, c.lbn)) { s with core := core } := by
  have bound := ok.rebind calls inside asked fits
  obtain ⟨volume, lbn⟩ := calls.key_inside inside asked
  have key : (a.rebind r.inode (c.volume, c.lbn)).key r.inode = (c.volume, c.lbn) :=
    Assignment.rebind_self
  have home : (a.rebind r.inode (c.volume, c.lbn)).volume r.inode = c.volume :=
    congrArg Prod.fst key
  have writes := blockNext_eq asked (calls.handOff.narrow w r asked) volume home step
  have effect := block_effect asked step
  obtain ⟨durable, cache⟩ := writer_files writes
  refine ⟨fun i used => ?_, bound.low, fun i used => ?_,
    bound.durability.writer_step calls.handOff writes, fun other none => ?_⟩
  · rcases effect.state i with same | ⟨_, rfl⟩
    · obtain ⟨_, carried⟩ := bound.agrees i fun isFree => used (same.trans isFree)
      exact ⟨used, carried⟩
    · rw [key]
      exact ⟨used, volume, lbn⟩
  · rcases effect.state i with same | ⟨_, rfl⟩
    · exact bound.small i fun isFree => used (same.trans isFree)
    · exact lbn ▸ fits
  · simp only [durable, cache]
    refine bound.unheld other fun i carries => none i ⟨fun isFree => ?_, carries.2⟩
    rcases effect.state i with same | ⟨dirty, _⟩
    · exact carries.1 (same.symm.trans isFree)
    · cases dirty.symm.trans isFree

end Inside

omit [NeZero S] in
theorem BlocksOk.call_step (ok : BlocksOk a s) (calls : CallsOk s) {w : W} {request : Call}
    (fits : ∀ c, (s.call w).asked = some c → c.lbn < 2 ^ 18)
    (step : callNext w request s = some t) : ∃ b, BlocksOk b t := by
  have unmoved : ∀ {core : ThreadState W N S}, core.durable = s.core.durable ∧
      core.cache = s.core.cache → ∀ key : VolumeIdx × Nat, (∀ i, ¬ Carries s i key) →
      readBlock blockSize (core.durable key.1) key.2 =
        readBlock blockSize (core.cache key.1) key.2 := by
    rintro core ⟨durable, cache⟩ key none
    rw [durable, cache]
    exact ok.unheld key none
  cases calls.call_move step with
  | quiet was core keys outside =>
    exact ⟨a, ok.of_same (core ▸ ok.durability) (fun i => by rw [core]) keys
      (unmoved (by rw [core]; exact ⟨rfl, rfl⟩))⟩
  | enter c p i was core keys inside =>
    have moved : Durability a t.core := by
      rw [core]
      exact ok.durability.frame
    exact ⟨a, ok.of_same moved (fun i => by rw [core]; rfl)
      (fun i _ => ⟨by rw [keys.1], by rw [keys.2]⟩) (unmoved (by rw [core]; exact ⟨rfl, rfl⟩))⟩
  | leave r last core keys outside =>
    have moved : Durability a t.core := by
      rw [core]
      exact ok.durability.frame
    exact ⟨a, ok.of_same moved (fun i => by rw [core]; rfl)
      (fun i _ => ⟨by rw [keys.1], by rw [keys.2]⟩) (unmoved (by rw [core]; exact ⟨rfl, rfl⟩))⟩
  | block c p core inside step only =>
    have knows := calls.call w
    rw [inside] at knows
    obtain ⟨_, r, asked, _⟩ := knows
    rw [only]
    exact ⟨_, ok.block_step calls inside asked (fits c (by rw [inside]; rfl)) step⟩

omit [DecidableEq W] in
/-- What a flusher has locked carries the keys it goes by. -/
theorem BlocksOk.drain_eq (ok : BlocksOk a s) (calls : CallsOk s) (v : VolumeIdx) :
    drainNext s.lbn s.volume v s.core = flusherNext a v s.core :=
  drainNext_eq fun i member => by
    have dirty := (calls.handOff.dirties_alone member).1
    exact (ok.agrees i (by rw [dirty]; decide)).2

omit [DecidableEq W] in
theorem BlocksOk.flusher_step (ok : BlocksOk a s) (calls : CallsOk s) {v : VolumeIdx}
    {core : ThreadState W N S} (step : drainNext s.lbn s.volume v s.core = some core) :
    BlocksOk a { s with core := core } := by
  have effect := drain_effect calls.handOff step
  rw [ok.drain_eq calls] at step
  obtain ⟨_, durable, cache⟩ := flusher_contents ok.low
    (fun i member => ok.durability.hands v i (List.mem_append_right _ member)) step
  refine ok.of_same (ok.durability.flusher_step ok.low step) (fun i => ?_) (fun _ _ => ⟨rfl, rfl⟩)
    fun key none => ?_
  · rcases effect.state i with same | ⟨old, new⟩
    · simp only [same]
    · simp only [old, new]
      exact iff_of_false (by decide) (by decide)
  · simp only [durable]
    rw [cache, ok.unheld key none]
    rintro i member ⟨volume, lbn⟩
    have dirty := (calls.handOff.dirties_alone member).1
    have carries := ok.agrees i (by rw [dirty]; decide)
    rw [show a.key i = key from Prod.ext volume lbn] at carries
    exact none i carries

omit [DecidableEq W] [NeZero S] in
theorem BlocksOk.syncer_step (ok : BlocksOk a s) (calls : CallsOk s) {k : Fin S}
    {core : ThreadState W N S} (step : syncerNext k s.core = some core) :
    BlocksOk a { s with core := core } := by
  obtain ⟨_, states⟩ := sync_effect calls.handOff step
  obtain ⟨_, cache, durable⟩ := syncer_contents step
  refine ok.of_same (ok.durability.syncer_step calls.handOff step) (fun i => ?_)
    (fun _ _ => ⟨rfl, rfl⟩) fun key none => ?_
  · rcases states i with same | ⟨old, new⟩
    · simp only [same]
    · simp only [old, new]
      exact iff_of_false (by decide) (by decide)
  · simp only [cache]
    rcases durable with same | same
    · rw [same]
      exact ok.unheld key none
    · rw [same]

omit [Fintype W] [DecidableEq W] [NeZero S] in
/-- What a balloon thread does to the inodes in use. -/
theorem balloonNext_core {b : Fin defaultNumBalloon} (step : balloonNext b s = some t) :
    t.volume = s.volume ∧ t.lbn = s.lbn ∧ t.call = s.call ∧
      ((∃ cleanQueue, t.core = { s.core with cleanQueue := cleanQueue }) ∨
        ∃ idx p, s.balloon b = .storeFree idx p ∧
          t.core = { s.core with state := Function.update s.core.state idx .free }) := by
  cases pc : s.balloon b with
  | idle | retest | delete | enqueue =>
    simp only [balloonNext, pc] at step
    obtain ⟨_, _, rfl⟩ := Option.map_eq_some_iff.mp step
    exact ⟨rfl, rfl, rfl, .inl ⟨_, rfl⟩⟩
  | test | giveUp | count | nextQueue | unlock =>
    simp only [balloonNext, pc] at step
    cases step
    exact ⟨rfl, rfl, rfl, .inl ⟨_, rfl⟩⟩
  | search idx =>
    simp only [balloonNext, pc] at step
    obtain ⟨_, _, step⟩ := Option.bind_eq_some_iff.mp step
    obtain ⟨_, _, step⟩ := Option.bind_eq_some_iff.mp step
    cases step
    exact ⟨rfl, rfl, rfl, .inl ⟨_, rfl⟩⟩
  | tryLock idx p =>
    simp only [balloonNext, pc] at step
    split at step <;> cases step <;> exact ⟨rfl, rfl, rfl, .inl ⟨_, rfl⟩⟩
  | storeFree idx p =>
    simp only [balloonNext, pc] at step
    cases step
    exact ⟨rfl, rfl, rfl, .inr ⟨idx, p, rfl, rfl⟩⟩

omit [Fintype W] [DecidableEq W] [NeZero S] in
/-- The block of a CLEAN inode is in the file and on disk. -/
theorem BlocksOk.clean (ok : BlocksOk a s) {i : InodeIdx N} {key : VolumeIdx × Nat}
    (carries : Carries s i key) (clean : s.core.state i = .clean) :
    readBlock blockSize (s.core.cache key.1) key.2 = s.core.blockOf i ∧
      readBlock blockSize (s.core.durable key.1) key.2 = s.core.blockOf i := by
  rw [← ok.key_of_carries carries]
  exact ⟨ok.durability.written i (.inr clean), ok.durability.clean i clean⟩

omit [Fintype W] [DecidableEq W] [NeZero S] in
/-- An inode in use is set to FREE when it is CLEAN. -/
theorem BlocksOk.free (ok : BlocksOk a s) {idx : InodeIdx N} (clean : s.core.state idx = .clean)
    (core : t.core = { s.core with state := Function.update s.core.state idx .free })
    (keys : t.volume = s.volume ∧ t.lbn = s.lbn) : BlocksOk a t := by
  obtain ⟨volume, lbn⟩ := keys
  have state : ∀ {i}, t.core.state i ≠ .free → i ≠ idx ∧ s.core.state i ≠ .free := by
    intro i used
    have other : i ≠ idx := by
      rintro rfl
      rw [core] at used
      exact used (Function.update_self i _ _)
    rw [core] at used
    exact ⟨other, by simpa only [Function.update_of_ne other] using used⟩
  refine ⟨fun i used => ?_, ok.low, fun i used => ?_, ?_, fun key none => ?_⟩
  · rw [Carries, volume, lbn]
    exact ⟨used, (ok.agrees i (state used).2).2⟩
  · rw [lbn]
    exact ok.small i (state used).2
  · have notFree : ¬ (InodeState.free = .sync ∨ InodeState.free = .clean) := by decide
    rw [core]
    exact ok.durability.store idx .free (absurd · notFree) (absurd · (by decide))
  · have files : t.core.durable = s.core.durable ∧ t.core.cache = s.core.cache := by
      rw [core]
      exact ⟨rfl, rfl⟩
    rw [files.1, files.2]
    by_cases held : ∃ i, Carries s i key
    · obtain ⟨i, carries⟩ := held
      have here : i = idx := by
        by_contra other
        refine none i ⟨?_, volume ▸ carries.2.1, lbn ▸ carries.2.2⟩
        rw [core]
        simpa only [Function.update_of_ne other] using carries.1
      subst here
      obtain ⟨cached, onDisk⟩ := ok.clean carries clean
      rw [cached, onDisk]
    · exact ok.unheld key fun i carries => held ⟨i, carries⟩

omit [DecidableEq W] [NeZero S] in
theorem BlocksOk.balloon_step (ok : BlocksOk a s) (calls : CallsOk s) {b : Fin defaultNumBalloon}
    (step : balloonNext b s = some t) : BlocksOk a t := by
  obtain ⟨volume, lbn, _, ⟨cleanQueue, core⟩ | ⟨idx, p, freeing, core⟩⟩ := balloonNext_core step
  · have moved : Durability a t.core := by
      rw [core]
      exact ok.durability.frame
    refine ok.of_same moved (fun i => by rw [core]) (fun i _ => ⟨by rw [volume], by rw [lbn]⟩)
      fun key none => ?_
    rw [core]
    exact ok.unheld key none
  · have knows := calls.balloon b
    rw [freeing] at knows
    exact ok.free knows.2 core ⟨volume, lbn⟩

omit [DecidableEq W] [NeZero S] in
theorem BlocksOk.writeBack (ok : BlocksOk a s) (calls : CallsOk s)
    (written : VolumeIdx → Nat → Bool) :
    BlocksOk a { s with
      core := { s.core with durable := writeBack written s.core.cache s.core.durable } } := by
  refine ok.of_same (ok.durability.writeBack calls.handOff written) (fun _ => Iff.rfl)
    (fun _ _ => ⟨rfl, rfl⟩) fun key none => ?_
  have before := ok.unheld key none
  funext k
  have byte := congrFun before k
  simp only [readBlock, readAt, Source.writeBack] at byte ⊢
  rw [byte, ite_self]

theorem CallBlocks.call_step (ok : CallBlocks s) (calls : CallsOk s) {w : W} {request : Call}
    (low : s.call w = .idle → request.lbn < 2 ^ 18) (step : callNext w request s = some t) :
    CallBlocks t := by
  obtain ⟨a, blocks⟩ := ok.assigned
  have effect := calls.call_effect step
  refine ⟨blocks.call_step calls (ok.lows w) step, fun x c p r inside asked => ?_,
    fun x c asked => ?_⟩
  · by_cases mine : x = w
    · subst mine
      cases calls.call_move step with
      | quiet was core keys outside | leave q last core keys outside =>
        exact absurd inside (CallPc.ne_inBlock outside c p)
      | enter d q i was core keys inside' =>
        cases inside.symm.trans inside'
        rw [core, ThreadState.toWriter_self] at asked
        cases asked
        exact ⟨rfl, rfl⟩
      | block d q core inside' next only =>
        have stays : t.call = s.call := by rw [only]
        have knows := calls.call x
        rw [inside'] at knows
        obtain ⟨_, q, asked', _⟩ := knows
        rw [only] at asked
        cases asked.symm.trans (block_effect asked' next).asked
        exact ok.requests x c p r (stays ▸ inside) asked'
    · rw [effect.calls x mine] at inside
      rw [effect.writers x mine] at asked
      exact ok.requests x c p r inside asked
  · by_cases mine : x = w
    · subst mine
      rcases callNext_asked step with none | same | ⟨idle, new⟩
      · rw [none] at asked
        cases asked
      · exact ok.lows x c (same ▸ asked)
      · rw [new] at asked
        cases asked
        exact low idle
    · rw [effect.calls x mine] at asked
      exact ok.lows x c asked

omit [Fintype W] [DecidableEq W] [NeZero S] in
/-- A step that moves no call. -/
theorem CallBlocks.of_others (ok : CallBlocks s) (assigned : ∃ a, BlocksOk a t)
    (calls : t.call = s.call) (writers : t.core.writer = s.core.writer) : CallBlocks t := by
  refine ⟨assigned, fun w c p r inside asked => ?_, fun w c asked => ?_⟩
  · rw [calls] at inside
    rw [writers] at asked
    exact ok.requests w c p r inside asked
  · rw [calls] at asked
    exact ok.lows w c asked

theorem CallBlocks.next (ok : CallBlocks s) (calls : CallsOk s) {e : StorageEvent W S}
    (low : LowCalls s e) (step : storageNext s e = some t) : CallBlocks t := by
  obtain ⟨a, blocks⟩ := ok.assigned
  cases e with
  | writeBack written =>
    cases step
    exact ok.of_others ⟨a, blocks.writeBack calls written⟩ rfl rfl
  | step e =>
    cases e with
    | call w request => exact ok.call_step calls low step
    | flusher v =>
      obtain ⟨core, next, rfl⟩ := Option.map_eq_some_iff.mp step
      exact ok.of_others ⟨a, blocks.flusher_step calls next⟩ rfl
        (drain_effect calls.handOff next).writers
    | syncer k =>
      obtain ⟨core, next, rfl⟩ := Option.map_eq_some_iff.mp step
      exact ok.of_others ⟨a, blocks.syncer_step calls next⟩ rfl (sync_effect calls.handOff next).1
    | balloon b =>
      obtain ⟨_, _, same, ⟨_, core⟩ | ⟨_, _, _, core⟩⟩ := balloonNext_core step
      · exact ok.of_others ⟨a, blocks.balloon_step calls step⟩ same (by rw [core])
      · exact ok.of_others ⟨a, blocks.balloon_step calls step⟩ same (by rw [core])

omit [Fintype W] [DecidableEq W] [NeZero S] in
theorem CallBlocks.start (small : N < 2 ^ 32) (start : CallStart s)
    (onDisk : s.core.durable = s.core.cache) : CallBlocks s := by
  have unused : ∀ i, ¬ s.core.state i ≠ .free := fun i used => used (start.core.free i)
  obtain ⟨idle, _⟩ := start.idle
  refine ⟨⟨blocksOf N 0, fun i used => absurd used (unused i), fun i => ?_,
    fun i used => absurd used (unused i), .start start.core, fun key _ => by rw [onDisk]⟩,
    fun w c p r inside => ?_, fun w c asked => ?_⟩
  · have bound := i.isLt
    simp only [blocksOf]
    omega
  · rw [idle] at inside
    cases inside
  · rw [idle] at asked
    cases asked

end Steps

end BurstBuffer.Source
