import Mathlib.Data.Set.Function
import BurstBuffer.Invariants.WideIndex

/-!
# The inode life cycle in reachable states

An inode is queued exactly where its state says, the counters count, and the
valid hash nodes are the inodes in use.
-/
namespace BurstBuffer.Guarantees

open Library Source

variable {C : CuckoohashMap} {N : Nat}

section Queued

variable {κ : Type} {capacity : Nat}

/-- Exactly once in exactly one of the queues. -/
def OnceIn (queues : κ → LfQueue (InodeIdx N) capacity) (i : InodeIdx N) : Prop :=
  ∃ k, (queues k).values.count i = 1 ∧ ∀ j, j ≠ k → i ∉ (queues j).values

def InNone (queues : κ → LfQueue (InodeIdx N) capacity) (i : InodeIdx N) : Prop :=
  ∀ k, i ∉ (queues k).values

theorem placed_of_copies [Fintype κ] [DecidableEq κ]
    {queues : κ → LfQueue (InodeIdx N) capacity} {i : InodeIdx N} {placed : Prop}
    [Decidable placed] (copied : copies (contents queues) i = if placed then 1 else 0) :
    if placed then OnceIn queues i else InNone queues i := by
  split
  · rename_i here
    rw [if_pos here] at copied
    exact copies_eq_one.mp copied
  · rename_i absent
    rw [if_neg absent] at copied
    exact copies_eq_zero.mp copied

end Queued

/-- A valid node stored in the hash table of some volume. -/
def ValidNode (s : State C N) (p : NodePtr) : Prop :=
  (∃ v lbn, nodeAt s v lbn = some p) ∧ (s.hashNodes p).isValid = true

structure LifeCycleHolds (s : State C N) : Prop where
  free : ∀ i, if (s.inodeTable i).state = .free then OnceIn s.inodeFreeLfqueue i
    else InNone s.inodeFreeLfqueue i
  dirty : ∀ i, if (s.inodeTable i).state = .dirty then
      ∃ v, (s.inodeTable i).volume = some v ∧ (s.inodeDirtyLfqueue v).values.count i = 1 ∧
        ∀ w, w ≠ v → i ∉ (s.inodeDirtyLfqueue w).values
    else InNone s.inodeDirtyLfqueue i
  sync : ∀ i, if (s.inodeTable i).state = .sync then OnceIn s.inodeSyncLfqueue i
    else InNone s.inodeSyncLfqueue i
  clean : ∀ i, (s.inodeTable i).state = .clean → ∃ k, i ∈ (s.inodeCleanLfqueue k).values
  freeCount : s.inodeFreeCount = (Finset.univ.filter fun i => (s.inodeTable i).state = .free).card
  dirtyCount :
    s.inodeDirtyCount = (Finset.univ.filter fun i => (s.inodeTable i).state = .dirty).card
  nodes : Set.BijOn (fun p => (s.hashNodes p).inode) {p | ValidNode s p}
    {x | ∃ i, x = some i ∧ (s.inodeTable i).state ≠ .free}
  keys : ∀ v lbn p, nodeAt s v lbn = some p → (s.hashNodes p).isValid = true →
    ∃ i, (s.hashNodes p).inode = some i ∧ (s.inodeTable i).lbn = lbn ∧
      (s.inodeTable i).volume = some v

section Derive

variable {s : State C N}

theorem dirty_place (cycle : LifeCycle s []) (i : InodeIdx N) :
    if (s.inodeTable i).state = .dirty then
      ∃ v, (s.inodeTable i).volume = some v ∧ (s.inodeDirtyLfqueue v).values.count i = 1 ∧
        ∀ w, w ≠ v → i ∉ (s.inodeDirtyLfqueue w).values
    else InNone s.inodeDirtyLfqueue i := by
  have counted := (cycle.inode i).dirty
  split
  · rename_i isDirty
    obtain ⟨v, owner⟩ := Option.isSome_iff_exists.mp
      ((cycle.inode i).owned (by rw [isDirty]; decide))
    refine ⟨v, owner, ?_, fun w other => List.count_eq_zero.mp ?_⟩
    · rw [counted, if_pos ⟨isDirty, owner, List.not_mem_nil⟩]
    · rw [counted, if_neg]
      rintro ⟨_, volume, _⟩
      exact other (Option.some.inj (volume.symm.trans owner))
  · rename_i other
    intro v
    rw [← List.count_eq_zero, counted, if_neg fun all => other all.1]

theorem key_of_node (cycle : LifeCycle s []) {v : VolumeIdx} {lbn : Nat} {p : NodePtr}
    (found : nodeAt s v lbn = some p) (valid : (s.hashNodes p).isValid = true) :
    ∃ i, (s.hashNodes p).inode = some i ∧ (s.inodeTable i).state ≠ .free ∧
      (s.inodeTable i).lbn = lbn ∧ (s.inodeTable i).volume = some v := by
  obtain ⟨i, inode⟩ := Option.isSome_iff_exists.mp ((cycle.nodes.valid found).mp valid)
  have bound : validInode s v lbn = some i := by rw [validInode_eq_inode cycle.nodes found, inode]
  obtain ⟨used, owner, key⟩ := ((cycle.inode i).bound v lbn).mp bound
  exact ⟨i, inode, used, key, owner⟩

theorem nodes_bijOn (cycle : LifeCycle s []) :
    Set.BijOn (fun p => (s.hashNodes p).inode) {p | ValidNode s p}
      {x | ∃ i, x = some i ∧ (s.inodeTable i).state ≠ .free} := by
  refine ⟨?_, ?_, ?_⟩
  · rintro p ⟨⟨v, lbn, found⟩, valid⟩
    obtain ⟨i, inode, used, _⟩ := key_of_node cycle found valid
    exact ⟨i, inode, used⟩
  · rintro p ⟨⟨v, lbn, found⟩, valid⟩ q ⟨⟨w, l, found'⟩, valid'⟩ same
    obtain ⟨i, inode, _, key, owner⟩ := key_of_node cycle found valid
    obtain ⟨j, inode', _, key', owner'⟩ := key_of_node cycle found' valid'
    have equal : i = j := Option.some.inj (inode.symm.trans (same.trans inode'))
    subst equal
    cases owner.symm.trans owner'
    rw [key] at key'
    subst key'
    exact Option.some.inj (found.symm.trans found')
  · rintro x ⟨i, rfl, used⟩
    obtain ⟨v, owner⟩ := Option.isSome_iff_exists.mp ((cycle.inode i).owned used)
    obtain ⟨p, found, valid, inode⟩ := nodeAt_of_validInode (cycle.validInode_self used owner)
    exact ⟨p, ⟨⟨v, _, found⟩, valid⟩, inode⟩

theorem lifeCycleHolds_of_lifeCycle (cycle : LifeCycle s []) : LifeCycleHolds s where
  free i := placed_of_copies (cycle.inode i).free
  dirty := dirty_place cycle
  sync i := placed_of_copies (cycle.inode i).sync
  clean i isClean := copies_pos.mp ((cycle.inode i).clean isClean)
  freeCount := cycle.freeCount
  dirtyCount := cycle.dirtyCount
  nodes := nodes_bijOn cycle
  keys v lbn p found valid := by
    obtain ⟨i, inode, _, key, owner⟩ := key_of_node cycle found valid
    exact ⟨i, inode, key, owner⟩

end Derive

/-- In every run whose block steps are narrow, the life cycle holds in every state. -/
theorem inode_life_cycle (C : CuckoohashMap) (N limit : Nat) (cwd : String) (s : State C N)
    (reach : (system C N cwd limit).ReachableBy NarrowStep s) : LifeCycleHolds s :=
  lifeCycleHolds_of_lifeCycle (SystemOk.of_reachable reach).cycle

/-- After the first volume has been opened and its first block written. -/
theorem inode_life_cycle_one_block : ∃ s : State functionMap 128,
    (system functionMap 128 "/" (2 ^ 32)).ReachableBy NarrowStep s ∧
      validInode s zeroVolume 0 = some 0 ∧ LifeCycleHolds s := by
  obtain ⟨s, reach, filled⟩ := one_block_run "/" (2 ^ 32) (by decide)
  exact ⟨s, reach, (filled.bound zeroVolume 0 0).mpr ⟨rfl, by decide, rfl⟩,
    inode_life_cycle functionMap 128 (2 ^ 32) "/" s reach⟩

/-- With `2^27` inodes the life cycle breaks: the inode `2^26` is DIRTY and in no
dirty queue. -/
theorem inode_life_cycle_wide : ¬ ∀ s : State functionMap wideN,
    (system functionMap wideN "/" (2 ^ 32)).Reachable s → LifeCycleHolds s := by
  intro holds
  obtain ⟨_, t, i, _, _, reach, _, misplaced⟩ := wide_run (2 ^ 32) (by decide)
  have placed := (holds t reach).dirty i
  rw [if_pos misplaced.isDirty] at placed
  obtain ⟨v, _, once, _⟩ := placed
  have member := List.count_pos_iff.mp (once ▸ Nat.one_pos)
  exact misplaced.queued v i member misplaced.key

end BurstBuffer.Guarantees
