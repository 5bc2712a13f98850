import Mathlib.Order.Nat
import Mathlib.Data.Nat.Count
import BurstBuffer.Invariants.Progress

/-!
# The block loop of nvm_durable_write

Where the loop puts the caller's bytes, in terms of the state before it: which
inode each block goes to, how many bytes are copied, always from the start of
`buf` to the start of the block, and what the block held before the copy.
-/
namespace BurstBuffer.Source

open Library

variable {C : CuckoohashMap} {N : Nat}

instance : NeZero blockSize := ⟨by decide⟩

/-- The free inode that is taken after `m` others: the free queues take turns. -/
def nthFree (s : State C N) (m : Nat) : Option (InodeIdx N) :=
  (s.inodeFreeLfqueue (roundRobin defaultNumFree (s.freeDequeueIdx + m))).values[m / defaultNumFree]?

/-- How many of the `j` blocks of volume `v` from `lbn` on have no inode. -/
def unboundBelow (s : State C N) (v : VolumeIdx) (lbn j : Nat) : Nat :=
  Nat.count (fun d => (validInode s v (lbn + d)).isNone) j

/-- The inode that block `j` of a call starting at block `lbn` is written to. -/
def callInode (s : State C N) (v : VolumeIdx) (lbn j : Nat) : Option (InodeIdx N) :=
  match validInode s v (lbn + j) with
  | some i => some i
  | none => nthFree s (unboundBelow s v lbn j)

/-- What the block that round `j` copies into holds before the copy: first the
ownerless block of the volume, then the block the round before has replaced. -/
def residue (s : State C N) (v : VolumeIdx) (lbn : Nat) : Nat → Block
  | 0 => s.blockTable (s.volumeTable v).blockIndex
  | j + 1 => ((callInode s v lbn j).map s.blockOf).getD fun _ => 0

theorem residue_succ {s : State C N} {v : VolumeIdx} {lbn j : Nat} {i : InodeIdx N}
    (chosen : callInode s v lbn j = some i) : residue s v lbn (j + 1) = s.blockOf i := by
  rw [residue, chosen]
  rfl

theorem blockInode_eq_nthFree {s : State C N} {v : VolumeIdx} {lbn : Nat}
    (unbound : validInode s v lbn = none) : blockInode s v lbn = nthFree s 0 := by
  rw [blockInode, unbound, nthFree]
  dsimp only
  rw [Nat.add_zero, Nat.zero_div]
  cases head : (s.inodeFreeLfqueue (roundRobin defaultNumFree s.freeDequeueIdx)).values with
  | nil =>
    rw [List.getElem?_nil, Option.map_eq_none_iff]
    cases popped : (s.inodeFreeLfqueue (roundRobin defaultNumFree s.freeDequeueIdx)).dequeue with
    | none => rfl
    | some result =>
      rw [LfQueue.dequeue_eq_some.mp popped] at head
      cases head
  | cons i rest =>
    have fits := (s.inodeFreeLfqueue (roundRobin defaultNumFree s.freeDequeueIdx)).fits
    rw [head, List.length_cons] at fits
    have popped : (s.inodeFreeLfqueue (roundRobin defaultNumFree s.freeDequeueIdx)).dequeue =
        some (i, ⟨rest, Nat.le_of_succ_le fits⟩) := LfQueue.dequeue_eq_some.mpr head
    rw [popped]
    rfl

/-- Taking a free inode moves all later ones up by one. -/
theorem nthFree_taken {s t : State C N} {i : InodeIdx N} {rest : LfQueue (InodeIdx N) N}
    (head : (s.inodeFreeLfqueue (roundRobin defaultNumFree s.freeDequeueIdx)).dequeue =
      some (i, rest))
    (queues : t.inodeFreeLfqueue =
      Function.update s.inodeFreeLfqueue (roundRobin defaultNumFree s.freeDequeueIdx) rest)
    (turn : t.freeDequeueIdx = s.freeDequeueIdx + 1) (m : Nat) :
    nthFree t m = nthFree s (m + 1) := by
  have values := LfQueue.dequeue_eq_some.mp head
  have position : s.freeDequeueIdx + 1 + m = s.freeDequeueIdx + (m + 1) := by omega
  rw [nthFree, nthFree, queues, turn, position]
  by_cases same : roundRobin defaultNumFree (s.freeDequeueIdx + (m + 1)) =
      roundRobin defaultNumFree s.freeDequeueIdx
  · have parity : (s.freeDequeueIdx + (m + 1)) % 2 = s.freeDequeueIdx % 2 := congrArg Fin.val same
    have half : (m + 1) / defaultNumFree = m / defaultNumFree + 1 := by
      change (m + 1) / 2 = m / 2 + 1
      omega
    rw [same, Function.update_self, values, half, List.getElem?_cons_succ]
  · have parity : (s.freeDequeueIdx + (m + 1)) % 2 ≠ s.freeDequeueIdx % 2 :=
      fun equal => same (Fin.ext equal)
    have half : (m + 1) / defaultNumFree = m / defaultNumFree := by
      change (m + 1) / 2 = m / 2
      omega
    rw [Function.update_of_ne same, half]

/-- The state `t` after `j` rounds of a call on blocks `lbn, lbn + 1, …` of
volume `v`, which copied `size d` bytes in round `d`. -/
structure CallProgress (limit : Nat) (s : State C N) (v : VolumeIdx) (lbn : Nat)
    (buf : Nat → UInt8) (size : Nat → Nat) (j : Nat) (t : State C N) : Prop where
  ok : SystemOk limit t
  bound : ∀ w l, validInode t w l =
    if w = v ∧ lbn ≤ l ∧ l < lbn + j then callInode s v lbn (l - lbn) else validInode s w l
  free : ∀ m, nthFree t m = nthFree s (unboundBelow s v lbn j + m)
  ownerless : t.blockTable (t.volumeTable v).blockIndex = residue s v lbn j
  blocks : ∀ i, (∀ d < j, callInode s v lbn d ≠ some i) → t.blockOf i = s.blockOf i
  stored : ∀ d < j, ∃ i, validInode t v (lbn + d) = some i ∧
    t.blockOf i = memcpy (residue s v lbn d) buf (size d)

namespace CallProgress

variable {limit : Nat} {s t u : State C N} {v : VolumeIdx} {lbn j : Nat} {buf : Nat → UInt8}
  {size : Nat → Nat} {i : InodeIdx N}

theorem zero (ok : SystemOk limit s) : CallProgress limit s v lbn buf size 0 s where
  ok := ok
  bound w l := by rw [if_neg (by omega)]
  free m := by simp [unboundBelow]
  ownerless := rfl
  blocks _ _ := rfl
  stored d below := absurd below (Nat.not_lt_zero d)

theorem bound_next (progress : CallProgress limit s v lbn buf size j t) :
    validInode t v (lbn + j) = validInode s v (lbn + j) := by
  rw [progress.bound, if_neg (by omega)]

/-- The next round works on the inode foreseen for it. -/
theorem blockInode (progress : CallProgress limit s v lbn buf size j t) :
    blockInode t v (lbn + j) = callInode s v lbn j := by
  have same := progress.bound_next
  cases bound : validInode s v (lbn + j) with
  | some i =>
    rw [bound] at same
    rw [Source.blockInode, same, callInode, bound]
  | none =>
    rw [bound] at same
    rw [blockInode_eq_nthFree same, progress.free, callInode, bound]
    rfl

/-- No earlier round has worked on it. -/
theorem fresh (progress : CallProgress limit s v lbn buf size j t)
    (source : InodeSource t u v (lbn + j) i) : ∀ d < j, callInode s v lbn d ≠ some i := by
  intro d below used
  have bound := progress.bound v (lbn + d)
  rw [if_pos ⟨rfl, by omega, by omega⟩, Nat.add_sub_cancel_left, used] at bound
  have key := (progress.ok.cycle.source_bound source).1 bound
  omega

theorem succ (progress : CallProgress limit s v lbn buf size j t) (inside : lbn + j < limit)
    (step : BlockWritten t u v (lbn + j) buf (size j) i) :
    CallProgress limit s v lbn buf size (j + 1) u := by
  have cycle := progress.ok.cycle
  have owned := progress.ok.owned
  have chosen : callInode s v lbn j = some i := by
    rw [← progress.blockInode, step.source.blockInode]
  have fresh := progress.fresh step.source
  refine ⟨progress.ok.written inside step, fun w l => ?_, fun m => ?_, ?_, fun k unused => ?_,
    fun d below => ?_⟩
  · rw [step.bound]
    by_cases here : w = v ∧ l = lbn + j
    · obtain ⟨rfl, rfl⟩ := here
      rw [if_pos ⟨rfl, rfl⟩, if_pos ⟨rfl, by omega, by omega⟩, Nat.add_sub_cancel_left, chosen]
    · rw [if_neg here, progress.bound]
      by_cases before : w = v ∧ lbn ≤ l ∧ l < lbn + j
      · rw [if_pos before, if_pos ⟨before.1, before.2.1, by omega⟩]
      · rw [if_neg before, if_neg]
        rintro ⟨home, low, high⟩
        exact here ⟨home, by
          by_contra other
          exact before ⟨home, low, by omega⟩⟩
  · cases step.source with
    | bound valid queues _ turn =>
      rw [progress.bound_next] at valid
      rw [unboundBelow, Nat.count_succ, if_neg (by rw [valid]; simp), Nat.add_zero, ← unboundBelow,
        ← progress.free, nthFree, nthFree, queues, turn]
    | taken unbound _ rest head queues _ turn =>
      rw [progress.bound_next] at unbound
      rw [unboundBelow, Nat.count_succ, if_pos (by rw [unbound]; rfl), ← unboundBelow,
        nthFree_taken head queues turn, progress.free]
      congr 1
      omega
  · have replaced : (t.inodeTable i).blockIndex ≠ (t.volumeTable v).blockIndex :=
      blockIndex_ne owned.injective i v
    rw [step.volumeBlock, if_pos rfl, step.blocks, Function.update_of_ne replaced,
      residue_succ chosen]
    exact progress.blocks i fresh
  · have other : k ≠ i := by
      rintro rfl
      exact unused j (Nat.lt_succ_self j) chosen
    rw [step.blockOf_other owned other]
    exact progress.blocks k fun d below => unused d (by omega)
  · by_cases last : d = j
    · subst d
      exact ⟨i, by rw [step.bound, if_pos ⟨rfl, rfl⟩],
        by rw [step.blockOf_written, progress.ownerless]⟩
    · obtain ⟨k, valid, bytes⟩ := progress.stored d (by omega)
      have other : k ≠ i := by
        rintro rfl
        have key := (cycle.source_bound step.source).1 valid
        omega
      refine ⟨k, ?_, by rw [step.blockOf_other owned other, bytes]⟩
      rw [step.bound, if_neg (by omega), valid]

end CallProgress

section Loop

/-- The number of blocks a request touches. -/
def callBlocks (offset count : Nat) : Nat :=
  (offset + count - 1) / blockSize - offset / blockSize + 1

/-- The bytes round `j` copies: the rest of a block from `offset` on in the first
round, whatever `count` is, then whole blocks and the leftover. -/
def chunk (offset count j : Nat) : Nat :=
  if j = 0 then blockSize - offset % blockSize
  else min blockSize (offset + count - blockSize * (offset / blockSize + j))

/-- The variable `count` of the loop before round `j`. -/
def bytesLeft (offset count j : Nat) : Nat :=
  if j = 0 then count else offset + count - blockSize * (offset / blockSize + j)

variable {offset count j : Nat}

theorem lbnEnd_eq (fits : offset + count ≤ 2 ^ 45) (positive : 0 < count) :
    (offset + count + 2 ^ 64 - 1) % 2 ^ 64 / blockSize % 2 ^ 32 =
      (offset + count - 1) / blockSize := by
  rw [blockSize_eq]
  omega

theorem lbnStart_eq (fits : offset + count ≤ 2 ^ 45) :
    offset / blockSize % 2 ^ 32 = offset / blockSize := by
  rw [blockSize_eq]
  omega

/-- While a block remains, `count` does not underflow. -/
theorem bytesLeft_succ (fits : offset + count ≤ 2 ^ 45) (positive : 0 < count)
    (more : j + 1 < callBlocks offset count) :
    (bytesLeft offset count j + 2 ^ 64 - chunk offset count j) % 2 ^ 64 =
      bytesLeft offset count (j + 1) := by
  rw [callBlocks, blockSize_eq] at more
  rw [bytesLeft, bytesLeft, chunk, if_neg (Nat.succ_ne_zero j), blockSize_eq]
  split <;> omega

theorem chunk_succ :
    (if bytesLeft offset count (j + 1) > blockSize then blockSize
      else bytesLeft offset count (j + 1) % 2 ^ 32) = chunk offset count (j + 1) := by
  rw [bytesLeft, chunk, if_neg (Nat.succ_ne_zero j), if_neg (Nat.succ_ne_zero j), blockSize_eq]
  split <;> omega

variable {limit : Nat} {s t u : State C N} {v : VolumeIdx} {buf : Nat → UInt8}

/-- Every inode the call works on starts less than `2^32` bytes into the table. -/
def NarrowCall (s : State C N) (v : VolumeIdx) (offset count : Nat) : Prop :=
  ∀ j < callBlocks offset count, ∀ i, callInode s v (offset / blockSize) j = some i →
    i.val < 2 ^ 26

/-- The rounds of a call on volume `v`, from the state `s` in which it was found on. -/
abbrev Rounds (limit : Nat) (s : State C N) (v : VolumeIdx) (offset : Nat) (buf : Nat → UInt8)
    (count j : Nat) (t : State C N) : Prop :=
  CallProgress limit s v (offset / blockSize) buf (chunk offset count) j t

theorem round_inside (fits : offset + count ≤ 2 ^ 45) (positive : 0 < count)
    (room : 2 ^ 31 ≤ limit) (inside : j < callBlocks offset count) :
    offset / blockSize + j < limit := by
  rw [callBlocks, blockSize_eq] at inside
  rw [blockSize_eq]
  omega

/-- One round. -/
theorem writeBlock_round {localOffset n : Nat} (fits : offset + count ≤ 2 ^ 45)
    (positive : 0 < count) (room : 2 ^ 31 ≤ limit) (narrow : NarrowCall s v offset count)
    (progress : Rounds limit s v offset buf count j t) (inside : j < callBlocks offset count)
    (written : writeBlock v (offset / blockSize + j) localOffset buf (chunk offset count j) t =
      some (n, u)) :
    n = chunk offset count j ∧ Rounds limit s v offset buf count (j + 1) u := by
  have cycle := progress.ok.cycle
  obtain ⟨size, i, step⟩ := writeBlock_spec cycle.nodes (cycle.keyOk _ _)
    (fun i same => narrow j inside i (progress.blockInode ▸ same)) written
  exact ⟨size, progress.succ (round_inside fits positive room inside) step⟩

/-- A round before the last goes on with the next block. -/
theorem writeLoop_more {fuel localOffset bytesWritten : Nat} (fits : offset + count ≤ 2 ^ 45)
    (positive : 0 < count) (more : j + 1 < callBlocks offset count)
    (written : writeBlock v (offset / blockSize + j) localOffset buf (chunk offset count j) t =
      some (chunk offset count j, u)) :
    writeLoop v buf ((offset + count - 1) / blockSize) (fuel + 1) (offset / blockSize + j)
        localOffset (chunk offset count j) (bytesLeft offset count j) bytesWritten t =
      writeLoop v buf ((offset + count - 1) / blockSize) fuel (offset / blockSize + (j + 1)) 0
        (chunk offset count (j + 1)) (bytesLeft offset count (j + 1))
        (bytesWritten + chunk offset count j) u := by
  have bound := round_inside fits positive (Nat.le_refl (2 ^ 31)) (Nat.lt_of_succ_lt more)
  have next : (offset / blockSize + j + 1) % 2 ^ 32 = offset / blockSize + (j + 1) :=
    Nat.mod_eq_of_lt (Nat.lt_of_le_of_lt bound (by decide))
  have again : offset / blockSize + (j + 1) ≤ (offset + count - 1) / blockSize := by
    rw [callBlocks] at more
    omega
  rw [writeLoop, written]
  simp only [Option.bind_eq_bind, Option.bind_some]
  rw [next, if_pos again, bytesLeft_succ fits positive more, chunk_succ]

/-- The last round returns. -/
theorem writeLoop_last {fuel localOffset bytesWritten : Nat} (fits : offset + count ≤ 2 ^ 45)
    (positive : 0 < count) (last : j + 1 = callBlocks offset count)
    (written : writeBlock v (offset / blockSize + j) localOffset buf (chunk offset count j) t =
      some (chunk offset count j, u)) :
    writeLoop v buf ((offset + count - 1) / blockSize) (fuel + 1) (offset / blockSize + j)
        localOffset (chunk offset count j) (bytesLeft offset count j) bytesWritten t =
      some (bytesWritten + chunk offset count j, u) := by
  have bound := round_inside fits positive (Nat.le_refl (2 ^ 31)) (j := j) (by omega)
  have next : (offset / blockSize + j + 1) % 2 ^ 32 = offset / blockSize + (j + 1) :=
    Nat.mod_eq_of_lt (Nat.lt_of_le_of_lt bound (by decide))
  have order : offset / blockSize ≤ (offset + count - 1) / blockSize :=
    Nat.div_le_div_right (by omega)
  have done : ¬ offset / blockSize + (j + 1) ≤ (offset + count - 1) / blockSize := by
    rw [last, callBlocks]
    omega
  rw [writeLoop, written]
  simp only [Option.bind_eq_bind, Option.bind_some]
  rw [next, if_neg done]

theorem writeLoop_spec {fuel localOffset bytesWritten n : Nat} (fits : offset + count ≤ 2 ^ 45)
    (positive : 0 < count) (room : 2 ^ 31 ≤ limit) (narrow : NarrowCall s v offset count)
    (progress : Rounds limit s v offset buf count j t) (inside : j < callBlocks offset count)
    (looped : writeLoop v buf ((offset + count - 1) / blockSize) fuel (offset / blockSize + j)
      localOffset (chunk offset count j) (bytesLeft offset count j) bytesWritten t = some (n, u)) :
    Rounds limit s v offset buf count (callBlocks offset count) u := by
  induction fuel generalizing j t localOffset bytesWritten with
  | zero => cases looped
  | succ fuel ih =>
    obtain ⟨⟨m, x⟩, written, _⟩ := Option.bind_eq_some_iff.mp looped
    obtain ⟨rfl, next⟩ := writeBlock_round fits positive room narrow progress inside written
    by_cases more : j + 1 < callBlocks offset count
    · rw [writeLoop_more fits positive more written] at looped
      exact ih next more looped
    · have last : j + 1 = callBlocks offset count := by omega
      rw [writeLoop_last fits positive last written] at looped
      cases looped
      exact last ▸ next

/-- The call from its lookup on. -/
theorem nvmDurableWrite_eq {fuel vid : Nat} (fits : offset + count ≤ 2 ^ 45) (positive : 0 < count)
    (found : getVolumeEntryIdx vid s = some (v, t)) :
    nvmDurableWrite fuel vid offset buf count s =
      writeLoop v buf ((offset + count - 1) / blockSize) fuel (offset / blockSize + 0)
        (offset % blockSize) (chunk offset count 0) (bytesLeft offset count 0) 0 t := by
  have first : chunk offset count 0 = blockSize - offset % blockSize := by simp [chunk]
  have left : bytesLeft offset count 0 = count := by simp [bytesLeft]
  rw [nvmDurableWrite, found]
  simp only [Option.bind_eq_bind, Option.bind_some]
  rw [lbnEnd_eq fits positive, lbnStart_eq fits, first, left, Nat.add_zero]

/-- What a call that returns leaves, in terms of the state in which its volume
has been found. -/
theorem nvmDurableWrite_spec {fuel vid n : Nat} (fits : offset + count ≤ 2 ^ 45)
    (positive : 0 < count) (room : 2 ^ 31 ≤ limit) (ok : SystemOk limit t)
    (found : getVolumeEntryIdx vid s = some (v, t)) (narrow : NarrowCall t v offset count)
    (returned : nvmDurableWrite fuel vid offset buf count s = some (n, u)) :
    Rounds limit t v offset buf count (callBlocks offset count) u := by
  rw [nvmDurableWrite_eq fits positive found] at returned
  exact writeLoop_spec fits positive room narrow (CallProgress.zero ok) (Nat.succ_pos _) returned

theorem nvmDurableWrite_open {fuel vid n : Nat} (fits : offset + count ≤ 2 ^ 45)
    (positive : 0 < count) (found : getVolumeEntryIdx vid s = some (v, t))
    (returned : nvmDurableWrite fuel vid offset buf count s = some (n, u)) :
    (t.volumeTable v).hashTable.isSome := by
  rw [nvmDurableWrite_eq fits positive found] at returned
  cases fuel with
  | zero => cases returned
  | succ fuel =>
    obtain ⟨_, written, _⟩ := Option.bind_eq_some_iff.mp returned
    exact writeBlock_open written

end Loop

section OtherBuffer

/-- Two states that differ in the bytes of their blocks at most. -/
structure Alike (s s' : State C N) : Prop where
  entries : s'.inodeTable = s.inodeTable
  identity : ∀ v, volumeIdentity s' v = volumeIdentity s v
  volumeBlock : ∀ v, (s'.volumeTable v).blockIndex = (s.volumeTable v).blockIndex
  bound : ∀ v lbn, validInode s' v lbn = validInode s v lbn
  queues : s'.inodeFreeLfqueue = s.inodeFreeLfqueue
  count : s'.inodeFreeCount = s.inodeFreeCount
  turn : s'.freeDequeueIdx = s.freeDequeueIdx

variable {s s' t t' u : State C N} {v : VolumeIdx} {lbn : Nat} {buf buf' : Nat → UInt8}
  {i : InodeIdx N}

theorem Alike.refl (s : State C N) : Alike s s :=
  ⟨rfl, fun _ => rfl, fun _ => rfl, fun _ _ => rfl, rfl, rfl, rfl⟩

theorem Alike.blockInode (alike : Alike s s') (v : VolumeIdx) (lbn : Nat) :
    blockInode s' v lbn = blockInode s v lbn := by
  rw [Source.blockInode, Source.blockInode, alike.bound, alike.queues, alike.turn]

/-- Block steps on the same block lead to such states again. -/
theorem Alike.written {count : Nat} (alike : Alike s s') (step : BlockWritten s t v lbn buf count i)
    (step' : BlockWritten s' t' v lbn buf' count i) : Alike t t' := by
  have sources : t'.inodeFreeLfqueue = t.inodeFreeLfqueue ∧ t'.inodeFreeCount = t.inodeFreeCount ∧
      t'.freeDequeueIdx = t.freeDequeueIdx := by
    cases step.source with
    | bound valid queues count turn =>
      cases step'.source with
      | bound _ queues' count' turn' =>
        rw [queues, queues', count, count', turn, turn']
        exact ⟨alike.queues, alike.count, alike.turn⟩
      | taken unbound =>
        rw [alike.bound, valid] at unbound
        cases unbound
    | taken unbound _ rest head queues count turn =>
      cases step'.source with
      | bound valid =>
        rw [alike.bound, unbound] at valid
        cases valid
      | taken _ _ rest' head' queues' count' turn' =>
        rw [alike.queues, alike.turn] at head'
        cases head.symm.trans head'
        rw [queues, queues', count, count', turn, turn', alike.queues, alike.count, alike.turn]
        exact ⟨rfl, rfl, rfl⟩
  refine ⟨?_, fun w => ?_, fun w => ?_, fun w l => ?_, sources.1, sources.2.1, sources.2.2⟩
  · rw [step.entries, step'.entries, alike.entries, alike.volumeBlock]
  · rw [step.identity, step'.identity, alike.identity]
  · rw [step.volumeBlock, step'.volumeBlock, alike.entries, alike.volumeBlock]
  · rw [step.bound, step'.bound, alike.bound]

/-- Whether a block step returns does not depend on the bytes. -/
theorem Alike.writeBlock_returns {offset count n : Nat} (buf' : Nat → UInt8)
    (alike : Alike s s') (cycle : LifeCycle s [])
    (cycle' : LifeCycle s' []) (narrow : ∀ i, Source.blockInode s v lbn = some i → i.val < 2 ^ 26)
    (written : writeBlock v lbn offset buf count s = some (n, t)) :
    ∃ t', writeBlock v lbn offset buf' count s' = some (count, t') ∧ Alike t t' := by
  obtain ⟨_, i, step⟩ := writeBlock_spec cycle.nodes (cycle.keyOk v lbn) narrow written
  have chosen := step.source.blockInode
  have table' : (s'.volumeTable v).hashTable.isSome := by
    have same := alike.identity v
    simp only [volumeIdentity, Prod.mk.injEq] at same
    rw [same.2.2]
    exact writeBlock_open written
  have notSync : (s'.inodeTable i).state ≠ .sync := by
    intro sync
    rw [alike.entries] at sync
    have locked := (cycle.inode i).locked.mpr (Or.inl sync)
    rw [step.wasUnlocked] at locked
    cases locked
  obtain ⟨t', written', step'⟩ := Source.writeBlock_returns cycle' offset count buf' table'
    ((alike.blockInode v lbn).trans chosen) (narrow i chosen) notSync
    (fun unbound => by
      rw [alike.bound] at unbound
      rw [alike.count]
      cases step.source with
      | bound valid =>
        rw [unbound] at valid
        cases valid
      | taken _ enough => exact enough)
  exact ⟨t', written', alike.written step step'⟩

theorem Alike.writeLoop_returns {offset count j limit fuel localOffset bytesWritten n : Nat}
    (buf' : Nat → UInt8) {r : State C N}
    (fits : offset + count ≤ 2 ^ 45) (positive : 0 < count) (room : 2 ^ 31 ≤ limit)
    (narrow : NarrowCall r v offset count) (alike : Alike s s')
    (progress : Rounds limit r v offset buf count j s)
    (progress' : Rounds limit r v offset buf' count j s') (inside : j < callBlocks offset count)
    (looped : writeLoop v buf ((offset + count - 1) / blockSize) fuel (offset / blockSize + j)
      localOffset (chunk offset count j) (bytesLeft offset count j) bytesWritten s = some (n, t)) :
    ∃ t', writeLoop v buf' ((offset + count - 1) / blockSize) fuel (offset / blockSize + j)
      localOffset (chunk offset count j) (bytesLeft offset count j) bytesWritten s' =
        some (n, t') := by
  induction fuel generalizing j s s' localOffset bytesWritten with
  | zero => cases looped
  | succ fuel ih =>
    obtain ⟨⟨m, x⟩, written, _⟩ := Option.bind_eq_some_iff.mp looped
    obtain ⟨rfl, next⟩ := writeBlock_round fits positive room narrow progress inside written
    obtain ⟨x', written', after⟩ := alike.writeBlock_returns buf' progress.ok.cycle
      progress'.ok.cycle (fun i same => narrow j inside i (progress.blockInode ▸ same)) written
    obtain ⟨_, next'⟩ := writeBlock_round fits positive room narrow progress' inside written'
    by_cases more : j + 1 < callBlocks offset count
    · rw [writeLoop_more fits positive more written] at looped
      rw [writeLoop_more fits positive more written']
      exact ih after next next' more looped
    · have last : j + 1 = callBlocks offset count := by omega
      rw [writeLoop_last fits positive last written] at looped
      rw [writeLoop_last fits positive last written']
      cases looped
      exact ⟨x', rfl⟩

/-- A call that returns for one buffer returns for every buffer. -/
theorem nvmDurableWrite_returns {offset count limit fuel vid n : Nat}
    (fits : offset + count ≤ 2 ^ 45) (positive : 0 < count) (room : 2 ^ 31 ≤ limit)
    (ok : SystemOk limit t) (found : getVolumeEntryIdx vid s = some (v, t))
    (narrow : NarrowCall t v offset count)
    (returned : nvmDurableWrite fuel vid offset buf count s = some (n, u)) (buf' : Nat → UInt8) :
    ∃ u', nvmDurableWrite fuel vid offset buf' count s = some (n, u') := by
  rw [nvmDurableWrite_eq fits positive found] at returned
  obtain ⟨u', returned'⟩ := (Alike.refl t).writeLoop_returns buf' fits positive
    room narrow (CallProgress.zero ok) (CallProgress.zero ok) (Nat.succ_pos _) returned
  exact ⟨u', by rw [nvmDurableWrite_eq fits positive found, returned']⟩

end OtherBuffer

end BurstBuffer.Source
