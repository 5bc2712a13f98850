import Mathlib.Tactic.Simps.Basic
import BurstBuffer.Library.BlockFile
import BurstBuffer.Source.LfQueue

/-!
# The data of the system

nvm0nvm.h, nvm0inode.h, nvm0volume.h, nvm0block.h, nvm0hash.h, nvm0list.h: the
tables in NVM, the heap of hash nodes, the queues with their counters, and the
files. `N` is `max_inode_entry`. A pointer into a table is the index it points
to, a pointer to a hash node an address in the heap, `none` is `nullptr`. A file
descriptor is the name of the file it was opened on, and `files` is what a read
of the file returns, so that `sync` does not change it. The counters of `struct
monitor` only feed the display and are left out.
-/
namespace BurstBuffer.Source

open Library

/-- BLOCK_SIZE. -/
def blockSize : Nat := 2 ^ 14

theorem blockSize_eq : blockSize = 16384 := rfl

abbrev maxVolumeEntry : Nat := 128
abbrev defaultNumFree : Nat := 2
abbrev defaultNumSyncer : Nat := 2
abbrev defaultNumBalloon : Nat := 8
abbrev defaultFreeMinCount : Nat := 100
abbrev flushBatchSize : Nat := 1024

instance : NeZero maxVolumeEntry := ⟨by decide⟩
instance : NeZero defaultNumFree := ⟨by decide⟩
instance : NeZero defaultNumBalloon := ⟨by decide⟩

/-- `0x0U - 1`, the vid of an unused volume entry. -/
def unusedVid : Nat := 2 ^ 32 - 1

abbrev Block : Type := Fin blockSize → UInt8
abbrev InodeIdx (N : Nat) : Type := Fin N
abbrev VolumeIdx : Type := Fin maxVolumeEntry
abbrev BlockIdx (N : Nat) : Type := Fin (N + maxVolumeEntry)
abbrev NodePtr : Type := Nat

instance (N : Nat) : LawfulBEq (InodeIdx N) := inferInstanceAs (LawfulBEq (Fin N))

inductive InodeState where
  | free | dirty | sync | clean
  deriving DecidableEq, Repr

structure InodeEntry (N : Nat) where
  lbn : Nat
  state : InodeState
  volume : Option VolumeIdx
  blockIndex : BlockIdx N
  lock : Bool

structure HashNode (N : Nat) where
  inode : Option (InodeIdx N)
  lbn : Nat
  isValid : Bool
  mutex : Bool
  prev : Option NodePtr
  next : Option NodePtr

structure HashNodeList where
  head : Option NodePtr
  tail : Option NodePtr
  count : Nat

/-- `cuckoohash_map<uint32_t, hash_node*>` of the libcuckoo submodule, which is
not part of the repository: a new map is empty, `map[lbn] = node` stores, and
`find` returns what was stored last under the key. -/
structure CuckoohashMap where
  Map : Type
  empty : Map
  find : Map → Nat → Option NodePtr
  store : Map → Nat → NodePtr → Map
  find_empty : ∀ key, find empty key = none
  find_store : ∀ map key node other,
    find (store map key node) other = if other = key then some node else find map other

/-- The simplest such map, a function. -/
def functionMap : CuckoohashMap where
  Map := Nat → Option NodePtr
  empty := fun _ => none
  find map key := map key
  store map key node := Function.update map key (some node)
  find_empty _ := rfl
  find_store map key node other := by
    by_cases same : other = key
    · subst other
      simp
    · simp [same]

structure HashTable (C : CuckoohashMap) where
  map : C.Map
  invalidList : HashNodeList

structure VolumeEntry (C : CuckoohashMap) (N : Nat) where
  vid : Nat
  fd : Option String
  blockIndex : BlockIdx N
  hashTable : Option (HashTable C)

structure State (C : CuckoohashMap) (N : Nat) where
  inodeTable : InodeIdx N → InodeEntry N
  volumeTable : VolumeIdx → VolumeEntry C N
  blockTable : BlockIdx N → Block
  hashNodes : NodePtr → HashNode N
  nextNode : NodePtr
  volumeFreeLfqueue : LfQueue VolumeIdx maxVolumeEntry
  volumeInuseLfqueue : LfQueue VolumeIdx maxVolumeEntry
  inodeFreeLfqueue : Fin defaultNumFree → LfQueue (InodeIdx N) N
  freeEnqueueIdx : Nat
  freeDequeueIdx : Nat
  inodeFreeCount : Nat
  inodeDirtyLfqueue : VolumeIdx → LfQueue (InodeIdx N) N
  inodeDirtyCount : Nat
  inodeSyncLfqueue : Fin defaultNumSyncer → LfQueue (InodeIdx N) N
  syncQueueIdx : Nat
  inodeCleanLfqueue : Fin defaultNumBalloon → LfQueue (InodeIdx N) N
  cleanQueueIdx : Nat
  files : String → File UInt8

namespace State

variable {C : CuckoohashMap} {N : Nat}

/-- The bytes of the block an inode owns. -/
def blockOf (s : State C N) (i : InodeIdx N) : Block :=
  s.blockTable (s.inodeTable i).blockIndex

@[simps -fullyApplied]
def setInode (s : State C N) (i : InodeIdx N) (entry : InodeEntry N) : State C N :=
  { s with inodeTable := Function.update s.inodeTable i entry }

@[simps -fullyApplied]
def setVolume (s : State C N) (v : VolumeIdx) (entry : VolumeEntry C N) : State C N :=
  { s with volumeTable := Function.update s.volumeTable v entry }

@[simps -fullyApplied]
def setNode (s : State C N) (p : NodePtr) (node : HashNode N) : State C N :=
  { s with hashNodes := Function.update s.hashNodes p node }

@[simps -fullyApplied]
def setFile (s : State C N) (name : String) (file : File UInt8) : State C N :=
  { s with files := Function.update s.files name file }

end State

/-- A round-robin counter selects one of `n` queues. -/
def roundRobin (n : Nat) [NeZero n] (counter : Nat) : Fin n := Fin.ofNat n counter

end BurstBuffer.Source
