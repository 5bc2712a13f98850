import Mathlib.Logic.Equiv.Fin.Basic
import BurstBuffer.Invariants.Close

/-!
# Block ownership

Every block belongs to one inode or to one volume. A block step exchanges the
blocks of one inode and its volume and writes the bytes of the block that leaves
the volume, so it touches nobody else's bytes.
-/
namespace BurstBuffer.Source

open Library

variable {C : CuckoohashMap} {N : Nat}

/-- The block of each inode and of each volume. -/
def owners (s : State C N) : InodeIdx N ⊕ VolumeIdx → BlockIdx N :=
  Sum.elim (fun i => (s.inodeTable i).blockIndex) (fun v => (s.volumeTable v).blockIndex)

theorem blockIndex_ne {s : State C N} (owned : Function.Injective (owners s)) (i : InodeIdx N)
    (v : VolumeIdx) : (s.inodeTable i).blockIndex ≠ (s.volumeTable v).blockIndex := by
  intro same
  have clash := owned (show owners s (Sum.inl i) = owners s (Sum.inr v) from same)
  cases clash

theorem Kept.owners {s t : State C N} (kept : Kept s t) : owners t = owners s := by
  funext o
  cases o with
  | inl i => exact kept.blockIndex i
  | inr v => exact kept.volumeBlock v

theorem Opened.owners {s t : State C N} {vid : Nat} {v : VolumeIdx} (step : Opened s t vid v) :
    owners t = owners s := by
  funext o
  cases o with
  | inl i =>
    simp only [Source.owners, Sum.elim_inl]
    rw [step.frame]
  | inr w =>
    simp only [Source.owners, Sum.elim_inr]
    rw [step.table]
    by_cases same : w = v
    · subst w
      simp
    · rw [Function.update_of_ne same]

theorem settledEntry_blockIndex (entry : InodeEntry N) :
    (settledEntry entry).blockIndex = entry.blockIndex := by
  unfold settledEntry
  split <;> rfl

theorem Closed.owners {s t : State C N} (closed : Closed s t) : owners t = owners s := by
  funext o
  cases o with
  | inl i =>
    simp only [Source.owners, Sum.elim_inl, closed.entries, settledEntry_blockIndex]
  | inr v => exact closed.volumeBlock v

theorem Fresh.owners {r t : State C N} (fresh : Fresh r t) : owners t = owners r := by
  funext o
  cases o with
  | inl i =>
    simp only [Source.owners, Sum.elim_inl, fresh.inode]
    rfl
  | inr v =>
    simp only [Source.owners, Sum.elim_inr, fresh.volume]
    rfl

/-- The tables nvm_structure_build lays out number the blocks from 0 on. -/
theorem built_layout (memory : State C N) :
    owners (nvmStructureBuild memory) = finSumFinEquiv := by
  funext o
  cases o <;> rfl

theorem built_owners (memory : State C N) :
    Function.Bijective (owners (nvmStructureBuild memory)) := by
  rw [built_layout]
  exact finSumFinEquiv.bijective

/-- Exchanging one value of each of two families. -/
theorem elim_exchange {ι κ β : Type*} [DecidableEq ι] [DecidableEq κ] (f : ι → β) (g : κ → β)
    (i : ι) (k : κ) :
    Sum.elim (Function.update f i (g k)) (Function.update g k (f i)) =
      Sum.elim f g ∘ Equiv.swap (Sum.inl i) (Sum.inr k) := by
  rw [Equiv.comp_swap_eq_update, Sum.update_elim_inr, Sum.update_elim_inl]
  rfl

section BlockStep

variable {s t : State C N} {v : VolumeIdx} {lbn count : Nat} {buf : Nat → UInt8} {i : InodeIdx N}

/-- A block step exchanges two blocks. -/
theorem BlockWritten.owners (step : BlockWritten s t v lbn buf count i) :
    owners t = owners s ∘ Equiv.swap (Sum.inl i) (Sum.inr v) := by
  have inodes : (fun j => (t.inodeTable j).blockIndex) =
      Function.update (fun j => (s.inodeTable j).blockIndex) i (s.volumeTable v).blockIndex := by
    funext j
    rw [step.entries]
    by_cases same : j = i
    · subst j
      simp only [Function.update_self]
    · simp only [Function.update_of_ne same]
  have volumes : (fun w => (t.volumeTable w).blockIndex) =
      Function.update (fun w => (s.volumeTable w).blockIndex) v (s.inodeTable i).blockIndex := by
    funext w
    rw [step.volumeBlock]
    by_cases same : w = v
    · subst w
      rw [Function.update_self, if_pos rfl]
    · rw [Function.update_of_ne same, if_neg same]
  rw [Source.owners, inodes, volumes]
  exact elim_exchange (fun j => (s.inodeTable j).blockIndex)
    (fun w => (s.volumeTable w).blockIndex) i v

theorem BlockWritten.owners_bijective (step : BlockWritten s t v lbn buf count i)
    (owned : Function.Bijective (Source.owners s)) : Function.Bijective (Source.owners t) := by
  rw [step.owners]
  exact owned.comp (Equiv.bijective _)

/-- Whoever takes no part in the step keeps its block and the bytes in it. -/
theorem BlockWritten.untouched (step : BlockWritten s t v lbn buf count i)
    (owned : Function.Bijective (Source.owners s)) {o : InodeIdx N ⊕ VolumeIdx}
    (notInode : o ≠ Sum.inl i) (notVolume : o ≠ Sum.inr v) :
    Source.owners t o = Source.owners s o ∧
      t.blockTable (Source.owners s o) = s.blockTable (Source.owners s o) := by
  constructor
  · rw [step.owners, Function.comp_apply, Equiv.swap_apply_of_ne_of_ne notInode notVolume]
  · have other : Source.owners s o ≠ (s.volumeTable v).blockIndex :=
      fun same => notVolume (owned.injective same)
    rw [step.blocks, Function.update_of_ne other]

theorem BlockWritten.blockOf_other (step : BlockWritten s t v lbn buf count i)
    (owned : Function.Bijective (Source.owners s)) {j : InodeIdx N} (other : j ≠ i) :
    t.blockOf j = s.blockOf j := by
  obtain ⟨index, bytes⟩ := step.untouched owned (o := Sum.inl j) (by simpa using other) (by simp)
  have same : (t.inodeTable j).blockIndex = (s.inodeTable j).blockIndex := index
  rw [State.blockOf, same]
  exact bytes

/-- The block the step stored: the caller's bytes over what the ownerless block held. -/
theorem BlockWritten.blockOf_written (step : BlockWritten s t v lbn buf count i) :
    t.blockOf i = memcpy (s.blockTable (s.volumeTable v).blockIndex) buf count := by
  rw [State.blockOf, step.entries, Function.update_self, step.blocks, Function.update_self]

theorem BlockWritten.fd (step : BlockWritten s t v lbn buf count i) (w : VolumeIdx) :
    (t.volumeTable w).fd = (s.volumeTable w).fd := by
  have same := step.identity w
  simp only [volumeIdentity, Prod.mk.injEq] at same
  exact same.2.1

theorem BlockWritten.image_written (step : BlockWritten s t v lbn buf count i) :
    visibleImage t v lbn =
      some (memcpy (s.blockTable (s.volumeTable v).blockIndex) buf count) := by
  unfold visibleImage
  rw [step.bound, if_pos ⟨rfl, rfl⟩]
  simp only [step.blockOf_written]

/-- Every other block of every volume looks as before. -/
theorem BlockWritten.image_other (step : BlockWritten s t v lbn buf count i)
    (cycle : LifeCycle s []) (owned : Function.Bijective (Source.owners s)) {w : VolumeIdx}
    {l : Nat} (other : ¬ (w = v ∧ l = lbn)) : visibleImage t w l = visibleImage s w l := by
  have files : t.files = s.files := by rw [step.frame]
  unfold visibleImage
  rw [step.bound, if_neg other, step.fd, files]
  cases valid : validInode s w l with
  | none => rfl
  | some j =>
    have different : j ≠ i := by
      rintro rfl
      exact other ((cycle.source_bound step.source).1 valid)
    simp only [step.blockOf_other owned different]

theorem BlockWritten.settled (step : BlockWritten s t v lbn buf count i)
    (owned : Function.Bijective (Source.owners s)) (settled : Settled s) : Settled t := by
  have files : t.files = s.files := by rw [step.frame]
  intro j state w file owner named
  have different : j ≠ i := by
    rintro rfl
    rw [step.entries, Function.update_self] at state
    rcases state with sync | clean
    · cases sync
    · cases clean
  have entry : t.inodeTable j = s.inodeTable j := by
    rw [step.entries, Function.update_of_ne different]
  rw [entry] at state owner ⊢
  rw [step.fd] at named
  rw [files, step.blockOf_other owned different]
  exact settled j state w file owner named

end BlockStep

end BurstBuffer.Source
