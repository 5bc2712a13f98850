import BurstBuffer.Invariants.Start
import BurstBuffer.Library.Replay

/-!
# recovery_start as a replay

The first loop of recovery_start replays the blocks of the inodes that are not
written yet, one overwrite of the files after the other. What it writes depends
on the tables alone, so it can be told apart from what the files held before.
-/
namespace BurstBuffer.Source

open Library

variable {C : CuckoohashMap} {N : Nat} {cwd : String}

/-- The bytes of all files, by file name and position. -/
abbrev FileBytes : Type := String × Nat → UInt8

def bytesOf (files : String → File UInt8) : FileBytes := fun x => files x.1 x.2

def filesOf (bytes : FileBytes) : String → File UInt8 := fun name p => bytes (name, p)

def State.withFiles (s : State C N) (files : String → File UInt8) : State C N :=
  { s with files := files }

/-- The inode has its block written by recovery_start, or would if it had a volume. -/
def replayTarget (cwd : String) (s : State C N) (i : InodeIdx N) : Option (String × Nat) :=
  if isUnwritten (s.inodeTable i).state then
    (s.inodeTable i).volume.map fun v =>
      (recoveryFilename cwd (s.volumeTable v).vid, blockSize * (s.inodeTable i).lbn % 2 ^ 32)
  else none

/-- The overwrites of the first loop of recovery_start. -/
def recoveryWrites (cwd : String) (s : State C N) :
    Overwrites (InodeIdx N) (String × Nat) UInt8 where
  covers i x :=
    match replayTarget cwd s i with
    | some (name, offset) => x.1 == name && decide (offset ≤ x.2 ∧ x.2 < offset + blockSize)
    | none => false
  value i x :=
    match replayTarget cwd s i with
    | some (_, offset) =>
      if inside : x.2 - offset < blockSize then s.blockOf i ⟨x.2 - offset, inside⟩ else 0
    | none => 0

/-- A null volume pointer ends the process. -/
def Recoverable (s : State C N) (i : InodeIdx N) : Prop :=
  isUnwritten (s.inodeTable i).state = true → (s.inodeTable i).volume.isSome = true

section Round

variable {s t : State C N} {i : InodeIdx N}

theorem recoverBlock_eq_none (broken : ¬ Recoverable s i) : recoverBlock cwd s i = none := by
  unfold Recoverable at broken
  rw [Classical.not_imp, Option.not_isSome_iff_eq_none] at broken
  rw [recoverBlock]
  simp only [broken.1, if_true, broken.2]
  rfl

/-- One round. -/
theorem recoverBlock_eq (fine : Recoverable s i) :
    recoverBlock cwd s i =
      some (s.withFiles (filesOf ((recoveryWrites cwd s).write (bytesOf s.files) i))) := by
  rw [recoverBlock]
  dsimp only
  cases unwritten : isUnwritten (s.inodeTable i).state with
  | false =>
    have idle : replayTarget cwd s i = none := by
      rw [replayTarget, unwritten]
      rfl
    have same : (recoveryWrites cwd s).write (bytesOf s.files) i = bytesOf s.files := by
      funext x
      simp [Overwrites.write, recoveryWrites, idle]
    rw [same]
    rfl
  | true =>
    obtain ⟨v, owner⟩ := Option.isSome_iff_exists.mp (fine unwritten)
    have target : replayTarget cwd s i = some (recoveryFilename cwd (s.volumeTable v).vid,
        blockSize * (s.inodeTable i).lbn % 2 ^ 32) := by
      rw [replayTarget, unwritten, owner]
      rfl
    simp only [if_true, owner, Option.bind_eq_bind, Option.bind_some]
    generalize blockSize * (s.inodeTable i).lbn % 2 ^ 32 = offset at target ⊢
    congr 1
    unfold State.setFile State.withFiles
    congr 1
    funext name p
    rw [filesOf, Overwrites.write, recoveryWrites]
    simp only [target, bytesOf]
    by_cases named : name = recoveryFilename cwd (s.volumeTable v).vid
    · subst name
      rw [Function.update_self, writeAt]
      by_cases inside : offset ≤ p ∧ p < offset + blockSize
      · have near : p - offset < blockSize := by omega
        simp [inside, near, State.blockOf]
      · simp [inside]
    · rw [Function.update_of_ne named]
      simp [named]

end Round

section Loop

variable {s : State C N} {l : List (InodeIdx N)}

/-- The first loop, over any part of the table. -/
theorem recoverBlocks_eq (cwd : String) (fine : ∀ i ∈ l, Recoverable s i) (bytes : FileBytes) :
    l.foldlM (recoverBlock cwd) (s.withFiles (filesOf bytes)) =
      some (s.withFiles (filesOf ((recoveryWrites cwd s).replay l bytes))) := by
  induction l generalizing bytes with
  | nil => rfl
  | cons i l ih =>
    have here : Recoverable (s.withFiles (filesOf bytes)) i := fine i List.mem_cons_self
    have first : recoverBlock cwd (s.withFiles (filesOf bytes)) i =
        some (s.withFiles (filesOf ((recoveryWrites cwd s).write bytes i))) :=
      recoverBlock_eq here
    rw [List.foldlM_cons, first]
    exact ih (fun j member => fine j (List.mem_cons_of_mem i member)) _

theorem recoverBlocks_eq_none (cwd : String) (broken : ¬ ∀ i ∈ l, Recoverable s i)
    (bytes : FileBytes) :
    l.foldlM (recoverBlock cwd) (s.withFiles (filesOf bytes)) = none := by
  induction l generalizing bytes with
  | nil => exact absurd (fun i member => nomatch member) broken
  | cons i l ih =>
    by_cases here : Recoverable s i
    · have first : recoverBlock cwd (s.withFiles (filesOf bytes)) i =
          some (s.withFiles (filesOf ((recoveryWrites cwd s).write bytes i))) :=
        recoverBlock_eq here
      have later : ¬ ∀ j ∈ l, Recoverable s j := by
        intro others
        apply broken
        intro j member
        rcases List.mem_cons.mp member with rfl | member
        · exact here
        · exact others j member
      rw [List.foldlM_cons, first]
      exact ih later _
    · have first : recoverBlock cwd (s.withFiles (filesOf bytes)) i = none :=
        recoverBlock_eq_none here
      rw [List.foldlM_cons, first]
      rfl

/-- A loop that ran through found a volume for each inode. -/
theorem recoverable_of_recovered {t : State C N}
    (recovered : l.foldlM (recoverBlock cwd) s = some t) :
    (∀ i ∈ l, Recoverable s i) ∧
      t = s.withFiles (filesOf ((recoveryWrites cwd s).replay l (bytesOf s.files))) := by
  have same : s = s.withFiles (filesOf (bytesOf s.files)) := rfl
  rw [same] at recovered
  by_cases fine : ∀ i ∈ l, Recoverable s i
  · rw [recoverBlocks_eq cwd fine] at recovered
    exact ⟨fine, (Option.some.inj recovered).symm⟩
  · rw [recoverBlocks_eq_none cwd fine] at recovered
    cases recovered

end Loop

/-- recovery_start on files that agree outside the bytes it writes. -/
theorem recoveryStart_withFiles {s : State C N} {bytes : FileBytes}
    (same : ∀ x, (∀ i, (recoveryWrites cwd s).covers i x = false) → bytes x = bytesOf s.files x) :
    recoveryStart cwd (s.withFiles (filesOf bytes)) = recoveryStart cwd s := by
  have replayed : (recoveryWrites cwd s).replay (List.finRange N) bytes =
      (recoveryWrites cwd s).replay (List.finRange N) (bytesOf s.files) := by
    apply Overwrites.replay_congr
    intro x uncovered
    exact same x fun i => uncovered i (List.mem_finRange i)
  have here : s = s.withFiles (filesOf (bytesOf s.files)) := rfl
  unfold recoveryStart
  by_cases fine : ∀ i ∈ List.finRange N, Recoverable s i
  · have whole := recoverBlocks_eq cwd fine (bytesOf s.files)
    rw [← here] at whole
    rw [recoverBlocks_eq cwd fine, replayed, whole]
  · have whole := recoverBlocks_eq_none cwd fine (bytesOf s.files)
    rw [← here] at whole
    rw [recoverBlocks_eq_none cwd fine, whole]

section Settled

variable {s : State C N} {l₁ l₂ : List (InodeIdx N)}

/-- The state with the inodes of a list set to CLEAN where they were not written. -/
def settled (l : List (InodeIdx N)) (s : State C N) : State C N :=
  { s with inodeTable := fun i =>
      if i ∈ l then settledEntry (s.inodeTable i) else s.inodeTable i }

theorem settleInode_foldl_eq {l : List (InodeIdx N)} (distinct : l.Nodup) (s : State C N) :
    l.foldl settleInode s = settled l s := by
  obtain ⟨entries, frame⟩ := settleInode_foldl distinct s
  rw [frame, settled, funext entries]

theorem isUnwritten_settledEntry (entry : InodeEntry N) :
    isUnwritten (settledEntry entry).state = false := by
  unfold settledEntry
  split
  · rfl
  · rename_i written
    exact Bool.eq_false_iff.mpr written

theorem settledEntry_settledEntry (entry : InodeEntry N) :
    settledEntry (settledEntry entry) = settledEntry entry := by
  have written := isUnwritten_settledEntry entry
  generalize settledEntry entry = after at written
  rw [settledEntry, written]
  rfl

/-- Setting all to CLEAN forgets which have been already. -/
theorem settleInodes_settled (l : List (InodeIdx N)) (s : State C N) :
    settleInodes (settled l s) = settleInodes s := by
  unfold settleInodes
  rw [settleInode_foldl_eq (List.nodup_finRange N), settleInode_foldl_eq (List.nodup_finRange N)]
  unfold settled
  congr 1
  funext i
  simp only [List.mem_finRange, if_true]
  split
  · exact settledEntry_settledEntry _
  · rfl

/-- An inode that is set to CLEAN is not replayed any more. -/
theorem replayTarget_settled (i : InodeIdx N) :
    replayTarget cwd (settled l₁ s) i = if i ∈ l₁ then none else replayTarget cwd s i := by
  unfold replayTarget settled
  dsimp only
  split
  · rw [isUnwritten_settledEntry]
    rfl
  · rfl

theorem recoverable_settled (l₁ : List (InodeIdx N)) {i : InodeIdx N} (fine : Recoverable s i) :
    Recoverable (settled l₁ s) i := by
  unfold Recoverable settled
  dsimp only
  split
  · rw [isUnwritten_settledEntry]
    intro unwritten
    cases unwritten
  · exact fine

/-- Behind a first part that is set to CLEAN the replay is that of the rest. -/
theorem replay_settled (apart : ∀ i ∈ l₂, i ∉ l₁) (bytes : FileBytes) :
    (recoveryWrites cwd (settled l₁ s)).replay (l₁ ++ l₂) bytes =
      (recoveryWrites cwd s).replay l₂ bytes := by
  rw [Overwrites.replay_append]
  have idle : (recoveryWrites cwd (settled l₁ s)).replay l₁ bytes = bytes := by
    apply Overwrites.replay_of_idle
    intro i member x
    simp [recoveryWrites, replayTarget_settled, member]
  rw [idle]
  apply Overwrites.replay_eq_of_agree
  intro i member
  have outside := apart i member
  have blocks : (settled l₁ s).blockOf i = s.blockOf i := by
    simp [State.blockOf, settled, outside]
  constructor
  · funext x
    simp [recoveryWrites, replayTarget_settled, outside]
  · funext x
    simp [recoveryWrites, replayTarget_settled, outside, blocks]

/-- recovery_start on a part that is set to CLEAN and the files of a whole replay. -/
theorem recoveryStart_settled (fine : ∀ i ∈ List.finRange N, Recoverable s i)
    (parts : l₁ ++ l₂ = List.finRange N) :
    recoveryStart cwd (settled l₁ (s.withFiles
        (filesOf ((recoveryWrites cwd s).replay (List.finRange N) (bytesOf s.files))))) =
      recoveryStart cwd s := by
  have distinct := List.nodup_finRange N
  rw [← parts] at distinct
  have apart : ∀ i ∈ l₂, i ∉ l₁ := fun i later earlier =>
    List.disjoint_of_nodup_append distinct earlier later
  have again : (recoveryWrites cwd (settled l₁ s)).replay (List.finRange N)
      ((recoveryWrites cwd s).replay (List.finRange N) (bytesOf s.files)) =
      (recoveryWrites cwd s).replay (List.finRange N) (bytesOf s.files) := by
    rw [← parts, replay_settled apart]
    exact Overwrites.replay_back_replay
  have whole := recoverBlocks_eq cwd fine (bytesOf s.files)
  have rest := recoverBlocks_eq cwd
    (fun i member => recoverable_settled l₁ (fine i member))
    ((recoveryWrites cwd s).replay (List.finRange N) (bytesOf s.files))
  rw [again] at rest
  generalize (recoveryWrites cwd s).replay (List.finRange N) (bytesOf s.files) = bytes at *
  have here : s = s.withFiles (filesOf (bytesOf s.files)) := rfl
  rw [← here] at whole
  have shown : settled l₁ (s.withFiles (filesOf bytes)) =
      (settled l₁ s).withFiles (filesOf bytes) := rfl
  unfold recoveryStart
  rw [whole, shown, rest]
  simp only [Option.bind_eq_bind, Option.bind_some]
  rw [← shown, settleInodes_settled]

end Settled

end BurstBuffer.Source
