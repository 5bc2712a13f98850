import Mathlib.Order.Defs.LinearOrder
import BurstBuffer.Invariants.Run

/-!
# What recovery_start writes

recovery_start goes through the inode table in order, so the last DIRTY or SYNC
inode of a volume whose position comes out as that of a block decides what the
file holds there, provided that the name it opens is the name of the file.
-/
namespace BurstBuffer.Source

open Library

variable {C : CuckoohashMap} {N : Nat} {cwd : String}

section LastMatch

variable {ι : Type} [LinearOrder ι] {p : ι → Bool} {l : List ι} {i : ι}

theorem findRev?_spec (ascending : l.Pairwise (· < ·)) (found : l.findRev? p = some i) :
    i ∈ l ∧ p i = true ∧ ∀ j ∈ l, p j = true → j ≤ i := by
  induction l with
  | nil => cases found
  | cons a l ih =>
    obtain ⟨first, rest⟩ := List.pairwise_cons.mp ascending
    rw [List.findRev?] at found
    split at found
    · rename_i k later
      cases found
      obtain ⟨member, matched, greatest⟩ := ih rest later
      refine ⟨List.mem_cons_of_mem a member, matched, fun j inside chosen => ?_⟩
      rcases List.mem_cons.mp inside with rfl | inside
      · exact le_of_lt (first i member)
      · exact greatest j inside chosen
    · rename_i none
      split at found
      · rename_i matched
        cases found
        refine ⟨List.mem_cons_self, matched, fun j inside chosen => ?_⟩
        rcases List.mem_cons.mp inside with rfl | inside
        · exact le_refl j
        · rw [List.findRev?_eq_find?_reverse, List.find?_eq_none] at none
          exact absurd chosen (none j (List.mem_reverse.mpr inside))
      · cases found

omit [LinearOrder ι] in
theorem findRev?_eq_none : l.findRev? p = none ↔ ∀ j ∈ l, p j = false := by
  rw [List.findRev?_eq_find?_reverse, List.find?_eq_none]
  simp

/-- In an ascending list the last match is the greatest. -/
theorem findRev?_eq_some (ascending : l.Pairwise (· < ·)) :
    l.findRev? p = some i ↔ i ∈ l ∧ p i = true ∧ ∀ j ∈ l, p j = true → j ≤ i := by
  refine ⟨findRev?_spec ascending, fun ⟨member, matched, greatest⟩ => ?_⟩
  cases found : l.findRev? p with
  | none =>
    rw [findRev?_eq_none.mp found i member] at matched
    cases matched
  | some k =>
    obtain ⟨member', matched', greatest'⟩ := findRev?_spec ascending found
    exact congrArg some (le_antisymm (greatest k member' matched') (greatest' i member matched))

end LastMatch

/-- recovery_start writes the block of inode `i` to the position of block `lbn`
of volume `v`. -/
def replays (s : State C N) (v : VolumeIdx) (lbn : Nat) (i : InodeIdx N) : Bool :=
  isUnwritten (s.inodeTable i).state && (s.inodeTable i).volume == some v &&
    blockSize * (s.inodeTable i).lbn % 2 ^ 32 == blockSize * lbn

/-- The last inode of the table for which it does. -/
def lastReplayed (s : State C N) (v : VolumeIdx) (lbn : Nat) : Option (InodeIdx N) :=
  (List.finRange N).findRev? (replays s v lbn)

theorem lastReplayed_eq_some {s : State C N} {v : VolumeIdx} {lbn : Nat} {i : InodeIdx N} :
    lastReplayed s v lbn = some i ↔
      replays s v lbn i = true ∧ ∀ j, replays s v lbn j = true → j ≤ i := by
  rw [lastReplayed, findRev?_eq_some (List.pairwise_lt_finRange N)]
  simp

theorem lastReplayed_eq_none {s : State C N} {v : VolumeIdx} {lbn : Nat} :
    lastReplayed s v lbn = none ↔ ∀ i, replays s v lbn i = false := by
  rw [lastReplayed, findRev?_eq_none]
  simp

theorem replays_iff {s : State C N} {v : VolumeIdx} {lbn : Nat} {i : InodeIdx N} :
    replays s v lbn i = true ↔ isUnwritten (s.inodeTable i).state = true ∧
      (s.inodeTable i).volume = some v ∧
      blockSize * (s.inodeTable i).lbn % 2 ^ 32 = blockSize * lbn := by
  simp [replays, and_assoc]

/-- The 32-bit product of block size and block number forgets the block number
beyond `2^18`. -/
theorem position_eq (lbn : Nat) : blockSize * lbn % 2 ^ 32 = blockSize * (lbn % 2 ^ 18) := by
  rw [show (2 : Nat) ^ 32 = blockSize * 2 ^ 18 from rfl, Nat.mul_mod_mul_left]

theorem not_free_of_unwritten {s : State C N} {i : InodeIdx N}
    (unwritten : isUnwritten (s.inodeTable i).state = true) : (s.inodeTable i).state ≠ .free := by
  intro free
  rw [free] at unwritten
  cases unwritten

section LowBlocks

variable {s : State C N} {limit : Nat} {v : VolumeIdx} {lbn : Nat} {i : InodeIdx N}

/-- Where all block numbers are below `2^18`, positions do not run into each other. -/
theorem bound_of_replays (ok : SystemOk limit s) (low : limit ≤ 2 ^ 18)
    (replay : replays s v lbn i = true) : validInode s v lbn = some i := by
  obtain ⟨unwritten, owner, position⟩ := replays_iff.mp replay
  have bound := ok.cycle.validInode_self (not_free_of_unwritten unwritten) owner
  have small := ok.keys v _ i bound
  rw [position_eq, Nat.mod_eq_of_lt (by omega)] at position
  rwa [Nat.eq_of_mul_eq_mul_left (by decide) position] at bound

/-- What recovery does not write there is on file. -/
theorem onFile_of_skipped (ok : SystemOk limit s) (low : limit ≤ 2 ^ 18)
    (bound : validInode s v lbn = some i) (skipped : replays s v lbn i = false) : OnFile s i := by
  obtain ⟨used, owner, key⟩ := ((ok.cycle.inode i).bound v lbn).mp bound
  have small := ok.keys v lbn i bound
  have position : blockSize * (s.inodeTable i).lbn % 2 ^ 32 = blockSize * lbn := by
    rw [position_eq, key, Nat.mod_eq_of_lt (by omega)]
  refine ok.settled (by omega) i ?_
  cases state : (s.inodeTable i).state with
  | free => exact absurd state used
  | sync => exact Or.inl rfl
  | clean => exact Or.inr rfl
  | dirty =>
    have replay : replays s v lbn i = true :=
      replays_iff.mpr ⟨by rw [state]; rfl, owner, position⟩
    rw [skipped] at replay
    cases replay

end LowBlocks

section Names

theorem getFilename_eq (vid : Nat) :
    ∃ directory : String, getFilename vid = directory ++ "/VOL_" ++ toString vid ++ ".txt" := by
  unfold getFilename
  split
  · exact ⟨"/opt/nvm1/NVM", rfl⟩
  · exact ⟨"/opt/nvm2/NVM", rfl⟩

/-- Behind the last occurrence of a mark, two equal lists agree. -/
theorem eq_behind_mark {α : Type} {mark : α} {front front' back back' : List α}
    (same : (front ++ [mark]) ++ back = (front' ++ [mark]) ++ back') (absent : mark ∉ back)
    (absent' : mark ∉ back') : back = back' := by
  -- what one list has more in front ends with the mark, unless it is empty
  have suffix : ∀ {front front' middle : List α}, front' ++ [mark] = (front ++ [mark]) ++ middle →
      mark ∉ middle → middle = [] := by
    intro front front' middle left absent
    rcases List.eq_nil_or_concat middle with empty | ⟨rest, last, rfl⟩
    · exact empty
    · rw [List.concat_eq_append, ← List.append_assoc] at left
      obtain ⟨_, equal⟩ := List.append_inj' left rfl
      cases equal
      exact absurd (by simp) absent
  rcases List.append_eq_append_iff.mp same with ⟨middle, left, right⟩ | ⟨middle, left, right⟩
  · have none : mark ∉ middle := fun member => absent (right ▸ List.mem_append_left back' member)
    rw [right, suffix left none, List.nil_append]
  · have none : mark ∉ middle := fun member => absent' (right ▸ List.mem_append_left back member)
    rw [right, suffix left none, List.nil_append]

theorem underscore_notMem_toString (vid : Nat) : '_' ∉ (toString vid).toList := by
  intro member
  rw [Nat.toString_eq_repr, Nat.toList_repr] at member
  exact absurd (Nat.isDigit_of_mem_toDigits (by decide) (by decide) member) (by decide)

/-- Two such names in two directories are equal for one vid only. -/
theorem vid_eq_of_name {directory directory' : String} {vid vid' : Nat}
    (same : directory ++ "/VOL_" ++ toString vid ++ ".txt" =
      directory' ++ "/VOL_" ++ toString vid' ++ ".txt") : vid = vid' := by
  have chars := congrArg String.toList same
  simp only [String.toList_append] at chars
  rw [List.append_cancel_right_eq, show "/VOL_".toList = ['/', 'V', 'O', 'L'] ++ ['_'] from rfl,
    ← List.append_assoc, ← List.append_assoc] at chars
  have digits := eq_behind_mark chars (underscore_notMem_toString vid)
    (underscore_notMem_toString vid')
  simp only [Nat.toString_eq_repr, Nat.toList_repr] at digits
  exact toDigits_injective digits

/-- The name recovery_start opens for a volume is no other volume's file. -/
theorem vid_eq_of_recoveryFilename {vid vid' : Nat}
    (same : recoveryFilename cwd vid = getFilename vid') : vid = vid' := by
  obtain ⟨directory, name⟩ := getFilename_eq vid'
  rw [name] at same
  exact vid_eq_of_name same

end Names

/-- The block recovery_start writes last to a position of the file of a volume, if
it finds the file at all. -/
def replayed (cwd : String) (s : State C N) (v : VolumeIdx) (lbn : Nat) : Option (InodeIdx N) :=
  if recoveryFilename cwd (s.volumeTable v).vid = getFilename (s.volumeTable v).vid then
    lastReplayed s v lbn
  else none

section Loop

variable {s t r : State C N} {v : VolumeIdx} {lbn : Nat}

/-- One round, as the file of volume `v` sees it. -/
theorem recoverBlock_read {i : InodeIdx N} (volumes : VolumesOk s)
    (table : (s.volumeTable v).hashTable.isSome)
    (wrote : recoverBlock cwd s i = some t) :
    readBlock blockSize (t.files (getFilename (s.volumeTable v).vid)) lbn =
      if recoveryFilename cwd (s.volumeTable v).vid = getFilename (s.volumeTable v).vid ∧
          replays s v lbn i = true then s.blockOf i
      else readBlock blockSize (s.files (getFilename (s.volumeTable v).vid)) lbn := by
  simp only [recoverBlock] at wrote
  split at wrote
  · rename_i unwritten
    obtain ⟨w, owner, done⟩ := Option.bind_eq_some_iff.mp wrote
    cases done
    simp only [State.setFile_files]
    by_cases named : recoveryFilename cwd (s.volumeTable w).vid =
        getFilename (s.volumeTable v).vid
    · have home : v = w := volumes.distinct v w table (vid_eq_of_recoveryFilename named)
      subst home
      rw [named, Function.update_self, position_eq, readBlock_writeBlock]
      by_cases here : lbn = (s.inodeTable i).lbn % 2 ^ 18
      · rw [if_pos here, if_pos ⟨rfl, replays_iff.mpr ⟨unwritten, owner, by
          rw [position_eq, here]⟩⟩]
        rfl
      · rw [if_neg here, if_neg]
        rintro ⟨_, replay⟩
        have position := (replays_iff.mp replay).2.2
        rw [position_eq] at position
        exact here (Nat.eq_of_mul_eq_mul_left (by decide) position).symm
    · rw [Function.update_of_ne (Ne.symm named), if_neg]
      rintro ⟨same, replay⟩
      have home := (replays_iff.mp replay).2.1
      rw [owner, Option.some.injEq] at home
      rw [home] at named
      exact named same
  · rename_i written
    cases wrote
    rw [if_neg]
    exact fun both => written (replays_iff.mp both.2).1

/-- A round that writes nothing but files, as everything else sees it. -/
theorem replays_congr (frame : t = { s with files := t.files }) (i : InodeIdx N) :
    replays t v lbn i = replays s v lbn i := by
  rw [frame]
  rfl

theorem recoverBlocks_read {l : List (InodeIdx N)} (volumes : VolumesOk s)
    (table : (s.volumeTable v).hashTable.isSome)
    (recovered : l.foldlM (recoverBlock cwd) s = some t) :
    readBlock blockSize (t.files (getFilename (s.volumeTable v).vid)) lbn =
      match if recoveryFilename cwd (s.volumeTable v).vid = getFilename (s.volumeTable v).vid then
          l.findRev? (replays s v lbn) else none with
      | some i => s.blockOf i
      | none => readBlock blockSize (s.files (getFilename (s.volumeTable v).vid)) lbn := by
  induction l generalizing s with
  | nil =>
    cases recovered
    simp
  | cons i l ih =>
    obtain ⟨u, first, rest⟩ := Option.bind_eq_some_iff.mp recovered
    have frame : u = { s with files := u.files } :=
      recoverBlocks_frame cwd (l := [i]) (by simp [first])
    have volumeTable : u.volumeTable = s.volumeTable := by rw [frame]
    have blockOf : ∀ j, u.blockOf j = s.blockOf j := by
      rw [frame]
      exact fun _ => rfl
    have same : replays u v lbn = replays s v lbn := funext (replays_congr frame)
    have volumes' : VolumesOk u := volumes.congr (fun w => by rw [volumeIdentity, volumeTable]; rfl)
      (by rw [frame]) (by rw [frame])
    have after := ih volumes' (volumeTable ▸ table) rest
    rw [volumeTable, same, recoverBlock_read volumes table first] at after
    rw [after]
    by_cases named : recoveryFilename cwd (s.volumeTable v).vid = getFilename (s.volumeTable v).vid
    · simp only [if_pos named, List.findRev?]
      cases l.findRev? (replays s v lbn) with
      | some j => exact blockOf j
      | none => by_cases replay : replays s v lbn i = true <;> simp [replay, named]
    · simp only [named, false_and, if_false]

/-- What the file of a volume holds after recovery_start. -/
theorem recoveryStart_read (volumes : VolumesOk s) (table : (s.volumeTable v).hashTable.isSome)
    (recovered : recoveryStart cwd s = some r) :
    readBlock blockSize (r.files (getFilename (s.volumeTable v).vid)) lbn =
      match replayed cwd s v lbn with
      | some i => s.blockOf i
      | none => readBlock blockSize (s.files (getFilename (s.volumeTable v).vid)) lbn := by
  obtain ⟨q, looped, done⟩ := Option.bind_eq_some_iff.mp recovered
  have files : r.files = q.files := by
    cases done
    rw [(settleInodes_spec q).2]
  rw [files]
  exact recoverBlocks_read volumes table looped

/-- recovery_start runs through if every inode it has to write has a volume. -/
theorem recoveryStart_total (cwd : String)
    (owned : ∀ i, isUnwritten (s.inodeTable i).state = true → (s.inodeTable i).volume.isSome) :
    ∃ r, recoveryStart cwd s = some r := by
  have round : ∀ i (_ : List (InodeIdx N)) u, u = { s with files := u.files } →
      ∃ t, recoverBlock cwd u i = some t ∧ t = { s with files := t.files } := by
    intro i _ u frame
    have entries : u.inodeTable = s.inodeTable := by rw [frame]
    cases unwritten : isUnwritten (s.inodeTable i).state with
    | false => exact ⟨u, by simp [recoverBlock, entries, unwritten], frame⟩
    | true =>
      obtain ⟨v, owner⟩ := Option.isSome_iff_exists.mp (owned i unwritten)
      refine ⟨_, by simp [recoverBlock, entries, unwritten, owner]; rfl, ?_⟩
      rw [frame]
      rfl
  obtain ⟨q, looped, _⟩ := foldlM_total (f := recoverBlock cwd)
    (I := fun _ u => u = { s with files := u.files }) round (l := List.finRange N) (s := s) rfl
  exact ⟨settleInodes q, by rw [recoveryStart, looped]; rfl⟩

theorem recoveryStart_returns (cwd : String) (cycle : LifeCycle s []) :
    ∃ r, recoveryStart cwd s = some r :=
  recoveryStart_total cwd fun i unwritten => (cycle.inode i).owned (not_free_of_unwritten unwritten)

end Loop

end BurstBuffer.Source
