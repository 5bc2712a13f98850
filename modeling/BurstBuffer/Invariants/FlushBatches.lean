import BurstBuffer.Source.FilePositions
import BurstBuffer.Invariants.SyncStep

/-!
# The batches of a flush

Which inodes of `i_idxs` nvm_flush writes with one `pwritev`, and what all these
calls leave in the file.
-/
namespace BurstBuffer.Source

open Library

variable {C : CuckoohashMap} {N : Nat} {lbn : InodeIdx N → Nat}

/-- The batches that the outer loop of nvm_flush cuts `i_idxs` into. -/
def flushBatches (lbn : InodeIdx N → Nat) : Nat → List (InodeIdx N) → List (List (InodeIdx N))
  | _, [] => []
  | 0, _ :: _ => []
  | fuel + 1, start :: rest =>
    let batchCount := lookAhead lbn (lbn start) rest + 1
    (start :: rest).take batchCount ::
      flushBatches lbn fuel ((start :: rest).drop batchCount)

/-- Two neighbours of `i_idxs` that count as consecutive, with the last and the first
32-bit block number. -/
def Wraps (lbn : InodeIdx N → Nat) (iIdxs : List (InodeIdx N)) : Prop :=
  ∃ k i j, iIdxs[k]? = some i ∧ iIdxs[k + 1]? = some j ∧ lbn i = 2 ^ 32 - 1 ∧ lbn j = 0

/-- The `pwritev` of one batch. -/
def writeBatch (lbn : InodeIdx N → Nat) (content : InodeIdx N → Block) (f : File UInt8) :
    List (InodeIdx N) → File UInt8
  | [] => f
  | start :: rest => writeRun f (flushSeek (lbn start)) ((start :: rest).map content)

/-- The `pwrite` of one block. -/
def writeSingle (lbn : InodeIdx N → Nat) (content : InodeIdx N → Block) (f : File UInt8)
    (i : InodeIdx N) : File UInt8 :=
  writeAt f (flushSeek (lbn i)) (content i)

section Cover

variable {iIdxs : List (InodeIdx N)} {fuel : Nat}

theorem lookAhead_le (lbn : InodeIdx N → Nat) (currLbn : Nat) (rest : List (InodeIdx N)) :
    lookAhead lbn currLbn rest ≤ rest.length := by
  induction rest generalizing currLbn with
  | nil => exact Nat.le_refl 0
  | cons i rest ih =>
    rw [lookAhead, List.length_cons]
    split
    · exact Nat.succ_le_succ (ih _)
    · exact Nat.zero_le _

/-- The batches cover `i_idxs` in order. -/
theorem flatten_flushBatches (enough : iIdxs.length ≤ fuel) :
    (flushBatches lbn fuel iIdxs).flatten = iIdxs := by
  induction fuel generalizing iIdxs with
  | zero =>
    rw [List.eq_nil_of_length_eq_zero (Nat.le_zero.mp enough)]
    rfl
  | succ fuel ih =>
    cases iIdxs with
    | nil => rfl
    | cons start rest =>
      have shorter : ((start :: rest).drop (lookAhead lbn (lbn start) rest + 1)).length ≤ fuel := by
        rw [List.length_drop]
        omega
      rw [flushBatches, List.flatten_cons, ih shorter, List.take_append_drop]

theorem flushBatches_length {batch : List (InodeIdx N)}
    (member : batch ∈ flushBatches lbn fuel iIdxs) :
    0 < batch.length ∧ batch.length ≤ iIdxs.length := by
  induction fuel generalizing iIdxs with
  | zero => cases iIdxs <;> cases member
  | succ fuel ih =>
    cases iIdxs with
    | nil => cases member
    | cons start rest =>
      rw [flushBatches] at member
      rcases List.mem_cons.mp member with rfl | later
      · rw [List.length_take, List.length_cons]
        omega
      · have inside := ih later
        rw [List.length_drop] at inside
        omega

end Cover

section Runs

variable {start : InodeIdx N} {rest : List (InodeIdx N)} {currLbn k : Nat}

/-- The entries that the look-ahead counts have consecutive 32-bit block numbers. -/
theorem lookAhead_counted {i : InodeIdx N} (inside : k < lookAhead lbn currLbn rest)
    (here : rest[k]? = some i) : lbn i = (currLbn + 1 + k) % 2 ^ 32 := by
  induction rest generalizing currLbn k with
  | nil => cases here
  | cons j rest ih =>
    simp only [lookAhead] at inside
    split at inside
    · rename_i succ
      cases k with
      | zero =>
        cases here
        exact succ
      | succ k =>
        rw [ih (Nat.lt_of_succ_lt_succ inside) here, succ]
        omega
    · exact absurd inside (Nat.not_lt_zero k)

/-- The look-ahead stops before an entry that does not continue the run. -/
theorem lookAhead_stopped {i j : InodeIdx N}
    (last : (start :: rest)[lookAhead lbn (lbn start) rest]? = some i)
    (behind : (start :: rest)[lookAhead lbn (lbn start) rest + 1]? = some j) :
    lbn j ≠ (lbn i + 1) % 2 ^ 32 := by
  induction rest generalizing start with
  | nil => cases behind
  | cons next rest ih =>
    simp only [lookAhead] at last behind
    split at last
    · rename_i succ
      rw [if_pos succ] at behind
      exact ih last behind
    · rename_i other
      rw [if_neg other] at behind
      cases last
      cases behind
      exact other

/-- Without a wrap the block numbers of a batch are consecutive. -/
theorem batch_consecutive (small : ∀ i ∈ start :: rest, lbn i < 2 ^ 32)
    (apart : ¬ Wraps lbn (start :: rest)) {i : InodeIdx N}
    (here : ((start :: rest).take (lookAhead lbn (lbn start) rest + 1))[k]? = some i) :
    lbn i = lbn start + k := by
  induction k generalizing i with
  | zero =>
    cases here
    rfl
  | succ k ih =>
    have inside : k + 1 < lookAhead lbn (lbn start) rest + 1 := by
      by_contra behind
      rw [List.getElem?_take, if_neg behind] at here
      cases here
    rw [List.getElem?_take_of_lt inside] at here
    have length := lookAhead_le lbn (lbn start) rest
    obtain ⟨j, before⟩ : ∃ j, (start :: rest)[k]? = some j :=
      ⟨_, List.getElem?_eq_getElem (by rw [List.length_cons]; omega)⟩
    have previous := ih (by rw [List.getElem?_take_of_lt (by omega), before])
    have bound := small j (List.mem_of_getElem? before)
    have counts : k < lookAhead lbn (lbn start) rest := Nat.lt_of_succ_lt_succ inside
    have counted := lookAhead_counted counts here
    by_cases last : lbn j = 2 ^ 32 - 1
    · exact absurd ⟨k, j, i, before, here, last, by omega⟩ apart
    · omega

end Runs

section Files

variable {content : InodeIdx N → Block} {iIdxs : List (InodeIdx N)} {fuel : Nat}

theorem Wraps.of_drop {n : Nat} (wraps : Wraps lbn (iIdxs.drop n)) : Wraps lbn iIdxs := by
  obtain ⟨k, i, j, here, there, last, first⟩ := wraps
  rw [List.getElem?_drop] at here there
  exact ⟨n + k, i, j, here, there, last, first⟩

/-- A gathered write of consecutive blocks does what single writes do. -/
theorem writeBatch_eq_foldl {start : InodeIdx N} {rest : List (InodeIdx N)} (f : File UInt8)
    (small : ∀ i ∈ start :: rest, lbn i < 2 ^ 32)
    (run : ∀ (k : Nat) i, (start :: rest)[k]? = some i → lbn i = lbn start + k) :
    writeBatch lbn content f (start :: rest) =
      (start :: rest).foldl (writeSingle lbn content) f := by
  rw [writeBatch, flushSeek_eq (small start List.mem_cons_self), writeRun_eq_foldl f run]
  apply List.foldl_ext
  intro g i member
  rw [writeSingle, flushSeek_eq (small i member)]

/-- Without a wrap the calls of a flush write every block where a write of its own
would, in the same order. -/
theorem writeBatch_foldl (f : File UInt8) (small : ∀ i ∈ iIdxs, lbn i < 2 ^ 32)
    (apart : ¬ Wraps lbn iIdxs) (enough : iIdxs.length ≤ fuel) :
    (flushBatches lbn fuel iIdxs).foldl (writeBatch lbn content) f =
      iIdxs.foldl (writeSingle lbn content) f := by
  induction fuel generalizing iIdxs f with
  | zero =>
    rw [List.eq_nil_of_length_eq_zero (Nat.le_zero.mp enough)]
    rfl
  | succ fuel ih =>
    cases iIdxs with
    | nil => rfl
    | cons start rest =>
      have run := fun k i => batch_consecutive (k := k) (i := i) small apart
      have enough' : ((start :: rest).drop (lookAhead lbn (lbn start) rest + 1)).length ≤ fuel := by
        rw [List.length_drop]
        omega
      have inside : ∀ i ∈ (start :: rest).take (lookAhead lbn (lbn start) rest + 1),
          lbn i < 2 ^ 32 := fun i member => small i (List.mem_of_mem_take member)
      have first : writeBatch lbn content f
          ((start :: rest).take (lookAhead lbn (lbn start) rest + 1)) =
            ((start :: rest).take (lookAhead lbn (lbn start) rest + 1)).foldl
              (writeSingle lbn content) f :=
        writeBatch_eq_foldl f inside run
      rw [flushBatches, List.foldl_cons, first, ih _
        (fun i member => small i (List.mem_of_mem_drop member)) (fun wraps => apart wraps.of_drop)
        enough', ← List.foldl_append, List.take_append_drop]

/-- Single writes leave alone what lies behind the blocks with 32-bit numbers. -/
theorem writeSingle_beyond (f : File UInt8) (small : ∀ i ∈ iIdxs, lbn i < 2 ^ 32) :
    readBlock blockSize (iIdxs.foldl (writeSingle lbn content) f) (2 ^ 32) =
      readBlock blockSize f (2 ^ 32) := by
  induction iIdxs generalizing f with
  | nil => rfl
  | cons i rest ih =>
    have low := small i List.mem_cons_self
    rw [List.foldl_cons, ih _ fun j member => small j (List.mem_cons_of_mem i member), writeSingle,
      flushSeek_eq low, readBlock_writeBlock, if_neg (Nat.ne_of_gt low)]

variable {block : Block}

/-- A gathered write of equal blocks leaves each block as it was or makes it that one. -/
theorem writeBatch_const (f : File UInt8) {start : InodeIdx N} {rest : List (InodeIdx N)}
    (small : lbn start < 2 ^ 32) (j : Nat) :
    readBlock blockSize (writeBatch lbn (fun _ => block) f (start :: rest)) j =
      if lbn start ≤ j ∧ j - lbn start < rest.length + 1 then block
      else readBlock blockSize f j := by
  rw [writeBatch, flushSeek_eq small, readBlock_writeRun, List.map_const', List.length_cons]
  by_cases before : j < lbn start
  · rw [if_pos before, if_neg (by omega)]
  · rw [if_neg before, List.getD_eq_getElem?_getD, List.getElem?_replicate]
    by_cases inside : j - lbn start < rest.length + 1
    · rw [if_pos inside, if_pos ⟨by omega, inside⟩]
      rfl
    · rw [if_neg inside, if_neg (by omega)]
      rfl

theorem flushBatches_const (f : File UInt8) (small : ∀ i ∈ iIdxs, lbn i < 2 ^ 32) {j : Nat}
    (written : readBlock blockSize f j = block) :
    readBlock blockSize ((flushBatches lbn fuel iIdxs).foldl
      (writeBatch lbn fun _ => block) f) j = block := by
  induction fuel generalizing iIdxs f with
  | zero => cases iIdxs <;> exact written
  | succ fuel ih =>
    cases iIdxs with
    | nil => exact written
    | cons start rest =>
      rw [flushBatches, List.foldl_cons]
      apply ih
      · exact fun i member => small i (List.mem_of_mem_drop member)
      · rw [List.take_succ_cons, writeBatch_const f (small start List.mem_cons_self)]
        split
        · rfl
        · exact written

/-- With a wrap one of the calls of a flush goes on behind those blocks. -/
theorem flushBatches_beyond (f : File UInt8) (small : ∀ i ∈ iIdxs, lbn i < 2 ^ 32)
    (wraps : Wraps lbn iIdxs) (short : iIdxs.length ≤ 2 ^ 32) (enough : iIdxs.length ≤ fuel) :
    readBlock blockSize ((flushBatches lbn fuel iIdxs).foldl
      (writeBatch lbn fun _ => block) f) (2 ^ 32) = block := by
  induction fuel generalizing iIdxs f with
  | zero =>
    obtain ⟨k, i, _, here, _⟩ := wraps
    rw [List.eq_nil_of_length_eq_zero (Nat.le_zero.mp enough)] at here
    cases here
  | succ fuel ih =>
    cases iIdxs with
    | nil =>
      obtain ⟨k, i, _, here, _⟩ := wraps
      cases here
    | cons start rest =>
      obtain ⟨k, i, j, here, there, last, first⟩ := wraps
      have small' : ∀ i ∈ (start :: rest).drop (lookAhead lbn (lbn start) rest + 1),
          lbn i < 2 ^ 32 := fun i member => small i (List.mem_of_mem_drop member)
      have low := small start List.mem_cons_self
      have length := lookAhead_le lbn (lbn start) rest
      rw [flushBatches, List.foldl_cons]
      rcases Nat.lt_trichotomy k (lookAhead lbn (lbn start) rest) with inside | border | behind
      · -- both are in the first batch, which passes the end of the 32-bit numbers
        apply flushBatches_const _ small'
        have counted := lookAhead_counted inside there
        rw [List.take_succ_cons, writeBatch_const f low, List.length_take]
        rw [List.length_cons] at short
        rw [if_pos]
        omega
      · subst k
        have stopped := lookAhead_stopped here there
        rw [last, first] at stopped
        exact absurd rfl stopped
      · apply ih _ small'
        · refine ⟨k - (lookAhead lbn (lbn start) rest + 1), i, j, ?_, ?_, last, first⟩
          · rw [List.getElem?_drop, Nat.add_sub_cancel' (by omega)]
            exact here
          · rw [List.getElem?_drop, ← Nat.add_assoc, Nat.add_sub_cancel' (by omega)]
            exact there
        · rw [List.length_drop]
          omega
        · rw [List.length_drop]
          omega

end Files

section Loop

variable {s : State C N}

/-- What a batch needs to be handed on: room in the sync queues, and `more` after it. -/
def SyncRoom (s : State C N) (more : Nat) : Prop :=
  ∀ k, (s.inodeSyncLfqueue k).values.length + more ≤ N

/-- Inodes that are queued for sync at most once leave room for the ones a flush holds. -/
theorem LifeCycle.syncRoom {held : List (InodeIdx N)} (cycle : LifeCycle s held) :
    SyncRoom s held.length := by
  intro k
  have distinct : ((s.inodeSyncLfqueue k).values ++ held).Nodup := by
    refine List.nodup_append.mpr ⟨?_, cycle.distinct, ?_⟩
    · rw [List.nodup_iff_count_le_one]
      intro i
      have once := (cycle.inode i).sync
      have part : (s.inodeSyncLfqueue k).values.count i ≤
          copies (contents s.inodeSyncLfqueue) i :=
        count_le_copies (contents s.inodeSyncLfqueue) k i
      split at once <;> omega
    · intro i queued j holds same
      subst same
      have isSync := cycle.sync_of_queued queued
      rw [(cycle.inode i).heldDirty holds] at isSync
      cases isSync
  have bound := distinct.length_le_card
  rw [List.length_append, Fintype.card_fin] at bound
  exact bound

theorem handOff_returns {i : InodeIdx N} {more : Nat} (room : SyncRoom s (more + 1)) :
    ∃ t, handOff i s = some t ∧ Kept s t ∧ t.files = s.files ∧ SyncRoom t more := by
  have space := room (roundRobin defaultNumSyncer s.syncQueueIdx)
  obtain ⟨q, queued, values⟩ := LfQueue.enqueue_isSome
    (q := s.inodeSyncLfqueue (roundRobin defaultNumSyncer s.syncQueueIdx)) i (by omega)
  obtain ⟨t, handed⟩ : ∃ t, handOff i s = some t := ⟨_, by simp [handOff, queued]; rfl⟩
  obtain ⟨q', queued', queues, entries, _, frame⟩ := handOff_eq_some handed
  cases queued.symm.trans queued'
  refine ⟨t, handed, ?_, by rw [frame], fun k => ?_⟩
  · exact Kept.of_entry (by rw [frame]) (by rw [frame]) (by rw [frame]; exact ⟨rfl, rfl⟩) entries
      rfl rfl rfl
  · rw [queues]
    by_cases here : k = roundRobin defaultNumSyncer s.syncQueueIdx
    · subst k
      rw [Function.update_self, values, List.length_append, List.length_singleton]
      omega
    · rw [Function.update_of_ne here]
      have other := room k
      omega

theorem handOffs_returns {batch : List (InodeIdx N)} {more : Nat}
    (room : SyncRoom s (batch.length + more)) :
    ∃ t, batch.foldlM (fun s idx => handOff idx s) s = some t ∧ Kept s t ∧ t.files = s.files ∧
      SyncRoom t more := by
  induction batch generalizing s with
  | nil => exact ⟨s, rfl, .refl s, rfl, by simpa using room⟩
  | cons i batch ih =>
    have space : SyncRoom s (batch.length + more + 1) := by
      intro k
      have bound := room k
      rw [List.length_cons] at bound
      omega
    obtain ⟨u, first, kept, files, space'⟩ := handOff_returns (i := i) space
    obtain ⟨t, others, kept', files', last⟩ := ih space'
    refine ⟨t, ?_, kept.trans kept', files'.trans files, last⟩
    rw [List.foldlM_cons, first]
    exact others

/-- The second loop of a flush issues the calls of its batches and hands the inodes on. -/
theorem writeBatches_returns {fuel : Nat} {iIdxs : List (InodeIdx N)} {v : VolumeIdx}
    {file : String} (enough : iIdxs.length ≤ fuel)
    (owner : ∀ i ∈ iIdxs, (s.inodeTable i).volume = some v)
    (fd : (s.volumeTable v).fd = some file) (small : ∀ i ∈ iIdxs, (s.inodeTable i).lbn < 2 ^ 32)
    (room : SyncRoom s iIdxs.length) :
    ∃ t, writeBatches fuel iIdxs s = some t ∧ t.files = Function.update s.files file
      ((flushBatches (fun i => (s.inodeTable i).lbn) fuel iIdxs).foldl
        (writeBatch (fun i => (s.inodeTable i).lbn) s.blockOf) (s.files file)) := by
  induction fuel generalizing iIdxs s with
  | zero =>
    obtain rfl := List.eq_nil_of_length_eq_zero (Nat.le_zero.mp enough)
    exact ⟨s, rfl, (Function.update_eq_self file s.files).symm⟩
  | succ fuel ih =>
    cases iIdxs with
    | nil => exact ⟨s, rfl, (Function.update_eq_self file s.files).symm⟩
    | cons start rest =>
      set n := lookAhead (fun i => (s.inodeTable i).lbn) (s.inodeTable start).lbn rest with hn
      have length := lookAhead_le (fun i => (s.inodeTable i).lbn) (s.inodeTable start).lbn rest
      have written := pwritevBatch_seeks ((start :: rest).take (n + 1))
        (small start List.mem_cons_self) (owner start List.mem_cons_self) fd
      set x := s.setFile file (writeRun (s.files file) (flushSeek (s.inodeTable start).lbn)
        (((start :: rest).take (n + 1)).map s.blockOf)) with hx
      have space : SyncRoom x (((start :: rest).take (n + 1)).length +
          ((start :: rest).drop (n + 1)).length) := by
        rw [← List.length_append, List.take_append_drop]
        exact room
      obtain ⟨u, handed, kept, files, space'⟩ := handOffs_returns space
      have filed : Kept s x := ⟨rfl, fun _ => rfl, fun _ => rfl, fun _ => rfl, fun _ => rfl,
        fun _ => rfl, rfl, rfl⟩
      have whole : Kept s u := filed.trans kept
      have sameLbn : (fun i => (u.inodeTable i).lbn) = fun i => (s.inodeTable i).lbn :=
        funext whole.lbn
      have sameBlocks : u.blockOf = s.blockOf := funext whole.blockOf
      have enough' : ((start :: rest).drop (n + 1)).length ≤ fuel := by
        rw [List.length_drop]
        omega
      obtain ⟨t, looped, result⟩ := ih enough'
        (fun i member => (whole.volume i).trans (owner i (List.mem_of_mem_drop member)))
        ((whole.fd v).trans fd)
        (fun i member => (whole.lbn i).symm ▸ small i (List.mem_of_mem_drop member)) space'
      refine ⟨t, ?_, ?_⟩
      · simp only [writeBatches, ← hn, written, Option.bind_eq_bind, Option.bind_some, handed,
          looped]
      · rw [result, files, sameLbn, sameBlocks, flushBatches, List.foldl_cons, ← hn, hx]
        rw [State.setFile_files, Function.update_self, Function.update_idem]
        rfl

end Loop

end BurstBuffer.Source
