import BurstBuffer.Invariants.Enabled
import BurstBuffer.Invariants.VolumeLookup

/-!
# Waiting for free inodes

A writer that finds fewer than DEFAULT_FREE_MIN_COUNT free inodes waits for the background
threads. With at least 228 inodes they always provide for it; with fewer, every volume may
keep one dirty inode that no flush takes.
-/
namespace BurstBuffer.Guarantees

open Library Source

variable {C : CuckoohashMap} {N : Nat}

/-- No background thread that comes by can complete an operation. -/
def AtRest (cwd : String) (limit : Nat) (s : State C N) : Prop :=
  ∀ e, works s e = true → next cwd limit s e = none

section Rest

variable {cwd : String} {limit : Nat} {s t : State C N}

theorem works_step (ok : SystemOk limit s) (low : limit ≤ 2 ^ 32) (small : N ≤ 2 ^ 31) {e : Event}
    (taken : works s e = true) (step : next cwd limit s e = some t) :
    SystemOk limit t ∧ pendingWork t < pendingWork s := by
  cases e with
  | openVolume | writeBlock | restart => cases taken
  | flush v =>
    refine ⟨ok.next (e := .flush v) trivial step, ?_⟩
    simp only [works, Bool.and_eq_true, List.contains_iff_mem, decide_eq_true_eq] at taken
    have table : (s.volumeTable v).hashTable.isSome := by
      have once := ok.volumes.inuse v
      have member := List.count_pos_iff.mpr taken.1.2
      by_contra closed
      rw [if_neg closed] at once
      omega
    obtain ⟨u, flushed, less, _⟩ := nvmFlush_returns ok low small table taken.2
    cases flushed.symm.trans step
    exact less
  | sync index =>
    refine ⟨ok.next (e := .sync index) trivial step, ?_⟩
    have moved := syncLoop_work (n := (s.inodeSyncLfqueue index).getSize) step
    have positive := List.length_pos_iff.mpr (works_sync.mp taken)
    rw [LfQueue.getSize] at moved
    omega
  | balloon index =>
    refine ⟨ok.next (e := .balloon index) trivial step, ?_⟩
    have moved := pass_work ok.cycle step
    omega

theorem works_kept (ok : SystemOk limit s) {e : Event} (taken : works s e = true)
    (step : next cwd limit s e = some t) : Kept s t := by
  cases e with
  | openVolume | writeBlock | restart => cases taken
  | flush v => exact (ok.cycle.nvmFlush step).2.kept
  | sync index => exact (ok.cycle.nvmSync step).2.kept
  | balloon index => exact (ok.cycle.fillFreeInodesPass step).2.kept

/-- At rest nothing is queued for sync or for the balloon threads. -/
theorem drained_at_rest (ok : SystemOk limit s) (rest : AtRest cwd limit s) : Drained s := by
  rcases drained_or_enabled ok.cycle cwd limit with drained | ⟨e, t, taken, step⟩
  · exact drained
  · cases step.symm.trans (rest e taken)

/-- At rest the dirty inodes are few. -/
theorem dirty_at_rest (ok : SystemOk limit s) (low : limit ≤ 2 ^ 32) (small : N ≤ 2 ^ 31)
    (rest : AtRest cwd limit s) :
    s.inodeDirtyCount < kFlushLwm N ∨ s.inodeDirtyCount ≤ maxVolumeEntry := by
  by_contra! many
  obtain ⟨enough, more⟩ := many
  obtain ⟨v, several⟩ := ok.several_dirty more
  obtain ⟨table, listed⟩ := ok.open_of_dirty (Nat.lt_of_succ_lt several)
  obtain ⟨t, flushed, _, _⟩ := nvmFlush_returns ok low small table several
  cases flushed.symm.trans (rest (.flush v) (works_flush.mpr ⟨enough, listed, several⟩))

/-- Queues in which no background thread finds something to do. -/
theorem atRest_of_queues (dirty : ∀ v, (s.inodeDirtyLfqueue v).values.length ≤ 1)
    (drained : Drained s) : AtRest cwd limit s := by
  intro e taken
  cases e with
  | openVolume | writeBlock | restart => cases taken
  | flush v =>
    obtain ⟨_, _, several⟩ := works_flush.mp taken
    exact absurd several (Nat.not_lt_of_le (dirty v))
  | sync index => exact absurd (drained.sync index) (works_sync.mp taken)
  | balloon index => exact absurd (drained.clean index) (works_balloon.mp taken)

/-- A block step that needs an inode does not complete while free inodes are short. -/
theorem writeBlock_waits (ok : SystemOk limit s) (small : N ≤ 2 ^ 26)
    {v : VolumeIdx} {lbn : Nat} (unbound : validInode s v lbn = none)
    (short : s.inodeFreeCount < defaultFreeMinCount) (offset : Nat) (buf : Nat → UInt8)
    (count : Nat) : writeBlock v lbn offset buf count s = none := by
  rw [Option.eq_none_iff_forall_ne_some]
  rintro ⟨n, t⟩ written
  obtain ⟨_, i, effect⟩ := writeBlock_spec ok.cycle.nodes (ok.cycle.keyOk v lbn)
    (fun j _ => Nat.lt_of_lt_of_le j.isLt small) written
  cases effect.source with
  | bound valid =>
    rw [unbound] at valid
    cases valid
  | taken _ enough => exact absurd enough (Nat.not_le_of_lt short)

/-- The background threads by themselves come to rest. -/
theorem comes_to_rest (cwd : String) (ok : SystemOk limit s) (low : limit ≤ 2 ^ 32)
    (small : N ≤ 2 ^ 31) {v : VolumeIdx} (table : (s.volumeTable v).hashTable.isSome) :
    ∃ es t, backgroundRun cwd limit s es = some t ∧ AtRest cwd limit t ∧
      (t.volumeTable v).hashTable.isSome := by
  have less : ∀ x e y, SystemOk limit x ∧ (x.volumeTable v).hashTable.isSome → works x e = true →
      (system C N cwd limit).next x e = some y →
      (SystemOk limit y ∧ (y.volumeTable v).hashTable.isSome) ∧ pendingWork y < pendingWork x := by
    rintro x e y ⟨before, opened⟩ taken step
    obtain ⟨after, smaller⟩ := works_step before low small taken step
    have identity := (works_kept before taken step).identity v
    simp only [volumeIdentity, Prod.mk.injEq] at identity
    exact ⟨⟨after, identity.2.2 ▸ opened⟩, smaller⟩
  obtain ⟨es, t, run, rest⟩ := Machine.runBy_ends less s ⟨ok, table⟩
  exact ⟨es, t, run, rest, (Machine.runBy_bounded less ⟨ok, table⟩ run).1.2⟩

end Rest

/-- From any state that is reached, the background threads by themselves come to rest, and
then every block step of an open volume completes. -/
theorem writers_proceed (C : CuckoohashMap) (N : Nat) (cwd : String) (limit : Nat)
    (large : 228 ≤ N) (small : N ≤ 2 ^ 26) (low : limit ≤ 2 ^ 32) (s t : State C N)
    (es : List Event) (reach : (system C N cwd limit).Reachable s)
    (run : backgroundRun cwd limit s es = some t) :
    es.length ≤ pendingWork s ∧
      (AtRest cwd limit t → ∀ v, (t.volumeTable v).hashTable.isSome → ∀ lbn offset buf count,
        ∃ u, writeBlock v lbn offset buf count t = some (count, u)) := by
  have before : SystemOk limit s ∧ FreeTurns s :=
    reach.invariant (I := fun s => SystemOk limit s ∧ FreeTurns s)
      (fun x initial => ⟨SystemOk.init initial, FreeTurns.init initial⟩)
      fun x e y _ ⟨ok, turns⟩ step =>
        ⟨ok.next (narrowStep_of_le small x e) step,
          turns.next ok (narrowStep_of_le small x e) step⟩
  obtain ⟨⟨ok, turns⟩, bound⟩ := Machine.runBy_bounded
    (I := fun x => SystemOk limit x ∧ FreeTurns x) (m := pendingWork)
    (fun x e y ⟨ok, turns⟩ taken step => by
      obtain ⟨after, less⟩ := works_step ok low (by omega) taken step
      exact ⟨⟨after, turns.next ok (narrowStep_of_le small x e) step⟩, less⟩) before run
  refine ⟨by omega, fun rest v table lbn offset buf count => ?_⟩
  have free : defaultFreeMinCount ≤ t.inodeFreeCount := by
    have all := (drained_at_rest ok rest).counts ok.cycle
    rcases dirty_at_rest ok low (by omega) rest with few | few
    · simp only [kFlushLwm, defaultFreeMinCount] at few ⊢
      omega
    · simp only [maxVolumeEntry, defaultFreeMinCount] at few ⊢
      omega
  obtain ⟨i, chosen⟩ := turns.chosen ok.cycle free v lbn
  obtain ⟨u, written, _⟩ := writeBlock_returns ok.cycle offset count buf table chosen
    (Nat.lt_of_lt_of_le i.isLt small)
    (by rcases (drained_at_rest ok rest).states ok.cycle i with state | state <;> rw [state] <;>
        decide)
    fun _ => free
  exact ⟨u, written⟩

/-- In a table of 228 inodes 129 blocks are written before any flush. The next writer waits,
and the background threads come to a rest in which it is served. -/
theorem writers_proceed_waiting : ∃ (s t : State functionMap 228) (es : List Event),
    (system functionMap 228 "/" 130).Reachable s ∧ s.inodeFreeCount < defaultFreeMinCount ∧
      writeBlock zeroVolume 129 0 (fun _ => 1) blockSize s = none ∧
      backgroundRun "/" 130 s es = some t ∧ AtRest "/" 130 t ∧
      ∃ u, writeBlock zeroVolume 129 0 (fun _ => 1) blockSize t = some (blockSize, u) := by
  obtain ⟨s, reach, filled⟩ :=
    filled_reachable (blankMemory 228) "/" 130 (k := 129) (by decide) (by decide) (by decide)
  have count := filled.count
  have short : s.inodeFreeCount < defaultFreeMinCount := by
    simp only [defaultFreeMinCount]
    omega
  obtain ⟨es, t, run, rest, table⟩ :=
    comes_to_rest "/" filled.ok (by decide) (by decide) filled.table
  exact ⟨s, t, es, reach.reachable, short,
    writeBlock_waits filled.ok (by decide) filled.unbound short 0 _ _, run, rest,
    (writers_proceed functionMap 228 "/" 130 (by decide) (by decide) (by decide) s t es
      reach.reachable run).2 rest zeroVolume table 129 0 _ _⟩

section Spread

variable {cwd : String} {limit k : Nat} {s : State C N}

/-- Each of the volumes `0 .. k - 1` has one block, and nothing has been flushed. -/
structure Spread (limit k : Nat) (s : State C N) : Prop where
  ok : SystemOk limit s
  turns : FreeTurns s
  registered : Registered s (List.range k)
  count : s.inodeFreeCount + k = N
  dirty : ∀ v, (s.inodeDirtyLfqueue v).values.length ≤ 1
  drained : Drained s
  first : ∀ v lbn i, validInode s v lbn = some i → lbn = 0

/-- Opening one more volume. -/
theorem Spread.opens (spread : Spread limit k s) (room : k < maxVolumeEntry) :
    ∃ v t, getVolumeEntryIdx k s = some (v, t) ∧ Opened s t k v ∧
      Registered t (List.range (k + 1)) ∧ (t.volumeTable v).hashTable.isSome := by
  have real : k ≠ unusedVid := by
    have large : maxVolumeEntry < unusedVid := by decide
    omega
  have few : (List.range k ++ [k]).toFinset.card ≤ maxVolumeEntry := by
    rw [← List.range_succ, List.toFinset_card_of_nodup List.nodup_range, List.length_range]
    exact room
  obtain ⟨v, t, got, registered, setUp, _⟩ := spread.registered.call real few
  rw [← List.range_succ] at registered
  refine ⟨v, t, got, ?_, registered, setUp.table⟩
  rcases getVolumeEntryIdx_cases got with ⟨rfl, found⟩ | opened
  · have member := spread.registered.asked v setUp.table
    rw [found, List.mem_range] at member
    exact absurd member (Nat.lt_irrefl k)
  · exact opened

/-- What is registered only depends on the identities and the queue of used volumes. -/
theorem registered_congr {t : State C N} {vids : List Nat} (registered : Registered s vids)
    (volumes : VolumesOk t) (identity : ∀ v, volumeIdentity t v = volumeIdentity s v) :
    Registered t vids := by
  have same : ∀ v, (t.volumeTable v).vid = (s.volumeTable v).vid ∧
      (t.volumeTable v).hashTable.isSome = (s.volumeTable v).hashTable.isSome := by
    intro v
    have parts := identity v
    simp only [volumeIdentity, Prod.mk.injEq] at parts
    exact ⟨parts.1, parts.2.2⟩
  refine ⟨volumes, fun vid member => ?_, fun v table => ?_⟩
  · obtain ⟨v, setUp⟩ := registered.known vid member
    exact ⟨v, .of_table volumes ((same v).2.symm ▸ setUp.table) ((same v).1.trans setUp.named)⟩
  · rw [(same v).2] at table
    rw [(same v).1]
    exact registered.asked v table

theorem Spread.start {r : State C N} (fresh : Fresh r s) (ok : SystemOk limit s) :
    Spread limit 0 s := by
  have queues : s.inodeFreeCount = N ∧ s.inodeDirtyLfqueue = fun _ => .new := by
    rw [fresh.frame]
    exact ⟨rfl, rfl⟩
  obtain ⟨count, dirty⟩ := queues
  refine ⟨ok, .fresh fresh, Registered.start fresh, by rw [count]; rfl, fun v => ?_,
    .fresh fresh, fun v lbn i bound => ?_⟩
  · rw [dirty]
    exact Nat.zero_le _
  · rw [fresh.validInode] at bound
    cases bound

/-- One more volume with one block. -/
theorem Spread.round (spread : Spread limit k s) (room : k < maxVolumeEntry)
    (enough : k + 100 ≤ N) (small : N ≤ 2 ^ 26) (inside : 0 < limit)
    (reach : (system C N cwd limit).Reachable s) :
    ∃ t, (system C N cwd limit).Reachable t ∧ Spread limit (k + 1) t := by
  obtain ⟨v, u, got, opened, registered, table⟩ := spread.opens room
  have ok := spread.ok.opened opened
  have bound := (opened.nodes spread.ok.volumes spread.ok.cycle.nodes).2
  have same : u.inodeFreeCount = s.inodeFreeCount ∧
      u.inodeDirtyLfqueue = s.inodeDirtyLfqueue := by
    rw [opened.frame]
    exact ⟨rfl, rfl⟩
  obtain ⟨count, dirty⟩ := same
  have turns : FreeTurns u :=
    spread.turns.congr (by rw [opened.frame]) (by rw [opened.frame]) (by rw [opened.frame])
  have counted := spread.count
  have free : defaultFreeMinCount ≤ u.inodeFreeCount := by
    simp only [defaultFreeMinCount]
    omega
  have wasClosed := opened.wasClosed spread.ok.volumes
  have unbound : ∀ lbn, validInode u v lbn = none := by
    intro lbn
    rw [Option.isSome_eq_false_iff, Option.isNone_iff_eq_none] at wasClosed
    rw [bound, validInode, nodeAt, wasClosed]
    rfl
  have empty : (u.inodeDirtyLfqueue v).values = [] := by
    rw [dirty]
    apply List.eq_nil_iff_forall_not_mem.mpr
    intro i member
    obtain ⟨isDirty, owner, _⟩ := spread.ok.cycle.dirty_of_queued member
    have table := spread.ok.cycle.owner_open (by rw [isDirty]; decide) owner
    rw [wasClosed] at table
    cases table
  obtain ⟨i, chosen⟩ := turns.chosen ok.cycle free v 0
  have isFree : (u.inodeTable i).state = .free := by
    have taken := chosen
    simp only [blockInode, unbound, Option.map_eq_some_iff] at taken
    obtain ⟨⟨j, rest⟩, head, rfl⟩ := taken
    apply ok.cycle.free_of_queued (k := roundRobin defaultNumFree u.freeDequeueIdx)
    rw [LfQueue.dequeue_eq_some.mp head]
    exact List.mem_cons_self
  obtain ⟨t, written, effect⟩ := writeBlock_returns ok.cycle 0 blockSize (fun _ => 0) table chosen
    (Nat.lt_of_lt_of_le i.isLt small) (by rw [isFree]; decide) fun _ => free
  have first : (system C N cwd limit).next s (.openVolume k) = some u := by
    simp [system, next, got]
  have second : (system C N cwd limit).next u (.writeBlock v 0 0 (fun _ => 0) blockSize) =
      some t := by
    simp [system, next, inside, written]
  refine ⟨t, (reach.step first).step second, ?_⟩
  cases effect.source with
  | bound valid =>
    rw [unbound] at valid
    cases valid
  | taken _ _ _ _ _ fewer _ =>
    have marked := effect.dirty
    rw [if_neg (by rw [isFree]; decide)] at marked
    obtain ⟨q, queued, queues, _⟩ := marked
    refine ⟨ok.written inside effect, turns.written effect, ?_, by omega, fun w => ?_,
      (spread.drained.found got).written effect, fun w lbn j valid => ?_⟩
    · exact registered_congr registered (ok.written inside effect).volumes effect.identity
    · rw [queues]
      by_cases here : w = v
      · subst w
        rw [Function.update_self, LfQueue.enqueue_eq_some.mp queued, empty]
        exact Nat.le_refl 1
      · rw [Function.update_of_ne here, dirty]
        exact spread.dirty w
    · rw [effect.bound] at valid
      split at valid
      · rename_i key
        exact key.2
      · rw [bound] at valid
        exact spread.first w lbn j valid

theorem Spread.rounds (initial : ∃ s, (system C N cwd limit).Reachable s ∧ Spread limit 0 s)
    (small : N ≤ 2 ^ 26) (inside : 0 < limit) (room : k ≤ maxVolumeEntry) (enough : k + 99 ≤ N) :
    ∃ s, (system C N cwd limit).Reachable s ∧ Spread limit k s := by
  induction k with
  | zero => exact initial
  | succ k ih =>
    obtain ⟨s, reach, spread⟩ := ih (by omega) (by omega)
    exact spread.round (by omega) (by omega) small inside reach

end Spread

/-- With fewer inodes the system can come to a state in which a writer waits and no background
thread has anything to do. -/
theorem writers_wait (C : CuckoohashMap) (N : Nat) (cwd : String) (limit : Nat)
    (few : N < 228) (room : 2 ≤ limit) (memory : State C N) :
    ∃ s, (system C N cwd limit).Reachable s ∧ AtRest cwd limit s ∧
      ∃ v lbn, (s.volumeTable v).hashTable.isSome ∧ lbn < limit ∧
        ∀ offset buf count, writeBlock v lbn offset buf count s = none := by
  have small : N ≤ 2 ^ 26 := by omega
  obtain ⟨r, initial, fresh⟩ := system_starts limit cwd memory
  have start : Spread limit 0 r := .start fresh (SystemOk.init initial)
  by_cases several : 100 ≤ N
  · -- `N - 99` volumes keep one dirty inode each
    obtain ⟨s, reach, spread⟩ := Spread.rounds (k := N - 99) ⟨r, .init initial, start⟩ small
      (by omega) (by simp only [maxVolumeEntry]; omega) (by omega)
    obtain ⟨v, setUp⟩ := spread.registered.known 0 (List.mem_range.mpr (by omega))
    refine ⟨s, reach, atRest_of_queues spread.dirty spread.drained, v, 1, setUp.table,
      by omega, writeBlock_waits spread.ok small ?_ ?_⟩
    · cases bound : validInode s v 1 with
      | none => rfl
      | some i => exact absurd (spread.first v 1 i bound) (by decide)
    · have count := spread.count
      simp only [defaultFreeMinCount]
      omega
  · -- there are not enough inodes from the start
    obtain ⟨v, s, got, opened, _, table⟩ := start.opens (by decide)
    have step : (system C N cwd limit).next r (.openVolume 0) = some s := by
      simp [system, next, got]
    have bound := (opened.nodes start.ok.volumes start.ok.cycle.nodes).2
    have same : s.inodeFreeCount = r.inodeFreeCount ∧
        s.inodeDirtyLfqueue = r.inodeDirtyLfqueue := by
      rw [opened.frame]
      exact ⟨rfl, rfl⟩
    obtain ⟨count, dirty⟩ := same
    refine ⟨s, .step (.init initial) step, atRest_of_queues (dirty ▸ start.dirty)
      (start.drained.found got), v, 0, table, by omega,
      writeBlock_waits (start.ok.opened opened) small ?_ ?_⟩
    · rw [bound, fresh.validInode]
    · have all := start.count
      simp only [defaultFreeMinCount]
      omega

/-- An NVM of 100 inodes: one block fits, the next one waits. -/
theorem writers_wait_hundred : ∃ s : State functionMap 100,
    (system functionMap 100 "/" 10).Reachable s ∧ AtRest "/" 10 s ∧
      ∃ v lbn, (s.volumeTable v).hashTable.isSome ∧ lbn < 10 ∧
        ∀ offset buf count, writeBlock v lbn offset buf count s = none :=
  writers_wait functionMap 100 "/" 10 (by decide) (by decide) (blankMemory 100)

end BurstBuffer.Guarantees
