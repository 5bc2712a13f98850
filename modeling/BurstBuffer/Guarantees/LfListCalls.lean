import BurstBuffer.Invariants.LfListCalls

/-!
# The calls of lflist from one thread

* remove does what its name says except for the node that was appended last, which search
  returns without a look at its data (`remove_meaning`).
* search and remove return, and touch nodes only, unless nothing has been appended or the
  data are those of the dummy head (`calls_safe`).
* The destructor deletes the linked nodes as long as no marked node is among them
  (`destroys_linked`).
-/
namespace BurstBuffer.Guarantees

open Source Library

/-- What remove is to do, with the number that get_count returns. -/
structure RemoveMeaning (l : LfList) (data : Nat) : Prop where
  count : l.count = l.liveNodes.length % 2 ^ 64
  returns : ∃ fuel reply l', runThread fuel (ListCall.remove data).begin l = some (reply, l') ∧
    l'.data = l.data ∧
    match l.firstLive data with
    | some a => reply = .code 1 ∧ l'.liveNodes = l.liveNodes.erase a
    | none => reply = .code 0 ∧ l'.liveNodes = l.liveNodes

/-- The last appended node is the only one that remove misses. -/
theorem remove_meaning (l : LfList) (built : Built l) (nonempty : 0 < l.tail) (data : Nat)
    (key : data ≠ 0) : RemoveMeaning l data ↔ l.firstLive data ≠ some l.tail := by
  have ok := built.alone
  obtain ⟨r, l', leads, found, kept, tail, marked⟩ := ok.remove key nonempty
  obtain ⟨fuel, ran⟩ := runThread_of_leads leads
  have first := found.firstLive
  by_cases inside : r < l.tail
  · rw [if_pos (found.stops inside)] at first
    rw [if_pos inside] at ran
    have erased : l'.liveNodes = l.liveNodes.erase r :=
      liveNodes_erase tail fun a => by rw [marked a, and_iff_right inside]
    have other : l.firstLive data ≠ some l.tail := by
      rw [first]
      intro same
      exact absurd (Option.some.inj same) (Nat.ne_of_lt inside)
    refine iff_of_true ⟨ok.count, fuel, _, l', ran, kept, ?_⟩ other
    rw [first]
    exact ⟨rfl, erased⟩
  · have last : r = l.tail := Nat.le_antisymm found.inside (Nat.le_of_not_lt inside)
    rw [if_neg inside] at ran
    have unchanged : l'.liveNodes = l.liveNodes :=
      liveNodes_same tail fun a => by simp only [marked a, inside, false_and, or_false]
    rw [last] at first
    split at first
    · -- the tail has the data: remove returns 0 all the same
      apply iff_of_false
      · intro meaning
        obtain ⟨fuel', reply, m, ran', _, outcome⟩ := meaning.returns
        rw [first] at outcome
        cases runThread_unique ran ran'
        cases outcome.1
      · exact fun other => other first
    · rw [first]
      refine iff_of_true ⟨ok.count, fuel, _, l', ran, kept, ?_⟩ (Option.some_ne_none _).symm
      rw [first]
      exact ⟨rfl, unchanged⟩

/-- A list after its first append. -/
def oneNode : LfList := ((LfList.new.setTail 5).setNext LfList.head (.ofNode 1)).setCount 1

theorem built_oneNode : Built oneNode := by
  have allowed : (ListCall.append 5).Allowed := trivial
  have ran : runThread 3 (ListCall.append 5).begin .new = some (.done, oneNode) := rfl
  exact .call .new allowed ran

/-- A second append. -/
def twoNodes : LfList := ((oneNode.setTail 7).setNext 1 (.ofNode 2)).setCount 2

theorem built_twoNodes : Built twoNodes := by
  have allowed : (ListCall.append 7).Allowed := trivial
  have ran : runThread 3 (ListCall.append 7).begin oneNode = some (.done, twoNodes) := rfl
  exact .call built_oneNode allowed ran

theorem remove_meaning_first : RemoveMeaning twoNodes 5 := by
  apply (remove_meaning twoNodes built_twoNodes (by decide) 5 (by decide)).mpr
  decide

/-- remove does not find the node of a list of one. -/
theorem remove_meaning_last : Built oneNode ∧ 0 < oneNode.tail ∧ ¬ RemoveMeaning oneNode 5 := by
  refine ⟨built_oneNode, by decide, fun meaning => ?_⟩
  obtain ⟨fuel, reply, l', ran, _, outcome⟩ := meaning.returns
  have first : oneNode.firstLive 5 = some 1 := by decide
  rw [first] at outcome
  have code : runThread 5 (ListCall.remove 5).begin oneNode = some (.code 0, oneNode) := rfl
  cases runThread_unique code ran
  cases outcome.1

/-- What search with a null left node and remove are to do: they return, and meet neither
a null left node nor a pointer that is not to a node on their way. -/
structure CallSafe (l : LfList) (request : ListCall) : Prop where
  returns : ∃ fuel reply l', runThread fuel request.begin l = some (reply, l')
  pointers : ∀ pc l', LeadsTo (request.begin, l) (pc, l') →
    pc ≠ .fault ∧ ∀ a ∈ pc.nodes, a ≤ l'.tail

def CallsSafe (l : LfList) (data : Nat) : Prop :=
  CallSafe l (.search data none) ∧ CallSafe l (.remove data)

/-- On a list built by any calls, search and remove are safe exactly when something has been
appended and the data is not `0`. -/
theorem calls_safe (l : LfList) (built : Built l) (data : Nat) :
    CallsSafe l data ↔ 0 < l.tail ∧ data ≠ 0 := by
  have ok := built.alone
  constructor
  · intro ⟨search, _⟩
    have key : data ≠ 0 := by
      intro zero
      subst zero
      exact (search.pointers .fault l (leads_fault ok.list false)).1 rfl
    refine ⟨Nat.pos_of_ne_zero fun empty => ?_, key⟩
    obtain ⟨fuel, reply, l', ran⟩ := search.returns
    have spins : (ListCall.search data none).begin.Spins := key
    cases (runThread_spins ok.list empty spins fuel).symm.trans ran
  · intro ⟨nonempty, key⟩
    have pointers : ∀ removing pc l',
        LeadsTo (.readHead ⟨data, removing, none, .null⟩, l) (pc, l') →
        pc ≠ .fault ∧ ∀ a ∈ pc.nodes, a ≤ l'.tail := by
      intro removing pc l' leads
      have here : (ListPc.readHead ⟨data, removing, none, .null⟩).Ok l := key
      have after := (ok_of_leads ok.list here leads).2
      refine ⟨?_, after.nodes_le⟩
      intro fault
      subst fault
      exact after
    constructor
    · refine ⟨?_, pointers false⟩
      have sought : (SearchVars.mk data false none .null).data ≠ 0 := key
      obtain ⟨vars, r, l', leads, _, removing, _⟩ := ok.search sought nonempty
      have back : vars.return r = .ready (.node r) := by
        unfold SearchVars.return
        rw [removing]
        rfl
      rw [back] at leads
      obtain ⟨fuel, ran⟩ := runThread_of_leads leads
      exact ⟨fuel, _, l', ran⟩
    · refine ⟨?_, pointers true⟩
      obtain ⟨r, l', leads, _⟩ := ok.remove key nonempty
      obtain ⟨fuel, ran⟩ := runThread_of_leads leads
      exact ⟨fuel, _, l', ran⟩

theorem calls_safe_two : 0 < twoNodes.tail ∧ CallsSafe twoNodes 7 :=
  ⟨by decide, (calls_safe twoNodes built_twoNodes 7).mpr ⟨by decide, by decide⟩⟩

/-- A search on the empty list does not return, one for `0` swaps through its null left
node. -/
theorem calls_safe_not :
    (Built .new ∧ ¬ CallsSafe .new 1) ∧ Built oneNode ∧ ¬ CallsSafe oneNode 0 := by
  refine ⟨⟨.new, fun safe => ?_⟩, built_oneNode, fun safe => ?_⟩
  · obtain ⟨fuel, reply, l', ran⟩ := safe.1.returns
    have spins : (ListCall.search 1 none).begin.Spins := Nat.one_ne_zero
    cases (runThread_spins Built.new.alone.list rfl spins fuel).symm.trans ran
  · have fault := leads_fault built_oneNode.alone.list false
    exact (safe.1.pointers .fault oneNode fault).1 rfl

/-- What the destructor is to do. -/
def DestroysLinked (l : LfList) : Prop :=
  ∃ fuel nodes, deleteNodes l fuel (l.next LfList.head) = some nodes ∧ nodes.Nodup ∧
    ∀ a, a ∈ nodes ↔ a ≠ LfList.head ∧ Follows l.link LfList.head a

/-- The destructor deletes each linked node once exactly when none of them is marked. -/
theorem destroys_linked (l : LfList) (built : Built l) :
    DestroysLinked l ↔ ∀ a, Follows l.link LfList.head a → ¬ l.Marked a := by
  constructor
  · intro ⟨fuel, nodes, ran, _⟩ a follows
    exact unmarked_of_deleteNodes ran follows
  · intro unmarked
    exact built.alone.list.deleteNodes unmarked

/-- `5` has been removed, its node is still linked. -/
def markedNode : LfList := (twoNodes.setNext 1 (NextWord.ofNode 2).setMark).setCount 1

theorem built_markedNode : Built markedNode := by
  have allowed : (ListCall.remove 5).Allowed := trivial
  have ran : runThread 11 (ListCall.remove 5).begin twoNodes = some (.code 1, markedNode) := rfl
  exact .call built_twoNodes allowed ran

/-- A search has unlinked it. -/
def sweptNode : LfList := markedNode.setNext LfList.head (.ofNode 2)

theorem built_sweptNode : Built sweptNode := by
  have allowed : (ListCall.search 7 none).Allowed := Nat.succ_ne_zero 6
  have ran : runThread 8 (ListCall.search 7 none).begin markedNode =
    some (.node 2, sweptNode) := rfl
  exact .call built_markedNode allowed ran

theorem follows_sweptNode {a : Nat} (follows : Follows sweptNode.link LfList.head a) :
    a = 0 ∨ a = 2 := by
  induction follows with
  | refl => exact Or.inl rfl
  | tail _ linked ih =>
    rcases ih with rfl | rfl
    · cases linked
      exact Or.inr rfl
    · cases linked

theorem destroys_linked_swept : sweptNode.Marked 1 ∧ DestroysLinked sweptNode := by
  refine ⟨rfl, (destroys_linked sweptNode built_sweptNode).mpr fun a follows => ?_⟩
  rcases follows_sweptNode follows with rfl | rfl
  · decide
  · decide

/-- The destructor follows a word with its mark. -/
theorem destroys_linked_marked : Built markedNode ∧ ¬ DestroysLinked markedNode := by
  refine ⟨built_markedNode, fun destroys => ?_⟩
  obtain ⟨fuel, nodes, ran, _⟩ := destroys
  have linked : Follows markedNode.link LfList.head 1 := .head rfl .refl
  exact unmarked_of_deleteNodes ran linked rfl

end BurstBuffer.Guarantees
