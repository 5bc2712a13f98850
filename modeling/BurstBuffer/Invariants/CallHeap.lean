import BurstBuffer.Invariants.Nodes
import BurstBuffer.Source.Calls

/-!
# The hash nodes of concurrent calls

What the calls and the balloon threads read of the tables, the nodes and the
inodes' keys, all but the mutexes: `HeapView`. While nobody replaces a node in a
table, a node stays under its key for ever, and the inode it points to carries
that key.
-/
namespace BurstBuffer.Source

structure HeapView (N : Nat) where
  nodeAt : VolumeIdx → Nat → Option NodePtr
  inode : NodePtr → Option (InodeIdx N)
  valid : NodePtr → Bool
  next : NodePtr
  volume : InodeIdx N → Option VolumeIdx
  lbn : InodeIdx N → Nat

namespace HeapView

variable {N : Nat}

/-- `p` is the node under the key stored in inode `i`. -/
def Keyed (h : HeapView N) (i : InodeIdx N) (p : NodePtr) : Prop :=
  ∃ v, h.volume i = some v ∧ h.nodeAt v (h.lbn i) = some p

/-- What a search that finds no valid node has found. -/
def Missing (h : HeapView N) (c : Call) (found : Option NodePtr) : Prop :=
  h.nodeAt c.volume c.lbn = found ∧ ∀ p, found = some p → h.inode p = none

def insert (h : HeapView N) (v : VolumeIdx) (i : InodeIdx N) : HeapView N :=
  { h with
    nodeAt := fun w l => if w = v ∧ l = h.lbn i then some h.next else h.nodeAt w l
    inode := Function.update h.inode h.next (some i)
    valid := Function.update h.valid h.next true
    next := h.next + 1 }

def point (h : HeapView N) (p : NodePtr) (inode : Option (InodeIdx N)) : HeapView N :=
  { h with
    inode := Function.update h.inode p inode
    valid := Function.update h.valid p inode.isSome }

def rekey (h : HeapView N) (i : InodeIdx N) (v : VolumeIdx) (lbn : Nat) : HeapView N :=
  { h with
    volume := Function.update h.volume i (some v)
    lbn := Function.update h.lbn i lbn }

end HeapView

structure HeapOk {N : Nat} (h : HeapView N) : Prop where
  valid : ∀ p, h.valid p = (h.inode p).isSome
  bound : ∀ p i, h.inode p = some i → h.Keyed i p
  owner : ∀ v w l m p, h.nodeAt v l = some p → h.nodeAt w m = some p → v = w ∧ l = m
  allocated : ∀ v l p, h.nodeAt v l = some p → p < h.next

namespace HeapOk

variable {N : Nat} {h : HeapView N}

/-- An inode has at most one node. -/
theorem unique (ok : HeapOk h) {i : InodeIdx N} {p q : NodePtr} (first : h.inode p = some i)
    (second : h.inode q = some i) : p = q := by
  obtain ⟨v, volume, found⟩ := ok.bound p i first
  obtain ⟨w, volume', found'⟩ := ok.bound q i second
  rw [volume] at volume'
  cases volume'
  rw [found] at found'
  exact Option.some.inj found'

/-- The inode of the node under a key carries this key. -/
theorem key (ok : HeapOk h) {v : VolumeIdx} {l : Nat} {p : NodePtr} {i : InodeIdx N}
    (found : h.nodeAt v l = some p) (points : h.inode p = some i) :
    h.volume i = some v ∧ h.lbn i = l := by
  obtain ⟨w, volume, found'⟩ := ok.bound p i points
  obtain ⟨rfl, rfl⟩ := ok.owner w v _ l p found' found
  exact ⟨volume, rfl⟩

theorem unallocated (ok : HeapOk h) : h.inode h.next = none := by
  cases points : h.inode h.next with
  | none => rfl
  | some i =>
    obtain ⟨v, _, found⟩ := ok.bound h.next i points
    exact absurd (ok.allocated v _ _ found) (Nat.lt_irrefl _)

/-- A new node under a key that had none. -/
theorem insert (ok : HeapOk h) {v : VolumeIdx} {i : InodeIdx N} (volume : h.volume i = some v)
    (absent : h.nodeAt v (h.lbn i) = none) : HeapOk (h.insert v i) := by
  have kept : ∀ w l p, h.nodeAt w l = some p → (h.insert v i).nodeAt w l = some p := by
    intro w l p found
    simp only [HeapView.insert]
    rw [if_neg, found]
    rintro ⟨rfl, rfl⟩
    rw [absent] at found
    cases found
  have cases_of : ∀ w l p, (h.insert v i).nodeAt w l = some p →
      (p = h.next ∧ w = v ∧ l = h.lbn i) ∨ h.nodeAt w l = some p := by
    intro w l p found
    simp only [HeapView.insert] at found
    split at found
    · rename_i here
      cases found
      exact .inl ⟨rfl, here⟩
    · exact .inr found
  constructor
  · intro p
    by_cases here : p = h.next
    · subst p
      simp [HeapView.insert]
    · simpa [HeapView.insert, here] using ok.valid p
  · intro p j points
    by_cases here : p = h.next
    · subst p
      have same : i = j := by simpa [HeapView.insert] using points
      subst j
      exact ⟨v, volume, by simp [HeapView.insert]⟩
    · have old : h.inode p = some j := by simpa [HeapView.insert, here] using points
      obtain ⟨w, carried, found⟩ := ok.bound p j old
      exact ⟨w, carried, kept w _ p found⟩
  · intro w x l m p first second
    rcases cases_of w l p first with ⟨fresh, here⟩ | old <;>
      rcases cases_of x m p second with ⟨fresh', here'⟩ | old'
    · exact ⟨here.1.trans here'.1.symm, here.2.trans here'.2.symm⟩
    · exact absurd (fresh ▸ ok.allocated x m p old') (Nat.lt_irrefl _)
    · exact absurd (fresh' ▸ ok.allocated w l p old) (Nat.lt_irrefl _)
    · exact ok.owner w x l m p old old'
  · intro w l p found
    rcases cases_of w l p found with ⟨fresh, _⟩ | old
    · exact fresh ▸ Nat.lt_succ_self _
    · exact Nat.lt_succ_of_lt (ok.allocated w l p old)

/-- A node is made to point to an inode that carries the node's key, or to none. -/
theorem point (ok : HeapOk h) {p : NodePtr} {inode : Option (InodeIdx N)}
    (keyed : ∀ i, inode = some i → h.Keyed i p) : HeapOk (h.point p inode) := by
  constructor
  · intro q
    by_cases here : q = p
    · subst q
      simp [HeapView.point]
    · simpa [HeapView.point, here] using ok.valid q
  · intro q i points
    by_cases here : q = p
    · subst q
      exact keyed i (by simpa [HeapView.point] using points)
    · exact ok.bound q i (by simpa [HeapView.point, here] using points)
  · exact ok.owner
  · exact ok.allocated

/-- An inode that no node points to may take any key. -/
theorem rekey (ok : HeapOk h) {i : InodeIdx N} (v : VolumeIdx) (lbn : Nat)
    (unbound : ∀ p, h.inode p ≠ some i) : HeapOk (h.rekey i v lbn) := by
  constructor
  · exact ok.valid
  · intro p j points
    obtain ⟨w, volume, found⟩ := ok.bound p j points
    have other : j ≠ i := by
      rintro rfl
      exact unbound p points
    exact ⟨w, by simpa [HeapView.rekey, other] using volume,
      by simpa [HeapView.rekey, other] using found⟩
  · exact ok.owner
  · exact ok.allocated

end HeapOk

namespace CallState

variable {C : CuckoohashMap} {W : Type} {N S : Nat}

def view (s : CallState C W N S) : HeapView N where
  nodeAt := s.nodeAt
  inode p := (s.node p).inode
  valid p := (s.node p).isValid
  next := s.nextNode
  volume := s.volume
  lbn := s.lbn

theorem view_setMutex (s : CallState C W N S) (p : NodePtr) (locked : Bool) :
    (s.setMutex p locked).view = s.view := by
  unfold view setMutex
  congr 1
  all_goals
    funext q
    by_cases here : q = p <;> simp [here]

theorem setMutex_mutex (s : CallState C W N S) (p : NodePtr) (locked : Bool) (q : NodePtr) :
    ((s.setMutex p locked).node q).mutex = if q = p then locked else (s.node q).mutex := by
  unfold setMutex
  by_cases here : q = p <;> simp [here]

theorem view_insertNode (s : CallState C W N S) (v : VolumeIdx) (i : InodeIdx N) :
    (s.insertNode v i).view = s.view.insert v i := by
  unfold view insertNode HeapView.insert
  congr 1
  · funext w l
    by_cases same : w = v
    · subst w
      simp [nodeAt, searchHashNode, C.find_store]
    · simp [nodeAt, same]
  all_goals
    funext q
    by_cases here : q = s.nextNode <;> simp [here]

theorem insertNode_mutex (s : CallState C W N S) (v : VolumeIdx) (i : InodeIdx N) (q : NodePtr) :
    ((s.insertNode v i).node q).mutex = if q = s.nextNode then false else (s.node q).mutex := by
  unfold insertNode
  by_cases here : q = s.nextNode <;> simp [here]

theorem view_validateNode (s : CallState C W N S) (p : NodePtr) (i : InodeIdx N) :
    (s.validateNode p i).view = s.view.point p (some i) := by
  unfold view validateNode HeapView.point
  congr 1
  all_goals
    funext q
    by_cases here : q = p <;> simp [here]

theorem validateNode_mutex (s : CallState C W N S) (p : NodePtr) (i : InodeIdx N) (q : NodePtr) :
    ((s.validateNode p i).node q).mutex = (s.node q).mutex := by
  unfold validateNode
  by_cases here : q = p <;> simp [here]

theorem view_deleteNode (s : CallState C W N S) (v : VolumeIdx) (p : NodePtr) :
    (s.deleteNode v p).view = s.view.point p none := by
  have payload := pushBackListNode_payload
    (Function.update s.node p { s.node p with inode := none, isValid := false })
    (s.table v).invalidList p
  unfold view deleteNode HeapView.point
  congr 1
  · funext w l
    by_cases same : w = v
    · subst w
      simp [nodeAt, searchHashNode]
    · simp [nodeAt, same]
  · funext q
    rw [(payload q).2.1]
    by_cases here : q = p <;> simp [here]
  · funext q
    rw [(payload q).1]
    by_cases here : q = p <;> simp [here]

theorem deleteNode_mutex (s : CallState C W N S) (v : VolumeIdx) (p q : NodePtr) :
    ((s.deleteNode v p).node q).mutex = (s.node q).mutex := by
  unfold deleteNode
  rw [(pushBackListNode_payload _ _ p q).2.2]
  by_cases here : q = p <;> simp [here]

end CallState

end BurstBuffer.Source
