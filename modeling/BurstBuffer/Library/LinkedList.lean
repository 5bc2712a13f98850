import Mathlib.Data.List.Nodup

/-!
# Doubly linked lists

What it means that links lead through a list of nodes, for a heap whose links are
functions from nodes to nodes, and what pushing a node at the back does to the
two chains of a doubly linked list.
-/
namespace BurstBuffer.Library

universe u

variable {α : Type u}

/-- From `start` the links lead through the nodes of the list to `stop`. -/
def Leads (link : α → Option α) : Option α → List α → Option α → Prop
  | start, [], stop => start = stop
  | start, a :: rest, stop => start = some a ∧ Leads link (link a) rest stop

/-- The nodes visited by following the links to the null link, in at most so many steps. -/
def walk (link : α → Option α) : Option α → Nat → Option (List α)
  | none, _ => some []
  | some _, 0 => none
  | some a, steps + 1 => (walk link (link a) steps).map (a :: ·)

namespace Leads

variable {link link' : α → Option α} {start middle stop : Option α} {front back l : List α} {a : α}

theorem append (first : Leads link start front middle) (second : Leads link middle back stop) :
    Leads link start (front ++ back) stop := by
  induction front generalizing start with
  | nil =>
    cases first
    exact second
  | cons a front ih => exact ⟨first.1, ih first.2⟩

theorem split (whole : Leads link start (front ++ a :: back) stop) :
    Leads link start front (some a) ∧ Leads link (link a) back stop := by
  induction front generalizing start with
  | nil => exact whole
  | cons b front ih =>
    obtain ⟨first, second⟩ := ih whole.2
    exact ⟨⟨whole.1, first⟩, second⟩

/-- Only the links of the nodes in the list matter. -/
theorem congr (same : ∀ a ∈ l, link' a = link a) (leads : Leads link start l stop) :
    Leads link' start l stop := by
  induction l generalizing start with
  | nil => exact leads
  | cons a l ih =>
    refine ⟨leads.1, ?_⟩
    rw [same a List.mem_cons_self]
    exact ih (fun b member => same b (List.mem_cons_of_mem a member)) leads.2

/-- A chain determines its nodes. -/
theorem unique {l' : List α} (leads : Leads link start l none) (leads' : Leads link start l' none) :
    l = l' := by
  induction l generalizing start l' with
  | nil =>
    cases leads
    cases l' with
    | nil => rfl
    | cons _ _ => cases leads'.1
  | cons a l ih =>
    cases l' with
    | nil =>
      cases leads'
      cases leads.1
    | cons b l' =>
      have same : some a = some b := leads.1.symm.trans leads'.1
      cases same
      rw [ih leads.2 leads'.2]

/-- A chain starts at its first node. -/
theorem start_eq (leads : Leads link start l none) : start = l.head? := by
  cases l with
  | nil => exact leads
  | cons a l => exact leads.1

/-- A walk along the chain visits its nodes and ends. -/
theorem walk_eq (leads : Leads link start l none) : walk link start l.length = some l := by
  induction l generalizing start with
  | nil =>
    cases leads
    rfl
  | cons a l ih =>
    obtain ⟨rfl, rest⟩ := leads
    simp only [List.length_cons, walk, ih rest, Option.map_some]

/-- The chain without the node `a`, when the node in front of it gets its link. -/
theorem cut [DecidableEq α] (whole : Leads link start (front ++ a :: back) none)
    (distinct : (front ++ back).Nodup)
    (links : ∀ c ∈ front ++ back, link' c = if front.getLast? = some c then link a else link c) :
    Leads link' (front ++ back).head? (front ++ back) none := by
  induction front generalizing start with
  | nil =>
    have rest := whole.2
    rw [List.nil_append, ← rest.start_eq]
    refine rest.congr fun c member => ?_
    rw [links c member, if_neg (by simp)]
  | cons b front ih =>
    obtain ⟨fresh, distinct'⟩ := List.nodup_cons.mp distinct
    have rest := whole.2
    have onward : link' b = (front ++ back).head? := by
      rw [links b List.mem_cons_self]
      cases front with
      | nil =>
        rw [if_pos List.getLast?_singleton]
        exact rest.2.start_eq
      | cons d front =>
        rw [if_neg, rest.start_eq]
        · rfl
        · rw [List.getLast?_cons_cons]
          intro last
          exact fresh (List.mem_append_left _ (List.mem_of_getLast? last))
    refine ⟨rfl, ?_⟩
    rw [onward]
    refine ih rest distinct' fun c member => ?_
    rw [links c (List.mem_cons_of_mem b member)]
    cases front with
    | nil =>
      have different : b ≠ c := by
        rintro rfl
        exact fresh member
      simp [different]
    | cons d front => rw [List.getLast?_cons_cons]

end Leads

/-- A list linked in both directions. -/
structure Linked (next prev : α → Option α) (head tail : Option α) (l : List α) : Prop where
  forward : Leads next head l none
  backward : Leads prev tail l.reverse none

namespace Linked

variable {next prev next' prev' : α → Option α} {head tail : Option α} {l : List α} {a : α}

theorem nil : Linked next prev none none [] := ⟨rfl, rfl⟩

theorem congr (same : ∀ a ∈ l, next' a = next a ∧ prev' a = prev a)
    (linked : Linked next prev head tail l) : Linked next' prev' head tail l where
  forward := linked.forward.congr fun a member => (same a member).1
  backward := linked.backward.congr fun a member => (same a (List.mem_reverse.mp member)).2

theorem eq_nil (linked : Linked next prev head none l) : l = [] ∧ head = none := by
  cases reversed : l.reverse with
  | nil =>
    have empty := List.reverse_eq_nil_iff.mp reversed
    subst empty
    exact ⟨rfl, linked.forward⟩
  | cons b rest =>
    have backward := linked.backward
    rw [reversed] at backward
    cases backward.1

theorem eq_concat {b : α} (linked : Linked next prev head (some b) l) :
    ∃ front, l = front ++ [b] := by
  cases reversed : l.reverse with
  | nil =>
    have backward := linked.backward
    rw [reversed] at backward
    cases backward
  | cons c rest =>
    have backward := linked.backward
    rw [reversed] at backward
    cases backward.1
    exact ⟨rest.reverse, by rw [← List.reverse_reverse l, reversed, List.reverse_cons]⟩

/-- The same list from the other end. -/
theorem swap (linked : Linked next prev head tail l) : Linked prev next tail head l.reverse where
  forward := linked.backward
  backward := by
    rw [List.reverse_reverse]
    exact linked.forward

theorem head_eq (linked : Linked next prev head tail l) : head = l.head? := linked.forward.start_eq

theorem tail_eq (linked : Linked next prev head tail l) : tail = l.getLast? := by
  rw [linked.backward.start_eq, List.head?_reverse]

section Inner

variable {front back : List α}

theorem reverse_middle : (front ++ a :: back).reverse = back.reverse ++ a :: front.reverse := by
  rw [List.reverse_append, List.reverse_cons, List.append_assoc, List.singleton_append]

theorem next_eq (linked : Linked next prev head tail (front ++ a :: back)) :
    next a = back.head? := linked.forward.split.2.start_eq

theorem prev_eq (linked : Linked next prev head tail (front ++ a :: back)) :
    prev a = front.getLast? := by
  have swapped := linked.swap
  rw [reverse_middle] at swapped
  rw [swapped.next_eq, List.head?_reverse]

/-- A node is the first one if and only if no other is in front of it. -/
theorem first_iff (linked : Linked next prev head tail (front ++ a :: back))
    (distinct : (front ++ a :: back).Nodup) : some a = head ↔ front = [] := by
  rw [linked.head_eq]
  cases front with
  | nil => simp
  | cons b front =>
    have different : a ≠ b := by
      rintro rfl
      exact (List.nodup_cons.mp distinct).1 (List.mem_append_right _ List.mem_cons_self)
    simp [different]

theorem last_iff (linked : Linked next prev head tail (front ++ a :: back))
    (distinct : (front ++ a :: back).Nodup) : some a = tail ↔ back = [] := by
  have swapped := linked.swap
  have distinct' := List.nodup_reverse.mpr distinct
  rw [reverse_middle] at swapped distinct'
  rw [swapped.first_iff distinct', List.reverse_eq_nil_iff]

/-- Taking the node `a` out: its neighbours are linked to each other. -/
theorem cut [DecidableEq α] (linked : Linked next prev head tail (front ++ a :: back))
    (distinct : (front ++ back).Nodup)
    (nexts : ∀ c ∈ front ++ back, next' c = if front.getLast? = some c then back.head? else next c)
    (prevs : ∀ c ∈ front ++ back,
      prev' c = if back.head? = some c then front.getLast? else prev c) :
    Linked next' prev' (front ++ back).head? (front ++ back).getLast? (front ++ back) := by
  constructor
  · refine linked.forward.cut distinct fun c member => ?_
    rw [linked.next_eq]
    exact nexts c member
  · have backward := linked.backward
    rw [reverse_middle] at backward
    rw [← List.head?_reverse, List.reverse_append]
    refine backward.cut ?_ fun c member => ?_
    · rw [← List.reverse_append]
      exact List.nodup_reverse.mpr distinct
    · rw [List.getLast?_reverse, linked.prev_eq]
      rw [← List.reverse_append, List.mem_reverse] at member
      exact prevs c member

end Inner

/-- Pushing a node at the back of an empty list. -/
theorem push_first (last : next' a = none) (first : prev' a = none) :
    Linked next' prev' (some a) (some a) [a] :=
  ⟨⟨rfl, last⟩, ⟨rfl, first⟩⟩

/-- Pushing a new node behind the last node `b` of a list without repetitions. -/
theorem push {b : α} (linked : Linked next prev head (some b) l) (distinct : l.Nodup)
    (joined : next' b = some a) (last : next' a = none) (back : prev' a = some b)
    (nexts : ∀ c ∈ l, c ≠ b → next' c = next c) (prevs : ∀ c ∈ l, prev' c = prev c) :
    Linked next' prev' head (some a) (l ++ [a]) := by
  obtain ⟨front, rfl⟩ := linked.eq_concat
  obtain ⟨before, _⟩ := linked.forward.split
  have fresh : b ∉ front := fun member =>
    List.disjoint_of_nodup_append distinct member List.mem_cons_self
  constructor
  · rw [List.append_assoc]
    refine (before.congr fun c member => ?_).append ⟨rfl, joined, last⟩
    refine nexts c (List.mem_append_left _ member) ?_
    rintro rfl
    exact fresh member
  · rw [List.reverse_append, List.reverse_singleton, List.singleton_append]
    refine ⟨rfl, ?_⟩
    rw [back]
    exact linked.backward.congr fun c member => prevs c (List.mem_reverse.mp member)

/-- Pushing a new node at the back of any list without repetitions. -/
theorem append [DecidableEq α] (linked : Linked next prev head tail l) (distinct : l.Nodup)
    (fresh : a ∉ l)
    (nexts : ∀ c, c = a ∨ c ∈ l → next' c =
      if c = a then none else if tail = some c then some a else next c)
    (prevs : ∀ c, c = a ∨ c ∈ l → prev' c = if c = a then tail else prev c) :
    Linked next' prev' (if tail = none then some a else head) (some a) (l ++ [a]) := by
  have last : next' a = none := by rw [nexts a (Or.inl rfl), if_pos rfl]
  have back : prev' a = tail := by rw [prevs a (Or.inl rfl), if_pos rfl]
  have other : ∀ {c}, c ∈ l → c ≠ a := by
    rintro c member rfl
    exact fresh member
  cases tail with
  | none =>
    obtain ⟨rfl, _⟩ := linked.eq_nil
    exact push_first last back
  | some b =>
    obtain ⟨front, same⟩ := linked.eq_concat
    have inside : b ∈ l := by
      rw [same]
      exact List.mem_append_right _ List.mem_cons_self
    rw [if_neg (by simp)]
    refine linked.push distinct ?_ last back (fun c member different => ?_) fun c member => ?_
    · rw [nexts b (Or.inr inside), if_neg (other inside), if_pos rfl]
    · rw [nexts c (Or.inr member), if_neg (other member), if_neg]
      rw [Option.some.injEq]
      exact Ne.symm different
    · rw [prevs c (Or.inr member), if_neg (other member)]

end Linked

end BurstBuffer.Library
