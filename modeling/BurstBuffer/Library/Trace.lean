import BurstBuffer.Library.Machine

/-!
# What runs show

Each step of a machine may show something. Another machine follows it if it can show the
same, step by step and so run by run.
-/
namespace BurstBuffer.Library

universe u v w

namespace Machine

section Trace

variable {σ : Type u} {ε : Type v} {κ : Type w} {M : Machine σ ε} {label : σ → ε → List κ}

/-- What a run shows, step by step. -/
def trace (M : Machine σ ε) (label : σ → ε → List κ) : σ → List ε → List κ
  | _, [] => []
  | s, e :: es => label s e ++ (M.next s e).elim [] fun t => M.trace label t es

/-- Some run from `s` to `t` shows exactly `l`. -/
def Shows (M : Machine σ ε) (label : σ → ε → List κ) (s : σ) (l : List κ) (t : σ) : Prop :=
  ∃ es, M.run s es = some t ∧ M.trace label s es = l

theorem run_append (s : σ) (es fs : List ε) :
    M.run s (es ++ fs) = (M.run s es).bind fun t => M.run t fs := by
  induction es generalizing s with
  | nil => rfl
  | cons e es ih =>
    simp only [List.cons_append, run]
    cases M.next s e with
    | none => rfl
    | some t => exact ih t

theorem run_trans {s t u : σ} {es fs : List ε} (first : M.run s es = some t)
    (second : M.run t fs = some u) : M.run s (es ++ fs) = some u := by
  rw [run_append, first]
  exact second

theorem trace_append {s t : σ} {es : List ε} (steps : M.run s es = some t) (fs : List ε) :
    M.trace label s (es ++ fs) = M.trace label s es ++ M.trace label t fs := by
  induction es generalizing s with
  | nil =>
    cases steps
    rfl
  | cons e es ih =>
    obtain ⟨u, first, rest⟩ := Option.bind_eq_some_iff.mp steps
    simp only [List.cons_append, trace, first, Option.elim_some, ih rest, List.append_assoc]

theorem Shows.refl (s : σ) : M.Shows label s [] s := ⟨[], rfl, rfl⟩

theorem Shows.step {s t : σ} {e : ε} (step : M.next s e = some t) :
    M.Shows label s (label s e) t :=
  ⟨[e], by simp [run, step], by simp [trace, step]⟩

theorem Shows.trans {s t u : σ} {l m : List κ} (first : M.Shows label s l t)
    (second : M.Shows label t m u) : M.Shows label s (l ++ m) u := by
  obtain ⟨es, steps, rfl⟩ := first
  obtain ⟨fs, steps', rfl⟩ := second
  exact ⟨es ++ fs, run_trans steps steps', trace_append steps fs⟩

/-- When one machine can show each step of another one, it can show its runs. -/
theorem trace_simulates {σ' ε' : Type*} {M' : Machine σ' ε'} {label' : σ' → ε' → List κ}
    {R : σ → σ' → Prop}
    (follow : ∀ s s' e t, R s s' → M.next s e = some t →
      ∃ t', M'.Shows label' s' (label s e) t' ∧ R t t')
    {s t : σ} {s' : σ'} {es : List ε} (related : R s s') (steps : M.run s es = some t) :
    ∃ t', M'.Shows label' s' (M.trace label s es) t' ∧ R t t' := by
  induction es generalizing s s' with
  | nil =>
    cases steps
    exact ⟨s', .refl s', related⟩
  | cons e es ih =>
    obtain ⟨u, first, rest⟩ := Option.bind_eq_some_iff.mp steps
    obtain ⟨u', shown, middle⟩ := follow s s' e u related first
    obtain ⟨t', shown', last⟩ := ih middle rest
    refine ⟨t', ?_, last⟩
    simp only [trace, first, Option.elim_some]
    exact shown.trans shown'

variable {guard : σ → ε → Prop}

/-- A run from `s` to `t` by steps that all meet a guard shows `l`. -/
inductive ShowsBy (M : Machine σ ε) (guard : σ → ε → Prop) (label : σ → ε → List κ) (s : σ) :
    List κ → σ → Prop where
  | refl : ShowsBy M guard label s [] s
  | step {l : List κ} {t u : σ} {e : ε} : ShowsBy M guard label s l t → guard t e →
      M.next t e = some u → ShowsBy M guard label s (l ++ label t e) u

theorem ShowsBy.single {s t : σ} {e : ε} (allowed : guard s e) (step : M.next s e = some t) :
    M.ShowsBy guard label s (label s e) t :=
  .step (l := []) .refl allowed step

theorem ShowsBy.trans {s t u : σ} {l m : List κ} (first : M.ShowsBy guard label s l t)
    (second : M.ShowsBy guard label t m u) : M.ShowsBy guard label s (l ++ m) u := by
  induction second with
  | refl =>
    rw [List.append_nil]
    exact first
  | step _ allowed step ih =>
    rw [← List.append_assoc]
    exact ih.step allowed step

theorem ShowsBy.mono {guard' : σ → ε → Prop} (weaker : ∀ s e, guard s e → guard' s e) {s t : σ}
    {l : List κ} (shown : M.ShowsBy guard label s l t) : M.ShowsBy guard' label s l t := by
  induction shown with
  | refl => exact .refl
  | step _ allowed step ih => exact ih.step (weaker _ _ allowed) step

/-- A run is allowed throughout if an invariant allows each of its events. -/
theorem ShowsBy.run_while {I : σ → Prop} {s t : σ} {es : List ε}
    (keep : ∀ u e v, I u → e ∈ es → M.next u e = some v → guard u e ∧ I v) (before : I s)
    (steps : M.run s es = some t) : M.ShowsBy guard label s (M.trace label s es) t ∧ I t := by
  induction es generalizing s with
  | nil =>
    cases steps
    exact ⟨.refl, before⟩
  | cons e es ih =>
    obtain ⟨u, first, rest⟩ := Option.bind_eq_some_iff.mp steps
    obtain ⟨allowed, middle⟩ := keep s e u before List.mem_cons_self first
    obtain ⟨later, after⟩ := ih
      (fun u f v holds member => keep u f v holds (List.mem_cons_of_mem e member)) middle rest
    simp only [trace, first, Option.elim_some]
    exact ⟨(ShowsBy.single allowed first).trans later, after⟩

theorem ShowsBy.append {s t u : σ} {es fs : List ε} (steps : M.run s es = some t)
    (first : M.ShowsBy guard label s (M.trace label s es) t)
    (second : M.ShowsBy guard label t (M.trace label t fs) u) :
    M.ShowsBy guard label s (M.trace label s (es ++ fs)) u := by
  rw [trace_append steps]
  exact first.trans second

/-- When another machine can show each allowed step, it can show each allowed run. -/
theorem ShowsBy.simulates {σ' ε' : Type*} {M' : Machine σ' ε'} {label' : σ' → ε' → List κ}
    {R : σ → σ' → Prop}
    (follow : ∀ s s' e t, R s s' → guard s e → M.next s e = some t →
      ∃ t', M'.Shows label' s' (label s e) t' ∧ R t t')
    {s t : σ} {s' : σ'} {l : List κ} (related : R s s') (shown : M.ShowsBy guard label s l t) :
    ∃ t', M'.Shows label' s' l t' ∧ R t t' := by
  induction shown with
  | refl => exact ⟨s', .refl s', related⟩
  | step _ allowed step ih =>
    obtain ⟨u', before, middle⟩ := ih
    obtain ⟨t', shown', last⟩ := follow _ u' _ _ middle allowed step
    exact ⟨t', before.trans shown', last⟩

end Trace

end Machine

end BurstBuffer.Library
