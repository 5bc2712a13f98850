import BurstBuffer.Library.Trace

/-!
# Atomic objects

An atomic object performs each call in one step between the call and its return. A machine
whose calls and returns are always those of an atomic object can be used as that object.
-/
namespace BurstBuffer.Library

/-- A call on an object, or a return from one. -/
inductive Visible (τ ω ρ : Type) where
  | call (thread : τ) (op : ω)
  | ret (thread : τ) (result : ρ)
  deriving DecidableEq

/-- Where a thread is: outside, in a call that has had no effect yet, or in one that has
been performed. -/
inductive CallStatus (ω ρ : Type) where
  | idle
  | called (op : ω)
  | done (result : ρ)

structure ObjectState (κ τ ω ρ : Type) where
  content : κ
  status : τ → CallStatus ω ρ

inductive ObjectEvent (τ ω : Type) where
  | call (thread : τ) (op : ω)
  | perform (thread : τ)
  | ret (thread : τ)

section Object

variable {κ τ ω ρ : Type} [DecidableEq τ] {apply : ω → κ → Option (ρ × κ)}

/-- A call that cannot be performed on the content waits. -/
def objectNext (apply : ω → κ → Option (ρ × κ)) (s : ObjectState κ τ ω ρ) :
    ObjectEvent τ ω → Option (ObjectState κ τ ω ρ)
  | .call θ op =>
    match s.status θ with
    | .idle => some { s with status := Function.update s.status θ (.called op) }
    | _ => none
  | .perform θ =>
    match s.status θ with
    | .called op => (apply op s.content).map fun (result, content) =>
      { content := content, status := Function.update s.status θ (.done result) }
    | _ => none
  | .ret θ =>
    match s.status θ with
    | .done _ => some { s with status := Function.update s.status θ .idle }
    | _ => none

/-- Performing a call shows nothing. -/
def objectLabel (s : ObjectState κ τ ω ρ) : ObjectEvent τ ω → List (Visible τ ω ρ)
  | .call θ op => [.call θ op]
  | .perform _ => []
  | .ret θ =>
    match s.status θ with
    | .done result => [.ret θ result]
    | _ => []

/-- The object with content `content` at first. -/
def atomicObject (τ : Type) [DecidableEq τ] (apply : ω → κ → Option (ρ × κ)) (content : κ) :
    Machine (ObjectState κ τ ω ρ) (ObjectEvent τ ω) where
  init s := s = ⟨content, fun _ => .idle⟩
  next := objectNext apply

variable {content : κ} {start s : ObjectState κ τ ω ρ} {l : List (Visible τ ω ρ)} {θ : τ}

/-- A run goes on with a call. -/
theorem shows_call (shown : (atomicObject τ apply content).Shows objectLabel start l s) (op : ω)
    (idle : s.status θ = .idle) :
    (atomicObject τ apply content).Shows objectLabel start (l ++ [.call θ op])
      ⟨s.content, Function.update s.status θ (.called op)⟩ := by
  refine shown.trans ⟨[.call θ op], ?_, ?_⟩
  · simp [Machine.run, atomicObject, objectNext, idle]
  · simp [Machine.trace, atomicObject, objectNext, objectLabel, idle]

theorem shows_perform (shown : (atomicObject τ apply content).Shows objectLabel start l s) {op : ω}
    {result : ρ} {after : κ} (called : s.status θ = .called op)
    (applied : apply op s.content = some (result, after)) :
    (atomicObject τ apply content).Shows objectLabel start l
      ⟨after, Function.update s.status θ (.done result)⟩ := by
  rw [← List.append_nil l]
  refine shown.trans ⟨[.perform θ], ?_, ?_⟩
  · simp [Machine.run, atomicObject, objectNext, called, applied]
  · simp [Machine.trace, atomicObject, objectNext, objectLabel, called, applied]

theorem shows_ret (shown : (atomicObject τ apply content).Shows objectLabel start l s) {result : ρ}
    (done : s.status θ = .done result) :
    (atomicObject τ apply content).Shows objectLabel start (l ++ [.ret θ result])
      ⟨s.content, Function.update s.status θ .idle⟩ := by
  refine shown.trans ⟨[.ret θ], ?_, ?_⟩
  · simp [Machine.run, atomicObject, objectNext, done]
  · simp [Machine.trace, atomicObject, objectNext, objectLabel, done]

end Object

end BurstBuffer.Library
