import Disassembly.Error

/-! Changes of a state that may fail. The state is given back in either case, so that it can
be asked what a failed change has left behind. -/
namespace Disassembly

/-- A change of a state `σ` with an answer `α`. -/
abbrev Edit (σ α : Type) := EStateM Error σ α

namespace Edit

variable {σ τ α ε : Type}

/-- Goes on with the value of a test, or fails with the error that `f` makes of its cause. -/
def require (f : ε → Error) : Except ε α → Edit σ α
  | .ok a => pure a
  | .error e => throw (f e)

/-- The state that a change leaves behind, whether or not it fails. -/
def after (edit : Edit σ α) (s : σ) : σ :=
  match edit s with
  | .ok _ t => t
  | .error _ t => t

/-- The answer of a change, or its error. -/
def answer (edit : Edit σ α) (s : σ) : Except Error α :=
  match edit s with
  | .ok a _ => .ok a
  | .error e _ => .error e

/-- Goes on with a value that must be there, or fails. -/
def demand (e : Error) : Option α → Edit σ α
  | some a => pure a
  | none => throw e

/-- Fails if there is an error. -/
def refuse : Option Error → Edit σ Unit
  | some e => throw e
  | none => pure ()

/-- Fails if a condition holds. -/
def refuseIf (c : Prop) [Decidable c] (e : Error) : Edit σ Unit := refuse (if c then some e else none)

/-- A change of one part of a state. The part is put back whether or not the change fails. -/
def within (part : σ → τ) (put : τ → σ → σ) (edit : Edit τ α) : Edit σ α := fun s =>
  match edit (part s) with
  | .ok a t => .ok a (put t s)
  | .error e t => .error e (put t s)

end Edit

end Disassembly
