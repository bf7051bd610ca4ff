import ToyDB.Effects.Program

/-!
# Errors

The error type shared by all layers. Results of fallible functions are
`Except Error`; a program that may also panic fails with a `Failure`.
-/
namespace ToyDB
open ToyDB.Effects

abbrev Bytes := List UInt8

inductive Error where
  | abort
  | invalidData (message : String)
  | invalidInput (message : String)
  | io (message : String)
  | readOnly
  | serialization
  deriving DecidableEq, Repr

/-- Why a program did not return. -/
inductive Failure where
  | panic (message : String)
  | error (error : Error)
  deriving DecidableEq, Repr

/-- Two steps return what the second returns, if the first returns. -/
theorem bind_eq_ok {ε α β : Type} {x : Except ε α} {f : α → Except ε β} {b : β} :
    x >>= f = .ok b ↔ ∃ a, x = .ok a ∧ f a = .ok b := by
  cases x with
  | error e => exact ⟨fun h => (by cases h), fun ⟨a, h, _⟩ => (by cases h)⟩
  | ok a => exact ⟨fun h => ⟨a, rfl, h⟩, fun ⟨a', h, hf⟩ => (by cases h; exact hf)⟩

section
variable {σ ε α : Type}

def panic (message : String) : Program σ ε Failure α := Program.fail (.panic message)

def assert (p : Prop) [Decidable p] (message : String) : Program σ ε Failure Unit :=
  Program.ensure p (.panic message)

/-- An invalid input error. -/
def errinput (message : String) : Program σ ε Failure α :=
  Program.fail (.error (.invalidInput message))

/-- An invalid data error. -/
def errdata (message : String) : Program σ ε Failure α :=
  Program.fail (.error (.invalidData message))

end
end ToyDB
