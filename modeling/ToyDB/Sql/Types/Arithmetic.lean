import Mathlib
import ToyDB.Logic.Truth
import ToyDB.Sql.Types.Value

/-!
# Operations on values

The operators of expressions on values: logic, comparisons, arithmetic and pattern
matching. Floating-point arithmetic and regular expressions are parameters, so results
hold whatever they compute. Integers have 64 bits; operations that would overflow fail,
except that negation wraps, as it does in release builds.
-/
namespace ToyDB.Sql
open ToyDB.Logic

/-- Floating-point arithmetic, and the regular expressions that LIKE is compiled to. -/
structure Builtins where
  add : F64 → F64 → F64
  sub : F64 → F64 → F64
  mul : F64 → F64 → F64
  div : F64 → F64 → F64
  rem : F64 → F64 → F64
  powf : F64 → F64 → F64
  powi : F64 → Int32 → F64
  sqrt : F64 → F64
  escape : String → String
  isMatch : (pattern text : String) → Except Error Bool

/-- Stand-ins for evaluations that use neither floats nor patterns. -/
def Builtins.unused : Builtins where
  add x _ := x
  sub x _ := x
  mul x _ := x
  div x _ := x
  rem x _ := x
  powf x _ := x
  powi x _ := x
  sqrt x := x
  escape s := s
  isMatch _ _ := .ok false

/-- An invalid input error. -/
def invalid {α : Type} (message : String) : Except Failure α :=
  .error (.error (.invalidInput message))

/-- A panic. -/
def panics {α : Type} (message : String) : Except Failure α := .error (.panic message)

/-- The integer, if it has 64 bits. -/
def checkedInteger (i : ℤ) : Except Failure Value :=
  if -2 ^ 63 ≤ i ∧ i < 2 ^ 63 then .ok (.integer (Int64.ofInt i)) else invalid "integer overflow"

namespace Value

/-! ## Arithmetic -/

/-- An operation on two numbers; floats are used if one of them is a float, and NULL
yields NULL. -/
def arithmetic (verb : String) (integers : Int64 → Int64 → Except Failure Value)
    (floats : F64 → F64 → F64) : Value → Value → Except Failure Value
  | integer a, integer b => integers a b
  | integer a, float b => .ok (float (floats (F64.ofInt64 a) b))
  | float a, integer b => .ok (float (floats a (F64.ofInt64 b)))
  | float a, float b => .ok (float (floats a b))
  | null, integer _ | null, float _ | null, null => .ok null
  | integer _, null | float _, null => .ok null
  | a, b => invalid s!"can't {verb} {a.display} and {b.display}"

def checkedAdd (fn : Builtins) : Value → Value → Except Failure Value :=
  arithmetic "add" (fun a b => checkedInteger (a.toInt + b.toInt)) fn.add

def checkedDiv (fn : Builtins) : Value → Value → Except Failure Value :=
  arithmetic "divide" (fun a b =>
    if b = 0 then invalid "can't divide by zero"
    else if a = Int64.minValue ∧ b = -1 then panics "attempt to divide with overflow"
    else .ok (integer (a / b))) fn.div

def checkedMul (fn : Builtins) : Value → Value → Except Failure Value :=
  arithmetic "multiply" (fun a b => checkedInteger (a.toInt * b.toInt)) fn.mul

/-- Exponentiation; an integer power of a float is taken with `powi`. -/
def checkedPow (fn : Builtins) : Value → Value → Except Failure Value
  | float a, integer b => .ok (float (fn.powi a b.toInt32))
  | a, b => arithmetic "exponentiate" (fun a b =>
      if 0 ≤ b.toInt then
        if b.toInt < 2 ^ 32 then checkedInteger (a.toInt ^ b.toInt.toNat)
        else invalid "integer overflow"
      else .ok (float (fn.powf (F64.ofInt64 a) (F64.ofInt64 b)))) fn.powf a b

/-- The remainder, with the sign of the dividend. -/
def checkedRem (fn : Builtins) : Value → Value → Except Failure Value
  | integer a, integer b =>
      if b = 0 then invalid "can't divide by zero"
      else if a = Int64.minValue ∧ b = -1 then
        panics "attempt to calculate the remainder with overflow"
      else .ok (integer (a % b))
  | integer a, float b => .ok (float (fn.rem (F64.ofInt64 a) b))
  | float a, integer b => .ok (float (fn.rem a (F64.ofInt64 b)))
  | float a, float b => .ok (float (fn.rem a b))
  | integer _, null | float _, null | null, null => .ok null
  | null, integer _ | null, float _ => .ok null
  | a, b => invalid s!"can't take remainder of {a.display} and {b.display}"

def checkedSub (fn : Builtins) : Value → Value → Except Failure Value :=
  arithmetic "subtract" (fun a b => checkedInteger (a.toInt - b.toInt)) fn.sub

def factorial (fn : Builtins) : Value → Except Failure Value
  | integer i =>
      if 0 ≤ i.toInt then
        (List.range i.toInt.toNat).foldlM (fun p k =>
          p.checkedMul fn (integer (Int64.ofNat (k + 1)))) (integer 1)
      else invalid s!"can't take factorial of {(integer i).display}"
  | null => .ok null
  | value => invalid s!"can't take factorial of {value.display}"

def identity : Value → Except Failure Value
  | integer i => .ok (integer i)
  | float f => .ok (float f)
  | null => .ok null
  | value => invalid s!"can't take the identity of {value.display}"

def negate : Value → Except Failure Value
  | integer i => .ok (integer (-i))
  | float f => .ok (float f.neg)
  | null => .ok null
  | value => invalid s!"can't negate {value.display}"

def squareRoot (fn : Builtins) : Value → Except Failure Value
  | integer i =>
      if 0 ≤ i.toInt then .ok (float (fn.sqrt (F64.ofInt64 i)))
      else invalid s!"can't take square root of {(integer i).display}"
  | float f => .ok (float (fn.sqrt f))
  | null => .ok null
  | value => invalid s!"can't take square root of {value.display}"

/-! ## Comparisons -/

/-- A comparison of two values of one type, integers and floats being interchangeable;
NULL yields NULL. -/
def comparison (booleans : Bool → Bool → Bool) (integers : ℤ → ℤ → Bool)
    (floats : F64 → F64 → Bool) (strings : String → String → Bool) :
    Value → Value → Except Failure Value
  | boolean a, boolean b => .ok (boolean (booleans a b))
  | integer a, integer b => .ok (boolean (integers a.toInt b.toInt))
  | integer a, float b => .ok (boolean (floats (F64.ofInt64 a) b))
  | float a, integer b => .ok (boolean (floats a (F64.ofInt64 b)))
  | float a, float b => .ok (boolean (floats a b))
  | string a, string b => .ok (boolean (strings a b))
  | null, _ => .ok null
  | _, null => .ok null
  | a, b => invalid s!"can't compare {a.display} and {b.display}"

def equal : Value → Value → Except Failure Value :=
  comparison (fun a b => a = b) (fun a b => a = b) F64.eq (fun a b => a = b)

def greaterThan : Value → Value → Except Failure Value :=
  comparison (fun a b => b < a) (fun a b => b < a) (fun a b => b.lt a) (fun a b => b < a)

def lessThan : Value → Value → Except Failure Value :=
  comparison (fun a b => a < b) (fun a b => a < b) F64.lt (fun a b => a < b)

/-- IS NULL. -/
def isNull (value : Value) : Value := boolean (value.eq null)

/-- IS NAN. -/
def isNan : Value → Except Failure Value
  | float f => .ok (boolean f.isNan)
  | null => .ok null
  | value =>
      let name := (value.datatype.map DataType.display).getD "NULL"
      invalid s!"IS NAN can't be used with {name}"

/-- The text with another one in place of each occurrence of a character. -/
def replaceChar (c : Char) (replacement text : String) : String :=
  String.ofList (text.toList.flatMap fun x => if x = c then replacement.toList else [x])

def like (fn : Builtins) : Value → Value → Except Failure Value
  | string a, string b =>
      let pattern := "^" ++ replaceChar '_' "." (replaceChar '%' ".*" (fn.escape b)) ++ "$"
      match fn.isMatch pattern a with
      | .ok found => .ok (boolean found)
      | .error e => .error (.error e)
  | string _, null | null, string _ | null, null => .ok null
  | a, b => invalid s!"can't LIKE {a.display} and {b.display}"

/-! ## Logic -/

def and : Value → Value → Except Failure Value
  | boolean a, boolean b => .ok (boolean (a && b))
  | boolean false, null | null, boolean false => .ok (boolean false)
  | boolean _, null | null, boolean _ | null, null => .ok null
  | a, b => invalid s!"can't AND {a.display} and {b.display}"

def or : Value → Value → Except Failure Value
  | boolean a, boolean b => .ok (boolean (a || b))
  | boolean true, null | null, boolean true => .ok (boolean true)
  | boolean _, null | null, boolean _ | null, null => .ok null
  | a, b => invalid s!"can't OR {a.display} and {b.display}"

def not : Value → Except Failure Value
  | boolean b => .ok (boolean !b)
  | null => .ok null
  | value => invalid s!"can't NOT {value.display}"

/-- The value of a truth value; NULL is unknown. -/
def ofTruth : Truth → Value
  | .false => boolean false
  | .unknown => null
  | .true => boolean true

theorem ofTruth_injective : Function.Injective ofTruth := by
  intro s t h
  cases s <;> cases t <;> first | rfl | simp [ofTruth] at h

/-- Conjunction is defined on truth values, and is their infimum. -/
theorem and_eq_ok {a b v : Value} :
    a.and b = .ok v ↔ ∃ s t, a = ofTruth s ∧ b = ofTruth t ∧ v = ofTruth (s ⊓ t) := by
  constructor
  · intro h
    cases a <;> cases b <;> try (simp [and, invalid] at h; done)
    case null.null => exact ⟨.unknown, .unknown, rfl, rfl, (Except.ok.inj h).symm⟩
    case null.boolean b =>
      cases b
      · exact ⟨.unknown, .false, rfl, rfl, (Except.ok.inj h).symm⟩
      · exact ⟨.unknown, .true, rfl, rfl, (Except.ok.inj h).symm⟩
    case boolean.null a =>
      cases a
      · exact ⟨.false, .unknown, rfl, rfl, (Except.ok.inj h).symm⟩
      · exact ⟨.true, .unknown, rfl, rfl, (Except.ok.inj h).symm⟩
    case boolean.boolean a b =>
      refine ⟨Truth.ofBool a, Truth.ofBool b, by cases a <;> rfl, by cases b <;> rfl, ?_⟩
      cases a <;> cases b <;> exact (Except.ok.inj h).symm
  · rintro ⟨s, t, rfl, rfl, rfl⟩
    cases s <;> cases t <;> rfl

/-- Disjunction is defined on truth values, and is their supremum. -/
theorem or_eq_ok {a b v : Value} :
    a.or b = .ok v ↔ ∃ s t, a = ofTruth s ∧ b = ofTruth t ∧ v = ofTruth (s ⊔ t) := by
  constructor
  · intro h
    cases a <;> cases b <;> try (simp [or, invalid] at h; done)
    case null.null => exact ⟨.unknown, .unknown, rfl, rfl, (Except.ok.inj h).symm⟩
    case null.boolean b =>
      cases b
      · exact ⟨.unknown, .false, rfl, rfl, (Except.ok.inj h).symm⟩
      · exact ⟨.unknown, .true, rfl, rfl, (Except.ok.inj h).symm⟩
    case boolean.null a =>
      cases a
      · exact ⟨.false, .unknown, rfl, rfl, (Except.ok.inj h).symm⟩
      · exact ⟨.true, .unknown, rfl, rfl, (Except.ok.inj h).symm⟩
    case boolean.boolean a b =>
      refine ⟨Truth.ofBool a, Truth.ofBool b, by cases a <;> rfl, by cases b <;> rfl, ?_⟩
      cases a <;> cases b <;> exact (Except.ok.inj h).symm
  · rintro ⟨s, t, rfl, rfl, rfl⟩
    cases s <;> cases t <;> rfl

/-- Negation is defined on truth values. -/
theorem not_eq_ok {a v : Value} : a.not = .ok v ↔ ∃ s, a = ofTruth s ∧ v = ofTruth s.not := by
  constructor
  · intro h
    cases a <;> try (simp [not, invalid] at h; done)
    case null => exact ⟨.unknown, rfl, (Except.ok.inj h).symm⟩
    case boolean a => cases a
                      · exact ⟨.false, rfl, (Except.ok.inj h).symm⟩
                      · exact ⟨.true, rfl, (Except.ok.inj h).symm⟩
  · rintro ⟨s, rfl, rfl⟩
    cases s <;> rfl

end Value
end ToyDB.Sql
