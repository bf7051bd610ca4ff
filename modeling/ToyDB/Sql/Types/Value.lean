import Mathlib.Data.List.DropRight
import Mathlib.Data.Prod.Lex
import Mathlib.Data.String.Basic
import ToyDB.Error

/-!
# SQL values

Values compare in three ways. `Value.eq` and `Value.cmp` are the code's own equality and
order, under which an integer can equal a float; the linear order is that of the encoded
keys, by variant and then by value. A value read back from the store is the one written
there with its negative zeros and negative NaNs made positive.
-/
namespace ToyDB.Sql
open ToyDB.Effects

inductive DataType where
  | boolean
  | integer
  | float
  | string
  deriving DecidableEq, Repr

def DataType.display : DataType → String
  | boolean => "BOOLEAN"
  | integer => "INTEGER"
  | float => "FLOAT"
  | string => "STRING"

/-- A 64-bit IEEE 754 float, by its bits. -/
structure F64 where
  bits : BitVec 64
  deriving DecidableEq, Repr

namespace F64

/-- The magnitude bits of the infinities. -/
def infinity : ℕ := 0x7ff0000000000000

def isSignNegative (x : F64) : Bool := x.bits.msb

/-- The bits below the sign. -/
def magnitude (x : F64) : ℕ := x.bits.toNat % 2 ^ 63

def isNan (x : F64) : Bool := infinity < x.magnitude

def neg (x : F64) : F64 := ⟨x.bits ^^^ BitVec.intMin 64⟩

/-- The position of a number among the floats; both zeros have position 0. -/
def position (x : F64) : ℤ := if x.isSignNegative then -x.magnitude else x.magnitude

/-- IEEE equality: NaN equals nothing. -/
def eq (x y : F64) : Bool := !x.isNan && !y.isNan && x.position = y.position

/-- IEEE order: NaN is below and above nothing. -/
def lt (x y : F64) : Bool := !x.isNan && !y.isNan && x.position < y.position

/-- The position in the total order, in which negative zero is below zero. -/
def totalPosition (x : F64) : ℤ := if x.isSignNegative then -x.magnitude - 1 else x.magnitude

def totalCmp (x y : F64) : Ordering := compare x.totalPosition y.totalPosition

/-- The float nearest to a natural number below `2 ^ 64`, ties to even. -/
def ofNat (n : ℕ) : F64 :=
  if n = 0 then ⟨0⟩
  else
    let exponent := n.log2
    if exponent ≤ 52 then ⟨BitVec.ofNat 64 ((exponent + 1022) * 2 ^ 52 + n * 2 ^ (52 - exponent))⟩
    else
      let unit := 2 ^ (exponent - 52)
      let floor := n / unit
      let rest := 2 * (n % unit)
      let mantissa := if unit < rest ∨ (rest = unit ∧ floor % 2 = 1) then floor + 1 else floor
      ⟨BitVec.ofNat 64 ((exponent + 1022) * 2 ^ 52 + mantissa)⟩

/-- `as f64`: the nearest float. -/
def ofInt64 (i : Int64) : F64 :=
  if i.toInt < 0 then (ofNat i.toInt.natAbs).neg else ofNat i.toInt.natAbs

/-- Negative zero and negative NaNs are stored as positive. -/
def serialize (x : F64) : F64 :=
  if (x.isNan || x.magnitude = 0) && x.isSignNegative then x.neg else x

theorem toNat_bits (x : F64) :
    x.bits.toNat = if x.isSignNegative then x.magnitude + 2 ^ 63 else x.magnitude := by
  have hlt := x.bits.isLt
  unfold isSignNegative magnitude
  rw [BitVec.msb_eq_decide]
  by_cases h : 2 ^ (64 - 1) ≤ x.bits.toNat
  · simp only [h, decide_true, if_true]
    omega
  · simp only [h, decide_false, Bool.false_eq_true, if_false]
    omega

theorem ext_magnitude {x y : F64} (hs : x.isSignNegative = y.isSignNegative)
    (hm : x.magnitude = y.magnitude) : x = y := by
  obtain ⟨a⟩ := x
  obtain ⟨b⟩ := y
  refine congrArg F64.mk (BitVec.eq_of_toNat_eq ?_)
  rw [toNat_bits ⟨a⟩, toNat_bits ⟨b⟩, hs, hm]

theorem totalPosition_injective : Function.Injective totalPosition := by
  intro x y h
  unfold totalPosition at h
  cases hx : x.isSignNegative <;> cases hy : y.isSignNegative <;> simp only [hx, hy] at h
  · refine ext_magnitude (hx.trans hy.symm) ?_
    simp only [Bool.false_eq_true, if_false] at h
    omega
  · simp only [Bool.false_eq_true, if_false, if_true] at h
    omega
  · simp only [Bool.false_eq_true, if_false, if_true] at h
    omega
  · refine ext_magnitude (hx.trans hy.symm) ?_
    simp only [if_true] at h
    omega

theorem isSignNegative_neg (x : F64) : x.neg.isSignNegative = !x.isSignNegative := by
  simp [isSignNegative, neg, BitVec.msb_xor, BitVec.msb_intMin]

theorem magnitude_neg (x : F64) : x.neg.magnitude = x.magnitude := by
  have h : ∀ y : F64, y.magnitude = (y.bits.setWidth 63).toNat := fun y => by
    simp [magnitude, BitVec.toNat_setWidth]
  rw [h, h]
  refine congrArg BitVec.toNat (BitVec.eq_of_getLsbD_eq fun i hi => ?_)
  simp only [neg, BitVec.getLsbD_setWidth, BitVec.getLsbD_xor, BitVec.getLsbD_intMin, hi,
    decide_true, Bool.true_and]
  rw [decide_eq_false (by omega), Bool.xor_false]

@[simp] theorem magnitude_serialize (x : F64) : x.serialize.magnitude = x.magnitude := by
  unfold serialize
  split_ifs
  · exact magnitude_neg x
  · rfl

@[simp] theorem isNan_serialize (x : F64) : x.serialize.isNan = x.isNan := by simp [isNan]

theorem isSignNegative_serialize (x : F64) : x.serialize.isSignNegative =
    (x.isSignNegative && !(x.isNan || x.magnitude = 0)) := by
  unfold serialize
  split_ifs with h
  · rw [isSignNegative_neg]
    simp only [Bool.and_eq_true] at h
    simp [h.1, h.2]
  · cases hs : x.isSignNegative
    · rfl
    · simpa [hs] using h

@[simp] theorem serialize_serialize (x : F64) : x.serialize.serialize = x.serialize := by
  apply ext_magnitude
  · rw [isSignNegative_serialize, isSignNegative_serialize, isNan_serialize, magnitude_serialize,
      Bool.and_assoc, Bool.and_self]
  · simp

/-- Equal floats are stored alike. -/
theorem serialize_eq_of_eq {x y : F64} (h : x.eq y = true) : x.serialize = y.serialize := by
  simp only [eq, Bool.and_eq_true, Bool.not_eq_true', decide_eq_true_eq] at h
  obtain ⟨⟨hx, hy⟩, hp⟩ := h
  unfold position at hp
  have hm : x.magnitude = y.magnitude := by split_ifs at hp <;> omega
  apply ext_magnitude
  · rw [isSignNegative_serialize, isSignNegative_serialize, hx, hy, hm]
    by_cases hz : y.magnitude = 0
    · simp [hz]
    · split_ifs at hp with h₁ h₂ h₂ <;> first | omega | simp [h₁, h₂]
  · simp [hm]

/-- Floats stored alike are equal, unless they are NaN. -/
theorem eq_of_serialize_eq {x y : F64} (h : x.serialize = y.serialize) (hx : x.isNan = false) :
    x.eq y = true := by
  have hm : x.magnitude = y.magnitude := by
    rw [← magnitude_serialize x, h, magnitude_serialize]
  have hy : y.isNan = false := by rw [← isNan_serialize, ← h, isNan_serialize, hx]
  have hs := congrArg isSignNegative h
  rw [isSignNegative_serialize, isSignNegative_serialize, hx, hy, hm] at hs
  simp only [eq, hx, hy, Bool.not_false, Bool.true_and, decide_eq_true_eq, position, hm]
  by_cases hz : y.magnitude = 0
  · simp [hz]
  · have hs : x.isSignNegative = y.isSignNegative := by simpa [hz] using hs
    rw [hs]

/-! ## Text -/

def significand (x : F64) : ℕ :=
  if x.magnitude < 2 ^ 52 then x.magnitude else x.magnitude % 2 ^ 52 + 2 ^ 52

/-- The exponent of the last place, where subnormal floats have exponent 0. -/
def exponent (x : F64) : ℕ := x.magnitude / 2 ^ 52 - 1

/-- The magnitude of the number, in units of `2 ^ -1076`. -/
def quarters (x : F64) : ℕ := 4 * x.significand * 2 ^ x.exponent

/-- The number of digits before the decimal point; of zeros behind it, if it is negative. -/
def decimalPoint (x : F64) : ℤ :=
  if 2 ^ 1076 ≤ x.quarters then (Nat.toDigits 10 (x.quarters / 2 ^ 1076)).length
  else 1 - (Nat.toDigits 10 ((2 ^ 1076 - 1) / x.quarters)).length

/-- The number `d * 10 ^ k` is read back as the magnitude. -/
def readsBack (x : F64) (k : ℤ) (d : ℕ) : Bool :=
  let number := d * 10 ^ k.toNat * 2 ^ 1076
  let scale := 2 ^ x.exponent * 10 ^ (-k).toNat
  let low := (4 * x.significand - if x.significand = 2 ^ 52 then 1 else 2) * scale
  let high := (4 * x.significand + 2) * scale
  if x.significand % 2 = 0 then low ≤ number ∧ number ≤ high else low < number ∧ number < high

/-- The closest multiple of `10 ^ k` that is read back, if there is one. -/
def multiple (x : F64) (k : ℤ) : Option ℕ :=
  let number := x.quarters * 10 ^ (-k).toNat
  let unit := 10 ^ k.toNat * 2 ^ 1076
  let floor := number / unit
  let candidates := if unit ≤ 2 * (number % unit) then [floor + 1, floor] else [floor, floor + 1]
  candidates.find? (x.readsBack k)

/-- The shortest digits that are read back, and the position of the decimal point. -/
def shortest (x : F64) : List Char × ℤ :=
  let found := (List.range 17).findSome? fun i =>
    let k := x.decimalPoint - i - 1
    (x.multiple k).map fun d => (Nat.toDigits 10 d, k)
  match found with
  | some (digits, k) => (digits.rdropWhile (· = '0'), k + digits.length)
  | none => ([], 0)

/-- `{:?}`: the shortest text that is read back. -/
def debug (x : F64) : String :=
  let sign := if x.isSignNegative then "-" else ""
  if x.isNan then "NaN"
  else if x.magnitude = infinity then sign ++ "inf"
  else if x.magnitude = 0 then sign ++ "0.0"
  else
    let (digits, point) := x.shortest
    let text (first rest : List Char) : String :=
      sign ++ String.ofList first ++ (if rest = [] then "" else "." ++ String.ofList rest)
    if point < -3 ∨ 16 < point then
      text (digits.take 1) (digits.drop 1) ++ "e" ++ toString (point - 1)
    else
      let whole := digits.take point.toNat ++ List.replicate (point.toNat - digits.length) '0'
      let part := List.replicate (-point).toNat '0' ++ digits.drop point.toNat
      text (if whole = [] then ['0'] else whole) (if part = [] then ['0'] else part)

/-- The largest number below 1, and a number with a decimal exponent. -/
example : (F64.debug ⟨0x3fefffffffffffff#64⟩, F64.debug ⟨0xc341c37937e08000#64⟩) =
    ("0.9999999999999999", "-1e16") := by decide +kernel

end F64

inductive Value where
  | null
  | boolean (b : Bool)
  | integer (i : Int64)
  | float (f : F64)
  | string (s : String)
  deriving DecidableEq, Repr

/-- A row of values. -/
abbrev Row := List Value

namespace Value

/-- A character of a quoted string; controls and blanks are shown by their numbers. -/
def escapeDebug (c : Char) : String :=
  match c.toNat with
  | 0 => "\\0"
  | 9 => "\\t"
  | 10 => "\\n"
  | 13 => "\\r"
  | 34 | 39 | 92 => "\\" ++ c.toString
  | n =>
      if n < 0x20 ∨ 0x7f ≤ n ∧ n ≤ 0xa0 ∨ n = 0xad then
        "\\u\x7b" ++ String.ofList (Nat.toDigits 16 n) ++ "\x7d"
      else c.toString

/-- A value in a message. -/
def display : Value → String
  | null => "NULL"
  | boolean true => "TRUE"
  | boolean false => "FALSE"
  | integer i => toString i
  | float f => f.debug
  | string s => "'" ++ String.join (s.toList.map escapeDebug) ++ "'"

/-- The code's equality. -/
def eq : Value → Value → Bool
  | boolean a, boolean b => a = b
  | integer a, integer b => a = b
  | integer a, float b => (F64.ofInt64 a).eq b
  | float a, integer b => a.eq (F64.ofInt64 b)
  | float a, float b => a.eq b || a.isNan && b.isNan
  | string a, string b => a = b
  | null, null => true
  | _, _ => false

/-- The code's order. -/
def cmp : Value → Value → Ordering
  | null, null => .eq
  | boolean a, boolean b => compare a b
  | integer a, integer b => compare a.toInt b.toInt
  | integer a, float b => (F64.ofInt64 a).totalCmp b
  | float a, integer b => a.totalCmp (F64.ofInt64 b)
  | float a, float b => a.totalCmp b
  | string a, string b => compare a b
  | null, _ => .lt
  | _, null => .gt
  | boolean _, _ => .lt
  | _, boolean _ => .gt
  | float _, _ => .lt
  | _, float _ => .gt
  | integer _, _ => .lt
  | _, integer _ => .gt

def datatype : Value → Option DataType
  | null => none
  | boolean _ => some .boolean
  | integer _ => some .integer
  | float _ => some .float
  | string _ => some .string

/-- NULL or NaN. -/
def isUndefined : Value → Bool
  | null => true
  | float f => f.isNan
  | _ => false

/-- The value that the store gives back for this one. -/
def stored : Value → Value
  | float f => float f.serialize
  | v => v

/-- The order of the encoded values. -/
def rank : Value → ℕ ×ₗ ℤ ×ₗ String
  | null => toLex (0, toLex (0, ""))
  | boolean b => toLex (1, toLex ((b.toNat : ℤ), ""))
  | integer i => toLex (2, toLex (i.toInt, ""))
  | float f => toLex (3, toLex (f.totalPosition, ""))
  | string s => toLex (4, toLex (0, s))

theorem rank_injective : Function.Injective rank := by
  intro a b h
  cases a <;> cases b <;> simp only [rank, toLex_inj, Prod.mk.injEq] at h <;>
    first | rfl | exact absurd h.1 (by decide) | skip
  case boolean.boolean a b => cases a <;> cases b <;> simp_all
  case integer.integer a b => exact congrArg integer (Int64.toInt_inj.mp h.2.1)
  case float.float a b => exact congrArg float (F64.totalPosition_injective h.2.1)
  case string.string a b => exact congrArg string h.2.2

instance : LinearOrder Value := LinearOrder.lift' rank rank_injective

@[simp] theorem stored_stored (v : Value) : v.stored.stored = v.stored := by
  cases v <;> simp [stored]

@[simp] theorem datatype_stored (v : Value) : v.stored.datatype = v.datatype := by
  cases v <;> rfl

@[simp] theorem isUndefined_stored (v : Value) : v.stored.isUndefined = v.isUndefined := by
  cases v <;> simp [stored, isUndefined]

@[simp] theorem stored_eq_null {v : Value} : v.stored = null ↔ v = null := by
  cases v <;> simp [stored]

section Variants
variable (a b : Bool) (i j : Int64) (f g : F64) (s t : String)

@[simp] theorem eq_boolean : (boolean a).eq (boolean b) = decide (a = b) := rfl
@[simp] theorem eq_integer : (integer i).eq (integer j) = decide (i = j) := rfl
@[simp] theorem eq_float : (float f).eq (float g) = (f.eq g || (f.isNan && g.isNan)) := rfl
@[simp] theorem eq_string : (string s).eq (string t) = decide (s = t) := rfl

@[simp] theorem cmp_boolean : (boolean a).cmp (boolean b) = compare a b := rfl
@[simp] theorem cmp_integer : (integer i).cmp (integer j) = compare i.toInt j.toInt := rfl
@[simp] theorem cmp_float : (float f).cmp (float g) = f.totalCmp g := rfl
@[simp] theorem cmp_string : (string s).cmp (string t) = compare s t := rfl

end Variants

/-- Values of one type that compare as equal are the same. -/
theorem eq_of_cmp {v w : Value} (h : v.cmp w = .eq) (ht : v.datatype = w.datatype) : v = w := by
  cases v <;> cases w <;> simp only [datatype, reduceCtorEq, Option.some.injEq] at ht
  case null.null => rfl
  case boolean.boolean => rw [compare_eq_iff_eq.mp h]
  case integer.integer => rw [Int64.toInt_inj.mp (compare_eq_iff_eq.mp h)]
  case float.float => rw [F64.totalPosition_injective (compare_eq_iff_eq.mp h)]
  case string.string => rw [compare_eq_iff_eq.mp h]

@[simp] theorem cmp_self (v : Value) : v.cmp v = .eq := by
  cases v with
  | null => rfl
  | _ => simp [F64.totalCmp]

/-- Values of one type are equal if they are stored alike. -/
theorem eq_of_stored {v w : Value} (h : v.stored = w.stored) : v.eq w = true := by
  cases v <;> cases w <;> simp only [stored, reduceCtorEq, float.injEq] at h
  case null.null => rfl
  case boolean.boolean => simpa using h
  case integer.integer => simpa using h
  case string.string => simpa using h
  case float.float f g =>
    cases hf : f.isNan
    · simp [F64.eq_of_serialize_eq h hf]
    · have hg : g.isNan = true := by rw [← F64.isNan_serialize, ← h, F64.isNan_serialize, hf]
      simp [hf, hg]

theorem isUndefined_of_eq {v w : Value} (h : v.eq w = true) (ht : v.datatype = w.datatype) :
    v.isUndefined = w.isUndefined := by
  cases v <;> cases w <;> simp only [datatype, reduceCtorEq, Option.some.injEq] at ht
  case null.null | boolean.boolean | integer.integer | string.string => rfl
  case float.float f g =>
    show f.isNan = g.isNan
    rw [eq_float, F64.eq] at h
    cases hf : f.isNan <;> cases hg : g.isNan <;> simp [hf, hg] at h ⊢

/-- Equal values of one type are stored alike, unless they are NaN. -/
theorem stored_of_eq {v w : Value} (h : v.eq w = true) (ht : v.datatype = w.datatype)
    (hn : v.isUndefined = false) : v.stored = w.stored := by
  cases v <;> cases w <;> simp only [datatype, reduceCtorEq, Option.some.injEq] at ht
  case null.null => rfl
  case boolean.boolean => simpa [stored] using h
  case integer.integer => simpa [stored] using h
  case string.string => simpa [stored] using h
  case float.float f g =>
    have hf : f.isNan = false := hn
    have hfg : f.eq g = true := by simpa [hf] using h
    exact congrArg float (F64.serialize_eq_of_eq hfg)

end Value
end ToyDB.Sql
