import Mathlib
import ToyDB.Sql.Types.NormalForm

/-!
# Integer arithmetic

The exact results of integer expressions, in unbounded integers, and where evaluation
agrees with them. Every operator checks its result except two: negating the least
integer wraps, and dividing it by -1 panics.
-/
namespace ToyDB.Sql

/-- The integer has 64 bits. -/
def InRange (i : ℤ) : Prop := -2 ^ 63 ≤ i ∧ i < 2 ^ 63

instance (i : ℤ) : Decidable (InRange i) := inferInstanceAs (Decidable (_ ∧ _))

/-- The least integer of 64 bits. -/
def leastInteger : ℤ := -2 ^ 63

/-! ## Operators -/

/-- The operator is arithmetic on two integers. -/
def BinaryOperator.IsArithmetic (op : BinaryOperator) : Prop :=
  op ∈ [add, subtract, multiply, divide, remainder, exponentiate]

instance (op : BinaryOperator) : Decidable op.IsArithmetic := inferInstanceAs (Decidable (_ ∈ _))

/-- The exact result; division truncates, and a negative exponent has no integer result. -/
def BinaryOperator.exact : BinaryOperator → ℤ → ℤ → Option ℤ
  | add, a, b => some (a + b)
  | subtract, a, b => some (a - b)
  | multiply, a, b => some (a * b)
  | divide, a, b => if b = 0 then none else some (a.tdiv b)
  | remainder, a, b => if b = 0 then none else some (a.tmod b)
  | exponentiate, a, b => if b < 0 then none else some (a ^ b.toNat)
  | _, _, _ => none

/-- The operator has a result of 64 bits. Exponents are limited as well. -/
def BinaryOperator.Fits (op : BinaryOperator) (a b : ℤ) : Prop :=
  (∃ i, op.exact a b = some i ∧ InRange i) ∧ (op = exponentiate → b < 2 ^ 32)

/-- The least integer is divided by -1. -/
def BinaryOperator.Overflows (op : BinaryOperator) (a b : ℤ) : Prop :=
  (op = divide ∨ op = remainder) ∧ a = leastInteger ∧ b = -1

/-- The operator is arithmetic on an integer. -/
def UnaryOperator.IsArithmetic (op : UnaryOperator) : Prop := op ∈ [factorial, identity, negate]

instance (op : UnaryOperator) : Decidable op.IsArithmetic := inferInstanceAs (Decidable (_ ∈ _))

def UnaryOperator.exact : UnaryOperator → ℤ → Option ℤ
  | factorial, a => if a < 0 then none else some a.toNat.factorial
  | identity, a => some a
  | negate, a => some (-a)
  | _, _ => none

def UnaryOperator.Fits (op : UnaryOperator) (a : ℤ) : Prop :=
  ∃ i, op.exact a = some i ∧ InRange i

/-- The least integer is negated. -/
def UnaryOperator.Overflows (op : UnaryOperator) (a : ℤ) : Prop :=
  op = negate ∧ a = leastInteger

/-! ## Operators on 64-bit integers -/

theorem inRange_toInt (i : Int64) : InRange i.toInt := ⟨i.le_toInt, i.toInt_lt⟩

theorem toInt_ofInt {i : ℤ} (h : InRange i) : (Int64.ofInt i).toInt = i :=
  Int64.toInt_ofInt_of_le h.1 h.2

/-- A checked result is exact, or does not fit. -/
theorem checkedInteger_cases (i : ℤ) :
    (∃ c : Int64, checkedInteger i = .ok (.integer c) ∧ c.toInt = i ∧ InRange i) ∨
      (∃ err, checkedInteger i = .error (.error err)) ∧ ¬ InRange i := by
  by_cases h : InRange i
  · exact Or.inl ⟨Int64.ofInt i, if_pos h, toInt_ofInt h, h⟩
  · exact Or.inr ⟨⟨_, if_neg h⟩, h⟩

/-- The result of an operation on integers: the exact one if it fits, or else an error. -/
def Outcome (result : Except Failure Value) (exact : Option ℤ) (fits : Prop) : Prop :=
  (∃ i, result = .ok (.integer i) ∧ exact = some i.toInt ∧ fits) ∨
    (∃ err, result = .error (.error err)) ∧ ¬ fits

theorem outcome_checked (i : ℤ) :
    Outcome (checkedInteger i) (some i) (∃ j, some i = some j ∧ InRange j) := by
  obtain ⟨c, hc, rfl, hr⟩ | ⟨he, hr⟩ := checkedInteger_cases i
  · exact Or.inl ⟨c, hc, rfl, _, rfl, hr⟩
  · refine Or.inr ⟨he, fun ⟨j, hj, hrj⟩ => hr ?_⟩
    rwa [Option.some.inj hj]

theorem outcome_and {result : Except Failure Value} {exact : Option ℤ} {fits p : Prop}
    (h : Outcome result exact fits) (hp : p) : Outcome result exact (fits ∧ p) := by
  obtain ⟨i, hi, he, hf⟩ | ⟨he, hf⟩ := h
  · exact Or.inl ⟨i, hi, he, hf, hp⟩
  · exact Or.inr ⟨he, fun hfp => hf hfp.1⟩

theorem outcome_none {err : Error} :
    Outcome (.error (.error err)) none (∃ j, none = some j ∧ InRange j) :=
  Or.inr ⟨⟨err, rfl⟩, fun ⟨_, hj, _⟩ => nomatch hj⟩

theorem eq_zero_iff (b : Int64) : b = 0 ↔ b.toInt = 0 := by
  rw [← Int64.toInt_inj]
  rfl

theorem eq_minValue_iff (a : Int64) : a = Int64.minValue ↔ a.toInt = leastInteger := by
  rw [← Int64.toInt_inj]
  rfl

theorem eq_neg_one_iff (b : Int64) : b = -1 ↔ b.toInt = -1 := by
  rw [← Int64.toInt_inj]
  rfl

/-- A quotient fits unless the least integer is divided by -1. -/
theorem toInt_div {a b : Int64} (h : ¬ (a = Int64.minValue ∧ b = -1)) :
    (a / b).toInt = a.toInt.tdiv b.toInt := by
  by_cases ha : a = Int64.minValue
  · exact Int64.toInt_div_of_ne_right a b fun hb => h ⟨ha, hb⟩
  · exact Int64.toInt_div_of_ne_left a b ha

/-- The least integer is the only one whose negation wraps. -/
theorem toInt_neg {a : Int64} (h : a ≠ Int64.minValue) : (-a).toInt = -a.toInt := by
  have hne : a.toInt ≠ leastInteger := mt (eq_minValue_iff a).mpr h
  have hle := a.le_toInt
  have hlt := a.toInt_lt
  rw [leastInteger] at hne
  rw [Int64.toInt_neg, Int.bmod_eq_of_le] <;> omega

theorem outcome_pow (a b : Int64) :
    Outcome (if b.toInt < 2 ^ 32 then checkedInteger (a.toInt ^ b.toInt.toNat)
      else invalid "integer overflow") (some (a.toInt ^ b.toInt.toNat))
      ((∃ i, some (a.toInt ^ b.toInt.toNat) = some i ∧ InRange i) ∧ b.toInt < 2 ^ 32) := by
  by_cases h : b.toInt < 2 ^ 32
  · rw [if_pos h]
    exact outcome_and (outcome_checked _) h
  · rw [if_neg h]
    exact Or.inr ⟨⟨_, rfl⟩, fun hf => h hf.2⟩

/-- A binary operator is exact or an error, unless it overflows. -/
theorem outcome_binary (fn : Builtins) {op : BinaryOperator} (hop : op.IsArithmetic) (a b : Int64)
    (hexp : op = .exponentiate → 0 ≤ b.toInt) (ho : ¬ op.Overflows a.toInt b.toInt) :
    Outcome (op.apply fn (.integer a) (.integer b)) (op.exact a.toInt b.toInt)
      (op.Fits a.toInt b.toInt) := by
  simp only [BinaryOperator.IsArithmetic, List.mem_cons, List.not_mem_nil, or_false] at hop
  obtain rfl | rfl | rfl | rfl | rfl | rfl := hop
  · exact outcome_and (outcome_checked _) (by simp)
  · exact outcome_and (outcome_checked _) (by simp)
  · exact outcome_and (outcome_checked _) (by simp)
  · have hno : ¬ (a = Int64.minValue ∧ b = -1) := fun h =>
      ho ⟨Or.inl rfl, (eq_minValue_iff a).mp h.1, (eq_neg_one_iff b).mp h.2⟩
    change Outcome (if b = 0 then _ else if _ then _ else _) (if b.toInt = 0 then _ else _)
      ((∃ i, (if b.toInt = 0 then _ else _) = some i ∧ _) ∧ _)
    refine outcome_and ?_ (by simp)
    by_cases hz : b = 0
    · rw [if_pos hz, if_pos ((eq_zero_iff b).mp hz)]
      exact outcome_none
    · rw [if_neg hz, if_neg hno, if_neg (mt (eq_zero_iff b).mpr hz), ← toInt_div hno]
      exact Or.inl ⟨_, rfl, rfl, _, rfl, inRange_toInt _⟩
  · have hno : ¬ (a = Int64.minValue ∧ b = -1) := fun h =>
      ho ⟨Or.inr rfl, (eq_minValue_iff a).mp h.1, (eq_neg_one_iff b).mp h.2⟩
    change Outcome (if b = 0 then _ else if _ then _ else _) (if b.toInt = 0 then _ else _)
      ((∃ i, (if b.toInt = 0 then _ else _) = some i ∧ _) ∧ _)
    refine outcome_and ?_ (by simp)
    by_cases hz : b = 0
    · rw [if_pos hz, if_pos ((eq_zero_iff b).mp hz)]
      exact outcome_none
    · rw [if_neg hz, if_neg hno, if_neg (mt (eq_zero_iff b).mpr hz), ← Int64.toInt_mod]
      exact Or.inl ⟨_, rfl, rfl, _, rfl, inRange_toInt _⟩
  · have hb := hexp rfl
    change Outcome (if 0 ≤ b.toInt then _ else _) (if b.toInt < 0 then _ else _)
      ((∃ i, (if b.toInt < 0 then _ else _) = some i ∧ _) ∧ (_ → _))
    rw [if_pos hb, if_neg (not_lt.mpr hb), forall_prop_of_true rfl]
    exact outcome_pow a b

/-- The product of the first integers, checked at each step. -/
theorem outcome_factorial (fn : Builtins) {n : ℕ} (hn : n < 2 ^ 63) :
    Outcome ((List.range n).foldlM (fun p k =>
        p.checkedMul fn (.integer (Int64.ofNat (k + 1)))) (Value.integer 1))
      (some n.factorial) (∃ i, some (n.factorial : ℤ) = some i ∧ InRange i) := by
  induction n with
  | zero => exact Or.inl ⟨1, rfl, rfl, 1, rfl, by decide⟩
  | succ n ih =>
      have hk : (Int64.ofNat (n + 1)).toInt = n + 1 := by
        rw [Int64.toInt_ofNat_of_lt hn]
        rfl
      rw [List.range_succ, List.foldlM_append]
      obtain ⟨c, hc, he, -⟩ | ⟨⟨err, herr⟩, hf⟩ := ih (by omega)
      · have hmul : Value.checkedMul fn (.integer c) (.integer (Int64.ofNat (n + 1))) =
            checkedInteger ((n + 1).factorial : ℕ) := by
          change checkedInteger (c.toInt * (Int64.ofNat (n + 1)).toInt) = _
          rw [hk, ← Option.some.inj he, Nat.factorial_succ, Nat.mul_comm]
          push_cast
          rfl
        rw [hc]
        simp only [List.foldlM_cons, List.foldlM_nil, bind_pure]
        change Outcome (Value.checkedMul fn (.integer c) (.integer (Int64.ofNat (n + 1)))) _ _
        rw [hmul]
        exact outcome_checked _
      · refine Or.inr ⟨⟨err, by rw [herr]; rfl⟩, fun ⟨i, hi, hr⟩ => hf ⟨_, rfl, ?_⟩⟩
        obtain rfl := Option.some.inj hi
        have hle : n.factorial ≤ (n + 1).factorial := Nat.factorial_le (Nat.le_succ n)
        exact ⟨by omega, by have := hr.2; omega⟩

/-- A unary operator is exact or an error, unless it overflows. -/
theorem outcome_unary (fn : Builtins) {op : UnaryOperator} (hop : op.IsArithmetic) (a : Int64)
    (ho : ¬ op.Overflows a.toInt) :
    Outcome (op.apply fn (.integer a)) (op.exact a.toInt) (op.Fits a.toInt) := by
  simp only [UnaryOperator.IsArithmetic, List.mem_cons, List.not_mem_nil, or_false] at hop
  obtain rfl | rfl | rfl := hop
  · change Outcome (if 0 ≤ a.toInt then _ else _) (if a.toInt < 0 then _ else _)
      (∃ i, (if a.toInt < 0 then _ else _) = some i ∧ _)
    by_cases h : 0 ≤ a.toInt
    · rw [if_pos h, if_neg (not_lt.mpr h)]
      exact outcome_factorial fn (by have := a.toInt_lt; omega)
    · rw [if_neg h, if_pos (not_le.mp h)]
      exact outcome_none
  · exact Or.inl ⟨a, rfl, rfl, _, rfl, inRange_toInt a⟩
  · have hne : a ≠ Int64.minValue := fun h => ho ⟨rfl, (eq_minValue_iff a).mp h⟩
    have hneg : (-a).toInt = -a.toInt := toInt_neg hne
    refine Or.inl ⟨-a, rfl, by rw [hneg]; rfl, -a.toInt, rfl, ?_⟩
    rw [← hneg]
    exact inRange_toInt _

/-! ## Expressions -/

namespace Expression

/-- The exact result of an integer expression. -/
def exact (row : Option Row) : Expression → Option ℤ
  | constant (.integer i) => some i.toInt
  | column index =>
      match row.bind fun row => row[index]? with
      | some (.integer i) => some i.toInt
      | _ => none
  | binary op lhs rhs => do
      let a ← lhs.exact row
      let b ← rhs.exact row
      op.exact a b
  | unary op expr => do
      let a ← expr.exact row
      op.exact a
  | _ => none

/-- Arithmetic on integer constants and integer columns, with exponents that are not negative. -/
def Integral (row : Option Row) : Expression → Prop
  | constant value => ∃ i, value = .integer i
  | column index => ∃ i, (row.bind fun row => row[index]?) = some (.integer i)
  | binary op lhs rhs => op.IsArithmetic ∧ lhs.Integral row ∧ rhs.Integral row ∧
      (op = .exponentiate → ∀ n, rhs.exact row = some n → 0 ≤ n)
  | unary op expr => op.IsArithmetic ∧ expr.Integral row
  | is _ _ => False

/-- Every intermediate result exists and has 64 bits. -/
def Fits (row : Option Row) : Expression → Prop
  | binary op lhs rhs => lhs.Fits row ∧ rhs.Fits row ∧
      ∀ a b, lhs.exact row = some a → rhs.exact row = some b → op.Fits a b
  | unary op expr => expr.Fits row ∧ ∀ a, expr.exact row = some a → op.Fits a
  | _ => True

/-- The expression neither negates the least integer nor divides it by -1. What follows
an operand that does not fit is not computed. -/
def Guarded (row : Option Row) : Expression → Prop
  | binary op lhs rhs => lhs.Guarded row ∧ (lhs.Fits row → rhs.Guarded row ∧
      (rhs.Fits row → ∀ a b, lhs.exact row = some a → rhs.exact row = some b → ¬ op.Overflows a b))
  | unary op expr => expr.Guarded row ∧
      (expr.Fits row → ∀ a, expr.exact row = some a → ¬ op.Overflows a)
  | _ => True

/-- The expressions that are evaluated with the given one. The second operand of an
operator is only evaluated if the first one has a value. -/
inductive Evaluates (fn : Builtins) (row : Option Row) : Expression → Expression → Prop where
  | self (e : Expression) : Evaluates fn row e e
  | lhs {op : BinaryOperator} {l r e : Expression} :
      Evaluates fn row l e → Evaluates fn row (binary op l r) e
  | rhs {op : BinaryOperator} {l r e : Expression} {v : Value} :
      l.evaluate fn row = .ok v → Evaluates fn row r e → Evaluates fn row (binary op l r) e
  | operand {op : UnaryOperator} {x e : Expression} :
      Evaluates fn row x e → Evaluates fn row (unary op x) e

/-- Evaluation returns the exact result as an integer. -/
def IsExact (fn : Builtins) (row : Option Row) (e : Expression) : Prop :=
  ∃ i, e.evaluate fn row = .ok (.integer i) ∧ e.exact row = some i.toInt

/-- Evaluation returns an error. -/
def Fails (fn : Builtins) (row : Option Row) (e : Expression) : Prop :=
  ∃ err, e.evaluate fn row = .error (.error err)

/-- Evaluation is exact or an error, at every operation on the way: it never panics and
never wraps. -/
def ExactOrError (fn : Builtins) (row : Option Row) (e : Expression) : Prop :=
  ∀ s, Evaluates fn row e s → s.IsExact fn row ∨ s.Fails fn row

/-! ## Evaluation -/

section
variable {fn : Builtins} {row : Option Row} {e s : Expression}

/-- Guarded expressions are exact or an error, and have a value just if they fit. -/
theorem outcome_evaluate (fn : Builtins) (hi : e.Integral row) (hg : e.Guarded row) :
    Outcome (e.evaluate fn row) (e.exact row) (e.Fits row) := by
  induction e with
  | constant v =>
      obtain ⟨i, rfl⟩ := hi
      exact Or.inl ⟨i, rfl, rfl, trivial⟩
  | column index =>
      obtain ⟨i, hi⟩ := hi
      exact Or.inl ⟨i, by simp only [evaluate, hi], by simp only [exact, hi], trivial⟩
  | binary op l r ihl ihr =>
      obtain ⟨hop, hil, hir, hexp⟩ := hi
      obtain ⟨hgl, hg⟩ := hg
      obtain ⟨a, hl, hxl, hfl⟩ | ⟨⟨err, hl⟩, hfl⟩ := ihl hil hgl
      · obtain ⟨hgr, hno⟩ := hg hfl
        obtain ⟨b, hr, hxr, hfr⟩ | ⟨⟨err, hr⟩, hfr⟩ := ihr hir hgr
        · have ho := outcome_binary fn hop a b (fun h => hexp h _ hxr) (hno hfr _ _ hxl hxr)
          have hf : (binary op l r).Fits row ↔ op.Fits a.toInt b.toInt := by
            simp [Fits, hfl, hfr, hxl, hxr]
          have hx : (binary op l r).exact row = op.exact a.toInt b.toInt := by
            simp [exact, hxl, hxr]
          have he : (binary op l r).evaluate fn row = op.apply fn (.integer a) (.integer b) := by
            simp only [evaluate, hl, hr]
            rfl
          rw [hf, hx, he]
          exact ho
        · refine Or.inr ⟨⟨err, ?_⟩, fun h => hfr h.2.1⟩
          simp only [evaluate, hl, hr]
          rfl
      · refine Or.inr ⟨⟨err, ?_⟩, fun h => hfl h.1⟩
        simp only [evaluate, hl]
        rfl
  | unary op x ih =>
      obtain ⟨hop, hix⟩ := hi
      obtain ⟨hgx, hg⟩ := hg
      obtain ⟨a, hx, hxx, hfx⟩ | ⟨⟨err, hx⟩, hfx⟩ := ih hix hgx
      · have ho := outcome_unary fn hop a (hg hfx _ hxx)
        have hf : (unary op x).Fits row ↔ op.Fits a.toInt := by simp [Fits, hfx, hxx]
        have he : (unary op x).exact row = op.exact a.toInt := by simp [exact, hxx]
        have hv : (unary op x).evaluate fn row = op.apply fn (.integer a) := by
          simp only [evaluate, hx]
          rfl
        rw [hf, he, hv]
        exact ho
      · refine Or.inr ⟨⟨err, ?_⟩, fun h => hfx h.1⟩
        simp only [evaluate, hx]
        rfl
  | is x v => exact hi.elim

/-- What is evaluated within a guarded expression is guarded. -/
theorem guarded_of_evaluates (h : Evaluates fn row e s) (hi : e.Integral row)
    (hg : e.Guarded row) : s.Integral row ∧ s.Guarded row := by
  induction h with
  | self e => exact ⟨hi, hg⟩
  | lhs _ ih => exact ih hi.2.1 hg.1
  | rhs hl _ ih =>
      refine ih hi.2.2.1 (hg.2 ?_).1
      obtain ⟨a, -, -, hfl⟩ | ⟨⟨err, he⟩, -⟩ := outcome_evaluate fn hi.2.1 hg.1
      · exact hfl
      · rw [hl] at he
        cases he
  | operand _ ih => exact ih hi.2 hg.1

/-- Dividing the least integer by -1 panics. -/
theorem apply_of_overflows (fn : Builtins) {op : BinaryOperator} {a b : Int64} (h : op.Overflows a.toInt b.toInt) :
    ∃ message, op.apply fn (.integer a) (.integer b) = panics message := by
  obtain ⟨hop, ha, hb⟩ := h
  rw [← eq_minValue_iff] at ha
  rw [← eq_neg_one_iff] at hb
  subst ha hb
  obtain rfl | rfl := hop
  · exact ⟨_, rfl⟩
  · exact ⟨_, rfl⟩

/-- An expression that is exact or an error at every operation is guarded. -/
theorem guarded_of_exactOrError (hi : e.Integral row) (h : e.ExactOrError fn row) :
    e.Guarded row := by
  induction e with
  | constant | column => trivial
  | binary op l r ihl ihr =>
      have hgl := ihl hi.2.1 fun s hs => h s (.lhs hs)
      refine ⟨hgl, fun hfl => ?_⟩
      obtain ⟨a, hl, hxl, -⟩ | ⟨-, hn⟩ := outcome_evaluate fn hi.2.1 hgl
      · have hgr := ihr hi.2.2.1 fun s hs => h s (.rhs hl hs)
        refine ⟨hgr, fun hfr x y hx hy ho => ?_⟩
        obtain ⟨b, hr, hxr, -⟩ | ⟨-, hn⟩ := outcome_evaluate fn hi.2.2.1 hgr
        · obtain rfl := Option.some.inj (hxl.symm.trans hx)
          obtain rfl := Option.some.inj (hxr.symm.trans hy)
          obtain ⟨message, hp⟩ := apply_of_overflows fn ho
          have he : (binary op l r).evaluate fn row = panics message := by
            simp only [evaluate, hl, hr]
            exact hp
          obtain ⟨i, hv, -⟩ | ⟨err, hv⟩ := h _ (.self _)
          · rw [he] at hv
            cases hv
          · rw [he] at hv
            cases hv
        · exact absurd hfr hn
      · exact absurd hfl hn
  | unary op x ih =>
      have hgx := ih hi.2 fun s hs => h s (.operand hs)
      refine ⟨hgx, fun hfx y hy hnegates => ?_⟩
      obtain ⟨hop, hm⟩ := hnegates
      obtain ⟨a, hx, hxx, -⟩ | ⟨-, hn⟩ := outcome_evaluate fn hi.2 hgx
      · obtain rfl := Option.some.inj (hxx.symm.trans hy)
        subst hop
        have ha : a = Int64.minValue := (eq_minValue_iff a).mpr hm
        subst ha
        have he : (unary .negate x).evaluate fn row = .ok (.integer Int64.minValue) := by
          simp only [evaluate, hx]
          rfl
        obtain ⟨i, hv, hxi⟩ | ⟨err, hv⟩ := h _ (.self _)
        · rw [he] at hv
          cases hv
          simp [exact, hxx, UnaryOperator.exact] at hxi
        · rw [he] at hv
          cases hv
      · exact absurd hfx hn
  | is x v => exact hi.elim

/-- Integer arithmetic is exact or an error just if the least integer is neither negated
nor divided by -1. -/
theorem exactOrError_iff (fn : Builtins) (row : Option Row) (e : Expression)
    (hi : e.Integral row) : e.ExactOrError fn row ↔ e.Guarded row := by
  constructor
  · exact guarded_of_exactOrError hi
  · intro hg s hs
    obtain ⟨hi, hg⟩ := guarded_of_evaluates hs hi hg
    obtain ⟨i, hv, hx, -⟩ | ⟨he, -⟩ := outcome_evaluate fn hi hg
    · exact Or.inl ⟨i, hv, hx⟩
    · exact Or.inr he

end

/-- The greatest integer with 1 added to it is an error, and the sum is guarded. -/
theorem exactOrError_iff_max :
    (binary .add (constant (.integer Int64.maxValue)) (constant (.integer 1))).Integral none ∧
      ((binary .add (constant (.integer Int64.maxValue)) (constant (.integer 1))).ExactOrError
          Builtins.unused none ↔
        (binary .add (constant (.integer Int64.maxValue)) (constant (.integer 1))).Guarded none) := by
  have hi : (binary .add (constant (.integer Int64.maxValue)) (constant (.integer 1))).Integral none :=
    ⟨by decide, ⟨_, rfl⟩, ⟨_, rfl⟩, by simp⟩
  exact ⟨hi, exactOrError_iff Builtins.unused none _ hi⟩

/-- The least integer, as it is computed from literals. -/
def leastLiteral : Expression :=
  binary .subtract (unary .negate (constant (.integer Int64.maxValue))) (constant (.integer 1))

/-- Dividing the least integer by -1 panics, and negating it returns it again. -/
theorem not_exactOrError :
    (¬ ∀ (fn : Builtins) (row : Option Row) (e : Expression),
      e.Integral row → e.ExactOrError fn row) ∧
    (binary .divide leastLiteral (constant (.integer (-1)))).evaluate Builtins.unused none =
      panics "attempt to divide with overflow" ∧
    (unary .negate leastLiteral).evaluate Builtins.unused none = .ok (.integer Int64.minValue) ∧
    (unary .negate leastLiteral).exact none = some (2 ^ 63) := by
  refine ⟨fun h => ?_, rfl, rfl, rfl⟩
  have hi : (binary .divide leastLiteral (constant (.integer (-1)))).Integral none :=
    ⟨by decide, ⟨by decide, ⟨by decide, _, rfl⟩, ⟨_, rfl⟩, by simp⟩, ⟨_, rfl⟩, by simp⟩
  obtain ⟨i, hv, -⟩ | ⟨err, hv⟩ := h Builtins.unused none _ hi _ (.self _)
  · cases hv
  · cases hv

end Expression
end ToyDB.Sql
