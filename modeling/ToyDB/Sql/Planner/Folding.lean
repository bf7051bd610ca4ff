import ToyDB.Sql.Planner.Plan
import ToyDB.Sql.Types.Conjunctive

/-!
# Constant folding

Expressions without columns are evaluated when a query is planned, and a constant operand
may decide a logical operator. Where the expression has a value, the folded one has the
same value; where folding fails, the expression has no value on any row.
-/
namespace ToyDB.Sql

/-- Rewrites an expression after its operands. -/
def Expression.transformAfter (after : Expression → Except Failure Expression) :
    Expression → Except Failure Expression
  | .binary op lhs rhs => do
      let lhs ← lhs.transformAfter after
      let rhs ← rhs.transformAfter after
      after (.binary op lhs rhs)
  | .unary op expr => do
      let expr ← expr.transformAfter after
      after (.unary op expr)
  | .is expr value => do
      let expr ← expr.transformAfter after
      after (.is expr value)
  | expr => after expr

namespace Node

/-- Applies a function that can fail to the sources. -/
def mapSourcesM (f : Node → Except Failure Node) : Node → Except Failure Node
  | aggregate source groupBy aggregates => do
      let source ← f source
      return aggregate source groupBy aggregates
  | filter source predicate => do
      let source ← f source
      return filter source predicate
  | hashJoin left leftColumn right rightColumn outer => do
      let left ← f left
      let right ← f right
      return hashJoin left leftColumn right rightColumn outer
  | limit source n => do
      let source ← f source
      return limit source n
  | nestedLoopJoin left right predicate outer => do
      let left ← f left
      let right ← f right
      return nestedLoopJoin left right predicate outer
  | offset source n => do
      let source ← f source
      return offset source n
  | order source key => do
      let source ← f source
      return order source key
  | projection source expressions aliases => do
      let source ← f source
      return projection source expressions aliases
  | remap source targets => do
      let source ← f source
      return remap source targets
  | node => return node

/-- Rewrites a node before descending into its sources, for a number of levels. -/
def transformM (before : Node → Except Failure Node) : ℕ → Node → Except Failure Node
  | 0, self => .ok self
  | levels + 1, self => do
      let self ← before self
      self.mapSourcesM (transformM before levels)

/-- Applies a function to the expressions of a node. -/
def transformExpressions (f : Expression → Except Failure Expression) :
    Node → Except Failure Node
  | filter source predicate => do
      let predicate ← f predicate
      return filter source predicate
  | nestedLoopJoin left right (some predicate) outer => do
      let predicate ← f predicate
      return nestedLoopJoin left right (some predicate) outer
  | order source key => do
      let key ← key.mapM fun (expr, direction) => do
        let expr ← f expr
        return (expr, direction)
      return order source key
  | projection source expressions aliases => do
      let expressions ← expressions.mapM f
      return projection source expressions aliases
  | scan table (some predicate) => do
      let predicate ← f predicate
      return scan table (some predicate)
  | values rows => do
      let rows ← rows.mapM fun row => row.mapM f
      return values rows
  | node => return node

end Node

namespace ConstantFolding
open Expression ToyDB.Logic

/-- Folds an expression whose operands are folded. -/
def fold (fn : Builtins) (expr : Expression) : Except Failure Expression :=
  if !expr.contains (isColumn fun _ => true) then (expr.evaluate fn none).map constant
  else .ok <|
    match expr with
    | .and (.constant (.boolean false)) _ | .and _ (.constant (.boolean false)) =>
        .constant (.boolean false)
    | .and (.constant (.boolean true)) expr | .and expr (.constant (.boolean true)) => expr
    | .or (.constant (.boolean true)) _ | .or _ (.constant (.boolean true)) =>
        .constant (.boolean true)
    | .or (.constant (.boolean false)) expr | .or expr (.constant (.boolean false)) => expr
    | expr => expr

def foldAll (fn : Builtins) (expr : Expression) : Except Failure Expression :=
  expr.transformAfter (fold fn)

def optimize (fn : Builtins) (node : Node) : Except Failure Node :=
  node.transformM (fun node => node.transformExpressions (foldAll fn)) node.size

/-! ## Meaning -/

variable {fn : Builtins} {e e' l r x : Expression} {row row' : Option Row} {v : Value}
  {err : Failure}

/-- Without columns, an expression has the same value on all rows. -/
theorem evaluate_of_columns (h : e.columns = []) : e.evaluate fn row = e.evaluate fn none := by
  induction e with
  | constant v => rfl
  | column i => cases h
  | binary op l r hl hr =>
      obtain ⟨hnl, hnr⟩ := List.append_eq_nil_iff.mp h
      simp only [evaluate, hl hnl, hr hnr]
  | unary op x hx => simp only [evaluate, hx h]
  | is x v hx => cases v <;> simp only [evaluate, hx h]

/-- What folding an expression has to do with its values. -/
def Folds (fn : Builtins) (e : Expression) : Except Failure Expression → Prop
  | .ok e' => Refines fn e e'
  | .error _ => ∀ row v, e.evaluate fn row ≠ .ok v

theorem columns_of_contains (h : e.contains (isColumn fun _ => true) = false) :
    e.columns = [] := by
  rw [contains_isColumn] at h
  exact List.eq_nil_iff_forall_not_mem.mpr fun i hi => by simpa using List.any_eq_false.mp h i hi

theorem evaluate_constant_boolean {b : Bool} {t : Truth}
    (h : (constant (.boolean b)).evaluate fn row = .ok (.ofTruth t)) : t = .ofBool b := by
  cases b <;> cases t <;> first | rfl | cases h

/-- A constant operand decides a logical operator, or is redundant. -/
theorem refines_logical (e : Expression) : Refines fn e (
    match e with
    | .and (.constant (.boolean false)) _ | .and _ (.constant (.boolean false)) =>
        .constant (.boolean false)
    | .and (.constant (.boolean true)) expr | .and expr (.constant (.boolean true)) => expr
    | .or (.constant (.boolean true)) _ | .or _ (.constant (.boolean true)) =>
        .constant (.boolean true)
    | .or (.constant (.boolean false)) expr | .or expr (.constant (.boolean false)) => expr
    | expr => expr) := by
  intro row v hv
  split
  · obtain ⟨s, t, hs, ht, rfl⟩ := evaluate_and.mp hv
    rw [evaluate_constant_boolean hs]
    rfl
  · obtain ⟨s, t, hs, ht, rfl⟩ := evaluate_and.mp hv
    rw [evaluate_constant_boolean ht]
    cases s <;> rfl
  · obtain ⟨s, t, hs, ht, rfl⟩ := evaluate_and.mp hv
    rw [evaluate_constant_boolean hs]
    cases t <;> exact ht
  · obtain ⟨s, t, hs, ht, rfl⟩ := evaluate_and.mp hv
    rw [evaluate_constant_boolean ht]
    cases s <;> exact hs
  · obtain ⟨s, t, hs, ht, rfl⟩ := evaluate_or.mp hv
    rw [evaluate_constant_boolean hs]
    cases t <;> rfl
  · obtain ⟨s, t, hs, ht, rfl⟩ := evaluate_or.mp hv
    rw [evaluate_constant_boolean ht]
    cases s <;> rfl
  · obtain ⟨s, t, hs, ht, rfl⟩ := evaluate_or.mp hv
    rw [evaluate_constant_boolean hs]
    cases t <;> exact ht
  · obtain ⟨s, t, hs, ht, rfl⟩ := evaluate_or.mp hv
    rw [evaluate_constant_boolean ht]
    cases s <;> exact hs
  · exact hv

theorem folds_fold (e : Expression) : Folds fn e (fold fn e) := by
  unfold fold
  split_ifs with h
  · have hc := columns_of_contains (by simpa using h)
    cases he : e.evaluate fn none with
    | error err =>
        intro row v hv
        rw [evaluate_of_columns hc, he] at hv
        cases hv
    | ok a =>
        intro row v hv
        rw [evaluate_of_columns hc, he] at hv
        exact hv
  · exact refines_logical e

/-- Folding the operands, then the expression. -/
theorem Folds.fold (hx : ∀ row v, e.evaluate fn row = .ok v → e'.evaluate fn row = .ok v) :
    Folds fn e (fold fn e') := by
  have h : Folds fn e' (ConstantFolding.fold fn e') := folds_fold e'
  cases hf : ConstantFolding.fold fn e' with
  | error err =>
      rw [hf] at h
      exact fun row v hv => h row v (hx row v hv)
  | ok e'' =>
      rw [hf] at h
      exact Refines.trans hx h

/-- Folding keeps the meaning. -/
theorem folds_foldAll (e : Expression) : Folds fn e (foldAll fn e) := by
  unfold foldAll
  induction e with
  | constant | column => exact folds_fold _
  | binary op l r hl hr =>
      rw [transformAfter]
      cases hfl : l.transformAfter (fold fn) with
      | error err =>
          intro row v hv
          obtain ⟨a, b, ha, _, _⟩ := evaluate_binary.mp hv
          rw [hfl] at hl
          exact hl row a ha
      | ok l' =>
          rw [hfl] at hl
          cases hfr : r.transformAfter (fold fn) with
          | error err =>
              intro row v hv
              obtain ⟨a, b, _, hb, _⟩ := evaluate_binary.mp hv
              rw [hfr] at hr
              exact hr row b hb
          | ok r' =>
              rw [hfr] at hr
              exact .fold (Refines.binary op hl hr)
  | unary op x hx =>
      rw [transformAfter]
      cases hfx : x.transformAfter (fold fn) with
      | error err =>
          intro row v hv
          obtain ⟨a, ha, _⟩ := evaluate_unary.mp hv
          rw [hfx] at hx
          exact hx row a ha
      | ok x' =>
          rw [hfx] at hx
          exact .fold (Refines.unary op hx)
  | is x value hx =>
      rw [transformAfter]
      cases hfx : x.transformAfter (fold fn) with
      | error err =>
          intro row v hv
          obtain ⟨a, ha, _⟩ := evaluate_is hv
          rw [hfx] at hx
          exact hx row a ha
      | ok x' =>
          rw [hfx] at hx
          exact .fold (Refines.is value hx)

/-- A folded expression has the value of the expression wherever that has one; if folding
fails, the expression has no value. -/
theorem foldAll_preserves (fn : Builtins) (e : Expression) (row : Row) :
    (∀ e', foldAll fn e = .ok e' → ∀ v, e.evaluate fn (some row) = .ok v →
        e'.evaluate fn (some row) = .ok v) ∧
      ∀ err, foldAll fn e = .error err → ∀ v, e.evaluate fn (some row) ≠ .ok v := by
  have h : Folds fn e (foldAll fn e) := folds_foldAll e
  constructor
  · intro e' he' v hv
    rw [he'] at h
    exact h _ v hv
  · intro err herr v hv
    rw [herr] at h
    exact h _ v hv

/-- `a AND (1 + 1 = 3)` is folded to FALSE. -/
example : foldAll Builtins.unused (.and (.column 0) (.equal
    (.binary .add (.constant (.integer 1)) (.constant (.integer 1))) (.constant (.integer 3)))) =
    .ok (.constant (.boolean false)) := by decide +kernel

end ConstantFolding
end ToyDB.Sql
