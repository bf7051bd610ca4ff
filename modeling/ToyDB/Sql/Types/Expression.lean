import ToyDB.Sql.Types.Arithmetic

/-!
# Expressions

Expressions over the columns of a row, their evaluation, and the rewrites that the
optimizers use. The source's constructors are grouped by the number of their operands.
A rewrite applies a function to an expression before it descends; it is given the
number of levels it may descend, which bounds the whole expression.
-/
namespace ToyDB.Sql

inductive BinaryOperator where
  | and | or
  | equal | greaterThan | lessThan
  | add | divide | exponentiate | multiply | remainder | subtract
  | like
  deriving DecidableEq, Repr

inductive UnaryOperator where
  | not
  | factorial | identity | negate | squareRoot
  deriving DecidableEq, Repr

inductive Expression where
  | constant (value : Value)
  | column (index : ℕ)
  | binary (op : BinaryOperator) (lhs rhs : Expression)
  | unary (op : UnaryOperator) (expr : Expression)
  | is (expr : Expression) (value : Value)
  deriving DecidableEq, Repr

def BinaryOperator.apply (fn : Builtins) : BinaryOperator → Value → Value → Except Failure Value
  | and => Value.and
  | or => Value.or
  | equal => Value.equal
  | greaterThan => Value.greaterThan
  | lessThan => Value.lessThan
  | add => Value.checkedAdd fn
  | divide => Value.checkedDiv fn
  | exponentiate => Value.checkedPow fn
  | multiply => Value.checkedMul fn
  | remainder => Value.checkedRem fn
  | subtract => Value.checkedSub fn
  | like => Value.like fn

def UnaryOperator.apply (fn : Builtins) : UnaryOperator → Value → Except Failure Value
  | not => Value.not
  | factorial => Value.factorial fn
  | identity => Value.identity
  | negate => Value.negate
  | squareRoot => Value.squareRoot fn

namespace Expression

@[match_pattern] abbrev and (lhs rhs : Expression) : Expression := binary .and lhs rhs
@[match_pattern] abbrev or (lhs rhs : Expression) : Expression := binary .or lhs rhs
@[match_pattern] abbrev equal (lhs rhs : Expression) : Expression := binary .equal lhs rhs
@[match_pattern] abbrev not (expr : Expression) : Expression := unary .not expr

/-- The value of an expression on a row. -/
def evaluate (fn : Builtins) (row : Option Row) : Expression → Except Failure Value
  | constant value => .ok value
  | column index =>
      match row.bind fun row => row[index]? with
      | some value => .ok value
      | none => panics "invalid index"
  | binary op lhs rhs => do
      let lhs ← lhs.evaluate fn row
      let rhs ← rhs.evaluate fn row
      op.apply fn lhs rhs
  | unary op expr => do
      let value ← expr.evaluate fn row
      op.apply fn value
  | is expr .null => do
      let value ← expr.evaluate fn row
      return value.isNull
  | is expr (.float f) =>
      if f.isNan then do
        let value ← expr.evaluate fn row
        value.isNan
      else panics s!"invalid IS value {(Value.float f).display}"
  | is _ value => panics s!"invalid IS value {value.display}"

/-- Visits the expression and its parts until the visitor returns false. -/
def walk (visitor : Expression → Bool) : Expression → Bool
  | binary op lhs rhs => visitor (binary op lhs rhs) && lhs.walk visitor && rhs.walk visitor
  | unary op expr => visitor (unary op expr) && expr.walk visitor
  | is expr value => visitor (is expr value) && expr.walk visitor
  | expr => visitor expr

def contains (visitor : Expression → Bool) (self : Expression) : Bool :=
  !self.walk fun expr => !visitor expr

/-- The expression is a column whose index satisfies the predicate. -/
def isColumn (p : ℕ → Bool) : Expression → Bool
  | column index => p index
  | _ => false

/-- Applies a function to the operands. -/
def mapOperands (f : Expression → Expression) : Expression → Expression
  | binary op lhs rhs => binary op (f lhs) (f rhs)
  | unary op expr => unary op (f expr)
  | is expr value => is (f expr) value
  | expr => expr

/-- Rewrites an expression before descending into its operands. -/
def transform (before : Expression → Expression) : ℕ → Expression → Expression
  | 0, self => self
  | levels + 1, self => (before self).mapOperands (transform before levels)

/-- The number of operators and operands. -/
def size : Expression → ℕ
  | binary _ lhs rhs => lhs.size + rhs.size + 1
  | unary _ expr => expr.size + 1
  | is expr _ => expr.size + 1
  | _ => 1

/-- Moves a negation below a logical operator. -/
def pushNot : Expression → Expression
  | not (and lhs rhs) => or (not lhs) (not rhs)
  | not (or lhs rhs) => and (not lhs) (not rhs)
  | not (not inner) => inner
  | expr => expr

/-- Converts towards negation normal form. -/
def intoNnf (self : Expression) : Expression := self.transform pushNot self.size

/-- Moves a disjunction below a conjunction. -/
def distribute : Expression → Expression
  | or (and l r) rhs => and (or l rhs) (or r rhs)
  | or lhs (and l r) => and (or lhs l) (or lhs r)
  | expr => expr

/-- Distributing disjunctions decreases the weights of the operands. -/
def weight : Expression → ℕ
  | or lhs rhs => lhs.weight * rhs.weight
  | binary _ lhs rhs => lhs.weight + rhs.weight + 1
  | unary _ expr => expr.weight + 1
  | is expr _ => expr.weight + 1
  | _ => 2

/-- Converts towards conjunctive normal form. -/
def intoCnf (self : Expression) : Expression :=
  let nnf := self.intoNnf
  nnf.transform distribute nnf.weight

/-- The operands of nested conjunctions, from left to right. -/
def conjuncts : Expression → List Expression
  | and lhs rhs => lhs.conjuncts ++ rhs.conjuncts
  | expr => [expr]

def intoCnfVec (self : Expression) : List Expression := self.intoCnf.conjuncts

/-- The conjunction of the expressions, if there are any. -/
def andVec : List Expression → Option Expression
  | [] => none
  | expr :: exprs => some (exprs.foldl and expr)

/-- The column of a disjunction of lookups in a single column. -/
def isColumnLookup : Expression → Option ℕ
  | equal (column c) (constant _) => some c
  | equal (constant _) (column c) => some c
  | is (column c) _ => some c
  | or lhs rhs =>
      match lhs.isColumnLookup, rhs.isColumnLookup with
      | some l, some r => if l = r then some l else none
      | _, _ => none
  | _ => none

/-- The values of a column lookup; equality with NULL or NaN finds nothing. -/
def intoColumnValues (index : ℕ) : Expression → Except Failure (List Value)
  | equal (column c) (constant value) | equal (constant value) (column c) =>
      if c = index then .ok (if value.isUndefined then [] else [value])
      else panics "unexpected column"
  | is (column c) value => if c = index then .ok [value] else panics "unexpected column"
  | or lhs rhs => do
      let values ← lhs.intoColumnValues index
      let others ← rhs.intoColumnValues index
      return values ++ others
  | _ => panics "unexpected expression"

/-- Applies a function to the index of a column. -/
def onColumn (f : ℕ → ℕ) : Expression → Expression
  | column index => column (f index)
  | expr => expr

/-- Replaces references to a column. -/
def replaceColumn (self : Expression) (source target : ℕ) : Expression :=
  self.transform (onColumn fun i => if i = source then target else i) self.size

/-- Shifts column references. -/
def shiftColumn (self : Expression) (diff : ℤ) : Expression :=
  self.transform (onColumn fun i => (i + diff).toNat) self.size

end Expression
end ToyDB.Sql
