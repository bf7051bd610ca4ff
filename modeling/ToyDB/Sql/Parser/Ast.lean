import ToyDB.Sql.Types.Value

/-!
# Syntax trees of expressions

The operators are grouped by the number of their operands. Literals are equal if they are
the same value, NULL and NaN included.
-/
namespace ToyDB.Sql.Ast

inductive Literal where
  | null
  | boolean (b : Bool)
  | integer (i : Int64)
  | float (f : F64)
  | string (s : String)
  deriving DecidableEq

inductive BinaryOperator where
  | and | or
  | equal | greaterThan | greaterThanOrEqual | lessThan | lessThanOrEqual | notEqual
  | add | divide | exponentiate | multiply | remainder | subtract
  | like
  deriving DecidableEq

inductive UnaryOperator where
  | not
  | factorial | identity | negate
  deriving DecidableEq

mutual

inductive Expression where
  /-- All columns, i.e. `*`. -/
  | all
  /-- A column, with its table if it is qualified. -/
  | column (table : Option String) (name : String)
  | literal (value : Literal)
  | function (name : String) (args : Arguments)
  | binary (op : BinaryOperator) (lhs rhs : Expression)
  | unary (op : UnaryOperator) (expr : Expression)
  /-- IS NULL or IS NAN. -/
  | is (expr : Expression) (value : Literal)

inductive Arguments where
  | nil
  | cons (arg : Expression) (args : Arguments)

end

deriving instance DecidableEq for Expression, Arguments

end ToyDB.Sql.Ast
