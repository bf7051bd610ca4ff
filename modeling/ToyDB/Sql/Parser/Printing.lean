import ToyDB.Sql.Parser.Parser

/-!
# Printed expressions

An expression as it is written, with its parentheses, and the one written with only the
parentheses that precedence and associativity require.
-/
namespace ToyDB.Sql

namespace PrefixOperator

def token : PrefixOperator → Token
  | minus => .minus
  | not => .keyword .not
  | plus => .plus

/-- The precedence that the operand needs. -/
def operand (op : PrefixOperator) : Precedence := op.precedence + op.associativity.bonus

end PrefixOperator

namespace InfixOperator

/-- The precedence that the left operand needs. -/
def left (op : InfixOperator) : Precedence :=
  op.precedence + if op.associativity = .right then 1 else 0

/-- The precedence that the right operand needs. -/
def right (op : InfixOperator) : Precedence := op.precedence + op.associativity.bonus

end InfixOperator

namespace Parser
variable {numbers : Numbers}

/-- A token that is an expression. -/
structure Atom (numbers : Numbers) where
  token : Token
  expression : Ast.Expression
  reads : atomExpression numbers token = .ok expression

/-- A token that is an infix operator. -/
structure InfixToken where
  token : Token
  operator : InfixOperator
  reads : InfixOperator.ofToken token = some operator

/-- A token that can be tested by IS. -/
structure IsToken where
  token : Token
  value : Ast.Literal
  reads : isValue token = .ok value

inductive Suffix where
  | factorial
  | is (value : IsToken)
  | isNot (value : IsToken)

namespace Suffix

def tokens : Suffix → List Token
  | factorial => [.exclamation]
  | is value => [.keyword .is, value.token]
  | isNot value => [.keyword .is, .keyword .not, value.token]

def operator : Suffix → PostfixOperator
  | factorial => .factorial
  | is value => .is value.value
  | isNot value => .isNot value.value

end Suffix

mutual

/-- An expression as it is written. -/
inductive Tree (numbers : Numbers) where
  | atom (atom : Atom numbers)
  | column (table : Option (List Char)) (name : List Char)
  | call (name : List Char) (args : Trees numbers)
  | paren (tree : Tree numbers)
  | before (op : PrefixOperator) (tree : Tree numbers)
  | between (op : InfixToken) (lhs rhs : Tree numbers)
  | after (op : Suffix) (tree : Tree numbers)

inductive Trees (numbers : Numbers) where
  | nil
  | cons (tree : Tree numbers) (trees : Trees numbers)

end

mutual

def Tree.expression : Tree numbers → Ast.Expression
  | .atom a => a.expression
  | .column table name => .column (table.map String.ofList) (String.ofList name)
  | .call name args => .function (String.ofList name) args.expressions
  | .paren x => x.expression
  | .before op x => op.intoExpression x.expression
  | .between op l r => op.operator.intoExpression l.expression r.expression
  | .after op x => op.operator.intoExpression x.expression

def Trees.expressions : Trees numbers → Ast.Arguments
  | .nil => .nil
  | .cons x xs => .cons x.expression xs.expressions

end

mutual

def Tree.tokens : Tree numbers → List Token
  | .atom a => [a.token]
  | .column none name => [.ident name]
  | .column (some table) name => [.ident table, .period, .ident name]
  | .call name args => .ident name :: .openParen :: (args.tokens true ++ [.closeParen])
  | .paren x => .openParen :: (x.tokens ++ [.closeParen])
  | .before op x => op.token :: x.tokens
  | .between op l r => l.tokens ++ op.token :: r.tokens
  | .after op x => x.tokens ++ op.tokens

/-- The arguments are separated by commas. -/
def Trees.tokens : Bool → Trees numbers → List Token
  | _, .nil => []
  | first, .cons x xs => (if first then [] else [.comma]) ++ (x.tokens ++ xs.tokens false)

end

/-- Parentheses if an operator of this precedence stands where another one is needed. -/
def wrap (needed precedence : Precedence) (x : Tree numbers) : Tree numbers :=
  if precedence < needed then .paren x else x

mutual

/-- The expression with only the parentheses that it requires where this precedence is
needed. -/
def Tree.minimal : Precedence → Tree numbers → Tree numbers
  | _, .atom a => .atom a
  | _, .column table name => .column table name
  | _, .call name args => .call name args.minimal
  | needed, .paren x => x.minimal needed
  | needed, .before op x => wrap needed op.precedence (.before op (x.minimal op.operand))
  | needed, .between op l r => wrap needed op.operator.precedence
      (.between op (l.minimal op.operator.left) (r.minimal op.operator.right))
  | needed, .after op x => wrap needed op.operator.precedence
      (.after op (x.minimal op.operator.precedence))

def Trees.minimal : Trees numbers → Trees numbers
  | .nil => .nil
  | .cons x xs => .cons (x.minimal 0) xs.minimal

end

/-- How far the parser is when it has read an expression: at its operand with postfix
operators, behind infix operators, or behind postfix operators on these. -/
inductive Stage where
  | operand
  | chain
  | tested
  deriving DecidableEq

def Tree.stage : Tree numbers → Stage
  | .between _ _ _ => .chain
  | .after _ x => if x.stage = .operand then .operand else .tested
  | _ => .operand

mutual

/-- No infix operator follows, at the same level, a postfix operator on infix operators. -/
def Tree.Climbs : Tree numbers → Prop
  | .atom _ => True
  | .column _ _ => True
  | .call _ args => args.Climb
  | .paren x => x.Climbs
  | .before _ x => x.Climbs
  | .between _ l r => l.Climbs ∧ r.Climbs ∧ l.stage ≠ .tested
  | .after _ x => x.Climbs

def Trees.Climb : Trees numbers → Prop
  | .nil => True
  | .cons x xs => x.Climbs ∧ xs.Climb

end

@[simp] theorem wrap_expression (needed precedence : Precedence) (x : Tree numbers) :
    (wrap needed precedence x).expression = x.expression := by
  unfold wrap
  split_ifs
  · rw [Tree.expression]
  · rfl

mutual

/-- Parentheses do not change the expression. -/
theorem Tree.expression_minimal : ∀ (x : Tree numbers) (needed : Precedence),
    (x.minimal needed).expression = x.expression
  | .atom a, _ => rfl
  | .column table name, _ => rfl
  | .call name args, _ => by
      rw [Tree.minimal, Tree.expression, Tree.expression, Trees.expressions_minimal args]
  | .paren x, needed => by
      rw [Tree.minimal, Tree.expression, Tree.expression_minimal x needed]
  | .before op x, _ => by
      rw [Tree.minimal, wrap_expression, Tree.expression, Tree.expression, Tree.expression_minimal x]
  | .between op l r, _ => by
      rw [Tree.minimal, wrap_expression, Tree.expression, Tree.expression, Tree.expression_minimal l,
        Tree.expression_minimal r]
  | .after op x, _ => by
      rw [Tree.minimal, wrap_expression, Tree.expression, Tree.expression, Tree.expression_minimal x]

theorem Trees.expressions_minimal : ∀ xs : Trees numbers,
    xs.minimal.expressions = xs.expressions
  | .nil => rfl
  | .cons x xs => by
      rw [Trees.minimal, Trees.expressions, Trees.expressions, Tree.expression_minimal x,
        Trees.expressions_minimal xs]

end

end Parser
end ToyDB.Sql
