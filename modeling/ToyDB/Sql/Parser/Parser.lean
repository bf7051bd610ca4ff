import ToyDB.Sql.Parser.Lexer

/-!
# The expression parser

Precedence climbing over the tokens of an expression. The parser is given a number of
calls that it may nest.
-/
namespace ToyDB.Sql

abbrev Precedence := ℕ

inductive Associativity where
  | left
  | right
  deriving DecidableEq

/-- Left-associative operators bind tighter to their left operand. -/
def Associativity.bonus : Associativity → Precedence
  | left => 1
  | right => 0

inductive PrefixOperator where
  | minus
  | not
  | plus
  deriving DecidableEq

namespace PrefixOperator

def precedence : PrefixOperator → Precedence
  | not => 3
  | minus | plus => 10

def associativity (_ : PrefixOperator) : Associativity := .right

def intoExpression : PrefixOperator → Ast.Expression → Ast.Expression
  | plus => .unary .identity
  | minus => .unary .negate
  | not => .unary .not

def ofToken : Token → Option PrefixOperator
  | .keyword .not => some not
  | .minus => some minus
  | .plus => some plus
  | _ => none

end PrefixOperator

/-- The infix operators are the binary ones. -/
abbrev InfixOperator := Ast.BinaryOperator

namespace InfixOperator

def precedence : InfixOperator → Precedence
  | .or => 1
  | .and => 2
  | .equal | .notEqual | .like => 4
  | .greaterThan | .greaterThanOrEqual | .lessThan | .lessThanOrEqual => 5
  | .add | .subtract => 6
  | .multiply | .divide | .remainder => 7
  | .exponentiate => 8

def associativity : InfixOperator → Associativity
  | .exponentiate => .right
  | _ => .left

def intoExpression (op : InfixOperator) (lhs rhs : Ast.Expression) : Ast.Expression := .binary op lhs rhs

def ofToken : Token → Option InfixOperator
  | .asterisk => some .multiply
  | .caret => some .exponentiate
  | .equal => some .equal
  | .greaterThan => some .greaterThan
  | .greaterThanOrEqual => some .greaterThanOrEqual
  | .keyword .and => some .and
  | .keyword .like => some .like
  | .keyword .or => some .or
  | .lessOrGreaterThan => some .notEqual
  | .lessThan => some .lessThan
  | .lessThanOrEqual => some .lessThanOrEqual
  | .minus => some .subtract
  | .notEqual => some .notEqual
  | .percent => some .remainder
  | .plus => some .add
  | .slash => some .divide
  | _ => none

end InfixOperator

inductive PostfixOperator where
  | factorial
  | is (value : Ast.Literal)
  | isNot (value : Ast.Literal)
  deriving DecidableEq

namespace PostfixOperator

def precedence : PostfixOperator → Precedence
  | is _ | isNot _ => 4
  | factorial => 9

def intoExpression : PostfixOperator → Ast.Expression → Ast.Expression
  | factorial, lhs => .unary .factorial lhs
  | is value, lhs => .is lhs value
  | isNot value, lhs => .unary .not (.is lhs value)

end PostfixOperator

/-- The standard library's reading of numbers with a fraction or an exponent. -/
structure Numbers where
  parseFloat : List Char → Option F64

namespace Parser

/-- The value of decimal digits. -/
def digitsValue (digits : List Char) : ℕ :=
  digits.foldl (fun n c => 10 * n + (c.toNat - '0'.toNat)) 0

def parseInteger (digits : List Char) : Except Failure Int64 :=
  if digitsValue digits < 2 ^ 63 then .ok (Int64.ofNat (digitsValue digits))
  else invalid "number too large to fit in target type"

/-- The expression of a token that is one on its own. -/
def atomExpression (numbers : Numbers) : Token → Except Failure Ast.Expression
  | .asterisk => .ok .all
  | .number text =>
      if text.all Char.isDigit then (parseInteger text).map fun i => .literal (.integer i)
      else
        match numbers.parseFloat text with
        | some f => .ok (.literal (.float f))
        | none => invalid "invalid float literal"
  | .string text => .ok (.literal (.string (String.ofList text)))
  | .keyword .true => .ok (.literal (.boolean true))
  | .keyword .false => .ok (.literal (.boolean false))
  | .keyword .infinity => .ok (.literal (.float ⟨0x7ff0000000000000⟩))
  | .keyword .nan => .ok (.literal (.float ⟨0x7ff8000000000000⟩))
  | .keyword .null => .ok (.literal .null)
  | token => invalid s!"expected expression atom, found {token.display}"

/-- Takes the next token. -/
def next : List Token → Except Failure (Token × List Token)
  | [] => invalid "unexpected end of input"
  | token :: tokens => .ok (token, tokens)

def nextIdent (tokens : List Token) : Except Failure (List Char × List Token) := do
  match ← next tokens with
  | (.ident name, tokens) => return (name, tokens)
  | (token, _) => invalid s!"expected identifier, got {token.display}"

/-- Takes the expected token. -/
def expect (token : Token) (tokens : List Token) : Except Failure (List Token) := do
  let (found, tokens) ← next tokens
  if found = token then return tokens
  else invalid s!"expected token {token.display}, found {found.display}"

/-- A prefix operator of at least this precedence. -/
def parsePrefixOperatorAt (min : Precedence) : List Token → Option (PrefixOperator × List Token)
  | [] => none
  | token :: tokens =>
      match PrefixOperator.ofToken token with
      | some op => if min ≤ op.precedence then some (op, tokens) else none
      | none => none

/-- An infix operator of at least this precedence. -/
def parseInfixOperatorAt (min : Precedence) : List Token → Option (InfixOperator × List Token)
  | [] => none
  | token :: tokens =>
      match InfixOperator.ofToken token with
      | some op => if min ≤ op.precedence then some (op, tokens) else none
      | none => none

/-- What is tested by IS. -/
def isValue : Token → Except Failure Ast.Literal
  | .keyword .nan => .ok (.float ⟨0x7ff8000000000000⟩)
  | .keyword .null => .ok .null
  | token => invalid s!"unexpected token {token.display}"

/-- A postfix operator of at least this precedence. -/
def parsePostfixOperatorAt (min : Precedence) :
    List Token → Except Failure (Option (PostfixOperator × List Token))
  | .keyword .is :: tokens =>
      if (PostfixOperator.is .null).precedence < min then .ok none
      else
        match tokens with
        | .keyword .not :: tokens => do
            let (token, tokens) ← next tokens
            let value ← isValue token
            return some (.isNot value, tokens)
        | tokens => do
            let (token, tokens) ← next tokens
            let value ← isValue token
            return some (.is value, tokens)
  | .exclamation :: tokens =>
      .ok (if min ≤ PostfixOperator.factorial.precedence then some (.factorial, tokens) else none)
  | _ => .ok none

/-- Applies postfix operators, as often as there are tokens. -/
def parsePostfixOperators (min : Precedence) : ℕ → Ast.Expression → List Token →
    Except Failure (Ast.Expression × List Token)
  | 0, lhs, tokens => .ok (lhs, tokens)
  | n + 1, lhs, tokens => do
      match ← parsePostfixOperatorAt min tokens with
      | some (op, tokens) => parsePostfixOperators min n (op.intoExpression lhs) tokens
      | none => return (lhs, tokens)

mutual

/-- Parses an expression at the minimum precedence. -/
def parseExpressionAt (numbers : Numbers) : ℕ → Precedence → List Token →
    Except Failure (Ast.Expression × List Token)
  | 0, _, _ => panics "stack overflow"
  | calls + 1, min, tokens => do
      let (lhs, tokens) ← (match parsePrefixOperatorAt min tokens with
        | some (op, tokens) => do
            let (rhs, tokens) ← parseExpressionAt numbers calls
              (op.precedence + op.associativity.bonus) tokens
            return (op.intoExpression rhs, tokens)
        | none => parseExpressionAtom numbers calls tokens)
      let (lhs, tokens) ← parsePostfixOperators min tokens.length lhs tokens
      let (lhs, tokens) ← parseInfixOperators numbers calls min lhs tokens
      parsePostfixOperators min tokens.length lhs tokens

/-- Applies infix operators. -/
def parseInfixOperators (numbers : Numbers) : ℕ → Precedence → Ast.Expression → List Token →
    Except Failure (Ast.Expression × List Token)
  | 0, _, _, _ => panics "stack overflow"
  | calls + 1, min, lhs, tokens =>
      match parseInfixOperatorAt min tokens with
      | some (op, tokens) => do
          let (rhs, tokens) ← parseExpressionAt numbers calls
            (op.precedence + op.associativity.bonus) tokens
          parseInfixOperators numbers calls min (op.intoExpression lhs rhs) tokens
      | none => .ok (lhs, tokens)

def parseExpressionAtom (numbers : Numbers) : ℕ → List Token →
    Except Failure (Ast.Expression × List Token)
  | 0, _ => panics "stack overflow"
  | calls + 1, tokens => do
      match ← next tokens with
      | (.ident name, .openParen :: tokens) => do
          let (args, tokens) ← parseArguments numbers calls true tokens
          return (.function (String.ofList name) args, tokens)
      | (.ident table, .period :: tokens) => do
          let (name, tokens) ← nextIdent tokens
          return (.column (some (String.ofList table)) (String.ofList name), tokens)
      | (.ident name, tokens) => return (.column none (String.ofList name), tokens)
      | (.openParen, tokens) => do
          let (expr, tokens) ← parseExpressionAt numbers calls 0 tokens
          let tokens ← expect .closeParen tokens
          return (expr, tokens)
      | (token, tokens) => do
          let expr ← atomExpression numbers token
          return (expr, tokens)

/-- The arguments of a function up to the closing parenthesis, separated by commas. -/
def parseArguments (numbers : Numbers) : ℕ → Bool → List Token →
    Except Failure (Ast.Arguments × List Token)
  | 0, _, _ => panics "stack overflow"
  | calls + 1, first, tokens =>
      match tokens with
      | .closeParen :: tokens => .ok (.nil, tokens)
      | tokens => do
          let tokens ← (if first then .ok tokens else expect .comma tokens)
          let (arg, tokens) ← parseExpressionAt numbers calls 0 tokens
          let (args, tokens) ← parseArguments numbers calls false tokens
          return (.cons arg args, tokens)

end

/-- An expression with the tokens behind it. -/
def parseExpression (numbers : Numbers) (tokens : List Token) :
    Except Failure (Ast.Expression × List Token) :=
  parseExpressionAt numbers (2 * tokens.length + 1) 0 tokens

/-- The expression that is the whole text. -/
def parseExpr (unicode : Unicode) (numbers : Numbers) (text : List Char) :
    Except Failure Ast.Expression := do
  let tokens ← Lexer.tokens unicode text
  match ← parseExpression numbers tokens with
  | (expr, []) => return expr
  | (_, token :: _) => invalid s!"unexpected token {token.display}"

end Parser
end ToyDB.Sql
