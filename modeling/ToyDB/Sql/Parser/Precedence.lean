import ToyDB.Sql.Parser.Scanning
import ToyDB.Sql.Parser.Unambiguous

/-!
# Precedence and associativity

A printed expression is read back if and only if no infix operator follows, at the same
level, a postfix operator on infix operators.
-/
namespace ToyDB.Sql.Parser

/-- The text of an expression with only the parentheses that it requires. -/
def Tree.print {numbers : Numbers} (x : Tree numbers) : List Char := textOf (x.minimal 0).tokens

/-- Printing and parsing give the expression back if and only if the parser can climb it. -/
theorem parseExpr_print_iff {numbers : Numbers} (unicode : Unicode) (x : Tree numbers)
    (h : ∀ token ∈ (x.minimal 0).tokens, token.Scannable) :
    parseExpr unicode numbers x.print = .ok x.expression ↔ (x.minimal 0).Climbs := by
  have htokens : Lexer.tokens unicode x.print = .ok (x.minimal 0).tokens :=
    Lexer.tokens_textOf unicode h
  unfold parseExpr
  rw [htokens]
  constructor
  · intro hok
    obtain ⟨tokens, heq, hread⟩ := bind_eq_ok.mp hok
    cases heq
    obtain ⟨⟨expr, rest⟩, hexpr, hdone⟩ := bind_eq_ok.mp hread
    cases rest with
    | nil =>
        cases hdone
        rw [← Tree.expression_minimal x 0] at hexpr
        exact climbs_of_parse hexpr
    | cons token rest => cases hdone
  · intro hclimbs
    have hparse := parseExpression_minimal x hclimbs
    simp only [bind, Except.bind, hparse]
    rfl

section Tested

/-- Numbers of which none is a float. -/
def integers : Numbers := ⟨fun _ => none⟩

def one : Tree integers := .atom ⟨.number ['1'], .literal (.integer 1), rfl⟩

def null : Tree integers := .atom ⟨.keyword .null, .literal .null, rfl⟩

def truth : Tree integers := .atom ⟨.keyword .true, .literal (.boolean true), rfl⟩

def isNull : Suffix := .is ⟨.keyword .null, .null, rfl⟩

/-- `1 + NULL IS NULL`. -/
def sumIsNull : Tree integers := .after isNull (.between ⟨.plus, .add, rfl⟩ one null)

/-- `1 + NULL IS NULL AND TRUE`. -/
def sumIsNullAnd : Tree integers := .between ⟨.keyword .and, .and, rfl⟩ sumIsNull truth

/-- A sum is tested for NULL. -/
theorem parseExpr_sumIsNull :
    (∀ token ∈ (sumIsNull.minimal 0).tokens, token.Scannable) ∧
      (parseExpr Unicode.ascii integers sumIsNull.print = .ok sumIsNull.expression ↔
        (sumIsNull.minimal 0).Climbs) := by
  have h : ∀ token ∈ (sumIsNull.minimal 0).tokens, token.Scannable := by
    intro token htoken
    have htokens : (sumIsNull.minimal 0).tokens =
        [.number ['1'], .plus, .keyword .null, .keyword .is, .keyword .null] := rfl
    rw [htokens] at htoken
    rcases List.mem_cons.mp htoken with rfl | htoken
    · exact ⟨rfl, rfl⟩
    · simp only [List.mem_cons, List.not_mem_nil, or_false] at htoken
      rcases htoken with rfl | rfl | rfl | rfl <;> trivial
  exact ⟨h, parseExpr_print_iff Unicode.ascii sumIsNull h⟩

/-- Nothing is read behind the test of a sum for NULL. -/
theorem parseExpr_sumIsNullAnd :
    sumIsNullAnd.print = "1 + null is null and true ".toList ∧
      parseExpr Unicode.ascii integers sumIsNullAnd.print ≠ .ok sumIsNullAnd.expression := by
  decide +kernel

end Tested

end ToyDB.Sql.Parser
