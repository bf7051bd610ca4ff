import ToyDB.Sql.Parser.Ast

/-!
# Syntax trees of statements

The statements that are planned, and the traversals of their expressions.
-/
namespace ToyDB.Sql.Ast

inductive JoinType where
  | cross
  | inner
  | left
  | right
  deriving DecidableEq

/-- Whether rows without a match are emitted, with NULLs for the match. -/
def JoinType.isOuter : JoinType → Bool
  | left | right => true
  | cross | inner => false

inductive Direction where
  | ascending
  | descending

/-- A FROM item: a table with an alias, or a join. A cross join has no predicate. -/
inductive From where
  | table (name : String) (alias' : Option String)
  | join (left right : From) (type : JoinType) (predicate : Option Expression)

/-- The column of a new table. -/
structure Column where
  name : String
  datatype : DataType
  primaryKey : Bool
  nullable : Option Bool
  default : Option Expression
  unique : Bool
  index : Bool
  references : Option String

structure Select where
  select : List (Expression × Option String)
  from' : List From
  where' : Option Expression
  groupBy : List Expression
  having : Option Expression
  orderBy : List (Expression × Direction)
  offset : Option Expression
  limit : Option Expression

/-- The statements that are planned. An update sets a column to its default if it has no
expression; the columns are in the order of their names. -/
inductive Statement where
  | createTable (name : String) (columns : List Column)
  | dropTable (name : String) (ifExists : Bool)
  | delete (table : String) (where' : Option Expression)
  | insert (table : String) (columns : Option (List String)) (values : List (List Expression))
  | update (table : String) (set : List (String × Option Expression)) (where' : Option Expression)
  | select (select : Select)

def Arguments.toList : Arguments → List Expression
  | nil => []
  | cons arg args => arg :: args.toList

def Arguments.length (args : Arguments) : ℕ := args.toList.length

/-! ## Traversals -/

mutual

/-- Visits the expression and its parts, until the visitor returns false. Of the arguments
of a function, they are visited until one returns true. -/
def Expression.walk {σ : Type} (visitor : Expression → σ → Bool × σ) :
    Expression → σ → Bool × σ
  | .binary op lhs rhs, s =>
      match visitor (.binary op lhs rhs) s with
      | (false, s) => (false, s)
      | (true, s) =>
          match lhs.walk visitor s with
          | (false, s) => (false, s)
          | (true, s) => rhs.walk visitor s
  | .unary op expr, s =>
      match visitor (.unary op expr) s with
      | (false, s) => (false, s)
      | (true, s) => expr.walk visitor s
  | .is expr value, s =>
      match visitor (.is expr value) s with
      | (false, s) => (false, s)
      | (true, s) => expr.walk visitor s
  | .function name args, s =>
      match visitor (.function name args) s with
      | (false, s) => (false, s)
      | (true, s) => args.walkAny visitor s
  | expr, s => visitor expr s

def Arguments.walkAny {σ : Type} (visitor : Expression → σ → Bool × σ) :
    Arguments → σ → Bool × σ
  | .nil, s => (false, s)
  | .cons arg args, s =>
      match arg.walk visitor s with
      | (true, s) => (true, s)
      | (false, s) => args.walkAny visitor s

end

/-- Whether the visitor holds of a visited part. -/
def Expression.contains (visitor : Expression → Bool) (self : Expression) : Bool :=
  !(self.walk (fun expr (_ : Unit) => (!visitor expr, ())) ()).1

mutual

/-- The outermost parts of which the visitor holds. -/
def Expression.collect (visitor : Expression → Bool) : Expression → List Expression
  | .binary op lhs rhs =>
      if visitor (.binary op lhs rhs) then [.binary op lhs rhs]
      else lhs.collect visitor ++ rhs.collect visitor
  | .unary op expr => if visitor (.unary op expr) then [.unary op expr] else expr.collect visitor
  | .is expr value => if visitor (.is expr value) then [.is expr value] else expr.collect visitor
  | .function name args =>
      if visitor (.function name args) then [.function name args] else args.collect visitor
  | expr => if visitor expr then [expr] else []

def Arguments.collect (visitor : Expression → Bool) : Arguments → List Expression
  | .nil => []
  | .cons arg args => arg.collect visitor ++ args.collect visitor

end

/-- Where a step keeps a property and so does what follows it, both do. -/
theorem keeps_next {σ : Type} {P : σ → Prop} {x : Bool × σ} {next : σ → Bool × σ}
    (hx : P x.2) (hnext : ∀ s, P s → P (next s).2) :
    P (match x with
      | (false, s) => (false, s)
      | (true, s) => next s).2 := by
  obtain ⟨_ | _, s⟩ := x
  · exact hx
  · exact hnext s hx

theorem keeps_other {σ : Type} {P : σ → Prop} {x : Bool × σ} {next : σ → Bool × σ}
    (hx : P x.2) (hnext : ∀ s, P s → P (next s).2) :
    P (match x with
      | (true, s) => (true, s)
      | (false, s) => next s).2 := by
  obtain ⟨_ | _, s⟩ := x
  · exact hnext s hx
  · exact hx

mutual

/-- What a visitor keeps, a traversal keeps. -/
theorem Expression.walk_keeps {σ : Type} {P : σ → Prop}
    {visitor : Expression → σ → Bool × σ} (h : ∀ expr s, P s → P (visitor expr s).2) :
    ∀ (expr : Expression) (s : σ), P s → P (expr.walk visitor s).2
  | .all, s, hs | .column _ _, s, hs | .literal _, s, hs => by
      unfold Expression.walk
      exact h _ s hs
  | .binary op lhs rhs, s, hs => by
      unfold Expression.walk
      exact keeps_next (h _ s hs) fun s hs =>
        keeps_next (Expression.walk_keeps h lhs s hs) (Expression.walk_keeps h rhs)
  | .unary op expr, s, hs => by
      unfold Expression.walk
      exact keeps_next (h _ s hs) (Expression.walk_keeps h expr)
  | .is expr value, s, hs => by
      unfold Expression.walk
      exact keeps_next (h _ s hs) (Expression.walk_keeps h expr)
  | .function name args, s, hs => by
      unfold Expression.walk
      exact keeps_next (h _ s hs) (Arguments.walkAny_keeps h args)

theorem Arguments.walkAny_keeps {σ : Type} {P : σ → Prop}
    {visitor : Expression → σ → Bool × σ} (h : ∀ expr s, P s → P (visitor expr s).2) :
    ∀ (args : Arguments) (s : σ), P s → P (args.walkAny visitor s).2
  | .nil, s, hs => hs
  | .cons arg args, s, hs => by
      unfold Arguments.walkAny
      exact keeps_other (Expression.walk_keeps h arg s hs) (Arguments.walkAny_keeps h args)

end

end ToyDB.Sql.Ast
