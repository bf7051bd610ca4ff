import ToyDB.Sql.Planner.Plan

/-!
# Optimizers

The optimizers that move predicates: `FilterPushdown` moves filters and join predicates
towards the scans, and `IndexLookup` replaces filtered scans by lookups. Pushing a filter
into its source removes a node, so the number of nodes bounds every rewrite.
-/
namespace ToyDB.Sql

/-! ## Filter pushdown -/

namespace FilterPushdown

/-- The nodes that take predicates. -/
def takes : Node → Bool
  | .filter _ _ | .nestedLoopJoin _ _ _ _ | .scan _ _ => true
  | _ => false

/-- Pushes a predicate into a node, if the node takes it. -/
def pushInto (expr : Expression) : Node → Option Node
  | .filter source predicate => some (.filter source (.and expr predicate))
  | .nestedLoopJoin left right (some predicate) outer =>
      some (.nestedLoopJoin left right (some (.and expr predicate)) outer)
  | .nestedLoopJoin left right none outer => some (.nestedLoopJoin left right (some expr) outer)
  | .scan table (some filter) => some (.scan table (some (.and expr filter)))
  | .scan table none => some (.scan table (some expr))
  | _ => none

/-- Whether an expression refers to columns below the given one. -/
def refLeft (columns : ℕ) (expr : Expression) : Bool :=
  expr.contains (Expression.isColumn fun i => i < columns)

/-- Whether an expression refers to columns from the given one on. -/
def refRight (columns : ℕ) (expr : Expression) : Bool :=
  expr.contains (Expression.isColumn fun i => columns ≤ i)

/-- The last column lookup of a column among predicates. -/
def lookupOf (column : ℕ) (exprs : List Expression) : Option Expression :=
  exprs.reverse.find? fun expr => expr.isColumnLookup = some column

/-- The columns of an equijoin, the lower one first. -/
def equijoin : Expression → Option (ℕ × ℕ)
  | .equal (.column l) (.column r) => some (if r < l then (r, l) else (l, r))
  | _ => none

/-- The column lookups that equijoins copy from one side to the other. -/
def copiesToRight (pushLeft predicate : List Expression) : List Expression :=
  predicate.filterMap fun expr => do
    let (l, r) ← equijoin expr
    let lookup ← lookupOf l pushLeft
    return lookup.replaceColumn l r

def copiesToLeft (pushRight predicate : List Expression) : List Expression :=
  predicate.filterMap fun expr => do
    let (l, r) ← equijoin expr
    let lookup ← lookupOf r pushRight
    return lookup.replaceColumn r l

/-- Pushes a predicate into the left source, or else adds it to those that stay. -/
def pushLeftInto (exprs predicate : List Expression) (left : Node) : Node × List Expression :=
  match Expression.andVec exprs with
  | none => (left, predicate)
  | some expr =>
      match pushInto expr left with
      | some left => (left, predicate)
      | none => (left, predicate ++ [expr])

/-- Pushes a predicate into the right source, whose columns are shifted in the joined row,
or else adds it to those that stay. -/
def pushRightInto (columns : ℕ) (exprs predicate : List Expression) (right : Node) :
    Node × List Expression :=
  match Expression.andVec exprs with
  | none => (right, predicate)
  | some expr =>
      let shifted := expr.shiftColumn (-columns)
      match pushInto shifted right with
      | some right => (right, predicate)
      | none => (right, predicate ++ [shifted.shiftColumn columns])

/-- The conjuncts that refer to both sources stay in the join. -/
def stays (columns : ℕ) (cnf : List Expression) : List Expression :=
  cnf.filter fun e => refLeft columns e && refRight columns e

/-- The conjuncts that do not refer to the right source; constants are pushed into both. -/
def goesLeft (columns : ℕ) (cnf : List Expression) : List Expression :=
  cnf.filter fun e => !refRight columns e

/-- The conjuncts that do not refer to the left source. -/
def goesRight (columns : ℕ) (cnf : List Expression) : List Expression :=
  cnf.filter fun e => !refLeft columns e

/-- The predicates to push into the left source. -/
def leftPredicates (columns : ℕ) (cnf : List Expression) : List Expression :=
  goesLeft columns cnf ++ copiesToLeft (goesRight columns cnf) (stays columns cnf)

/-- The predicates to push into the right source. -/
def rightPredicates (columns : ℕ) (cnf : List Expression) : List Expression :=
  goesRight columns cnf ++ copiesToRight (goesLeft columns cnf) (stays columns cnf)

/-- Pushes parts of a join predicate into the sources. -/
def maybePushJoin : Node → Node
  | .nestedLoopJoin left right (some predicate) outer =>
      let cnf := predicate.intoCnfVec
      let columns := left.columns
      let (left, predicate) :=
        pushLeftInto (leftPredicates columns cnf) (stays columns cnf) left
      let (right, predicate) :=
        pushRightInto columns (rightPredicates columns cnf) predicate right
      .nestedLoopJoin left right (Expression.andVec predicate) outer
  | node => node

/-- Pushes filter predicates down, for at most the given number of nested filters. -/
def pushFilters : ℕ → Node → Node
  | levels + 1, .filter source predicate =>
      match pushInto predicate source with
      | some source => maybePushJoin (pushFilters levels source)
      | none => .filter source predicate
  | _, node => maybePushJoin node

def optimize (node : Node) : Node :=
  node.transform (fun node => pushFilters node.size node) node.size

end FilterPushdown

/-! ## Index lookups -/

namespace IndexLookup

/-- The first column lookup by primary key or index from a position on. -/
def findLookup (table : Table) : ℕ → List Expression → Except Failure (Option (ℕ × ℕ))
  | _, [] => .ok none
  | i, expr :: cnf =>
      match expr.isColumnLookup with
      | none => findLookup table (i + 1) cnf
      | some c =>
          if c = table.primaryKey then .ok (some (i, c))
          else
            match table.columns[c]? with
            | none => panics "index out of bounds"
            | some column => if column.index then .ok (some (i, c)) else findLookup table (i + 1) cnf

/-- Rewrites a filtered scan into a key or index lookup, with a filter for the other
conjuncts. -/
def indexLookup : Node → Except Failure Node
  | .scan table (some filter) => do
      let cnf := filter.intoCnfVec
      match ← findLookup table 0 cnf with
      | none => return .scan table (some filter)
      | some (i, column) => do
          let values ← (cnf[i]?.map (Expression.intoColumnValues column)).getD (panics "removal index")
          let node := if column = table.primaryKey then Node.keyLookup table values
            else Node.indexLookup table column values
          match Expression.andVec (cnf.eraseIdx i) with
          | some predicate => return .filter node predicate
          | none => return node
  | node => return node

end IndexLookup
end ToyDB.Sql
