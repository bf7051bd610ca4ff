import ToyDB.Sql.Types.Expression
import ToyDB.Sql.Types.Schema

/-!
# Query plans

The nodes of a query plan. The aliases of tables and the labels of a `nothing` node only
serve to display a plan and are left out; a `nothing` node keeps the number of its labels.
-/
namespace ToyDB.Sql

/-- A column label. -/
inductive Label where
  | none
  | unqualified (name : String)
  | qualified (table name : String)
  deriving DecidableEq

inductive Direction where
  | ascending
  | descending
  deriving DecidableEq

inductive AggregateFunction where
  | average
  | count
  | max
  | min
  | sum
  deriving DecidableEq

/-- An aggregate function of an expression. -/
structure Aggregate where
  function : AggregateFunction
  expr : Expression
  deriving DecidableEq

inductive Node where
  | aggregate (source : Node) (groupBy : List Expression) (aggregates : List Aggregate)
  | filter (source : Node) (predicate : Expression)
  | hashJoin (left : Node) (leftColumn : ℕ) (right : Node) (rightColumn : ℕ) (outer : Bool)
  | indexLookup (table : Table) (column : ℕ) (values : List Value)
  | keyLookup (table : Table) (keys : List Value)
  | limit (source : Node) (limit : ℕ)
  | nestedLoopJoin (left right : Node) (predicate : Option Expression) (outer : Bool)
  | nothing (columns : ℕ)
  | offset (source : Node) (offset : ℕ)
  | order (source : Node) (key : List (Expression × Direction))
  | projection (source : Node) (expressions : List Expression) (aliases : List Label)
  | remap (source : Node) (targets : List (Option ℕ))
  | scan (table : Table) (filter : Option Expression)
  | values (rows : List (List Expression))
  deriving DecidableEq

namespace Node

/-- The number of columns after remapping: one more than the highest target. -/
def remapSize (targets : List (Option ℕ)) : ℕ :=
  (targets.map fun target => target.elim 0 (· + 1)).foldr max 0

/-- The number of columns that the node emits. -/
def columns : Node → ℕ
  | indexLookup table _ _ | keyLookup table _ | scan table _ => table.columns.length
  | aggregate _ groupBy aggregates => aggregates.length + groupBy.length
  | projection _ expressions _ => expressions.length
  | remap _ targets => remapSize targets
  | hashJoin left _ right _ _ => left.columns + right.columns
  | nestedLoopJoin left right _ _ => left.columns + right.columns
  | nothing columns => columns
  | values rows => (rows.head?.map List.length).getD 0
  | filter source _ => source.columns
  | limit source _ => source.columns
  | offset source _ => source.columns
  | order source _ => source.columns

/-- Applies a function to the sources. -/
def mapSources (f : Node → Node) : Node → Node
  | aggregate source groupBy aggregates => aggregate (f source) groupBy aggregates
  | filter source predicate => filter (f source) predicate
  | hashJoin left leftColumn right rightColumn outer =>
      hashJoin (f left) leftColumn (f right) rightColumn outer
  | limit source n => limit (f source) n
  | nestedLoopJoin left right predicate outer => nestedLoopJoin (f left) (f right) predicate outer
  | offset source n => offset (f source) n
  | order source key => order (f source) key
  | projection source expressions aliases => projection (f source) expressions aliases
  | remap source targets => remap (f source) targets
  | node => node

def sources : Node → List Node
  | hashJoin left _ right _ _ => [left, right]
  | nestedLoopJoin left right _ _ => [left, right]
  | aggregate source _ _ => [source]
  | filter source _ => [source]
  | limit source _ => [source]
  | offset source _ => [source]
  | order source _ => [source]
  | projection source _ _ => [source]
  | remap source _ => [source]
  | _ => []

/-- What the sources pass on to a node holds of all nodes. -/
theorem sources_induction {P : Node → Prop}
    (h : ∀ node, (∀ source ∈ node.sources, P source) → P node) (node : Node) : P node := by
  induction node with
  | hashJoin left _ right _ _ ihl ihr =>
      apply h
      simp [sources, ihl, ihr]
  | nestedLoopJoin left right _ _ ihl ihr =>
      apply h
      simp [sources, ihl, ihr]
  | aggregate source _ _ ih | filter source _ ih | limit source _ ih | offset source _ ih
    | order source _ ih | projection source _ _ ih | remap source _ ih =>
      apply h
      simp [sources, ih]
  | indexLookup | keyLookup | nothing | scan | values =>
      apply h
      simp [sources]

/-- A node and the nodes below it. -/
inductive Within (plan : Node) : Node → Prop
  | top : Within plan plan
  | source {node source : Node} (h : Within plan node) (hs : source ∈ node.sources) :
      Within plan source

/-- The number of nodes in a plan. -/
def size : Node → ℕ
  | hashJoin left _ right _ _ => left.size + right.size + 1
  | nestedLoopJoin left right _ _ => left.size + right.size + 1
  | aggregate source _ _ => source.size + 1
  | filter source _ => source.size + 1
  | limit source _ => source.size + 1
  | offset source _ => source.size + 1
  | order source _ => source.size + 1
  | projection source _ _ => source.size + 1
  | remap source _ => source.size + 1
  | _ => 1

/-- Rewrites a node before descending into its sources, for a number of levels. -/
def transform (before : Node → Node) : ℕ → Node → Node
  | 0, self => self
  | levels + 1, self => (before self).mapSources (transform before levels)

end Node

/-- The plan of a statement. An insertion may map columns to the positions of their values. -/
inductive Plan where
  | createTable (schema : Table)
  | dropTable (name : String) (ifExists : Bool)
  | delete (table : String) (primaryKey : ℕ) (source : Node)
  | insert (table : Table) (columnMap : Option (List (ℕ × ℕ))) (source : Node)
  | update (table : Table) (primaryKey : ℕ) (source : Node) (expressions : List (ℕ × Expression))
  | select (node : Node)

end ToyDB.Sql
