import ToyDB.Sql.Execution.Keeping
import ToyDB.Sql.Execution.Width
import ToyDB.Sql.Planner.Scoping
import ToyDB.Sql.Types.Admission

/-!
# What a plan means

The rows of a plan if its predicates admit rows, which does not depend on the order and the
place in which they do so. Where every predicate is a truth value on the rows that it
meets, this is what the execution yields.
-/
namespace ToyDB.Sql
open ToyDB.Collections ToyDB.Mvcc

variable {fn : Builtins} {db : OrderedMap Key Datum}

/-- What a node without predicates makes of the rows of its source. -/
def Node.process (fn : Builtins) : Node → Rows → Except Failure Rows
  | .aggregate _ groupBy aggregates, rows => do
      let buckets ← Aggregator.addRows fn groupBy aggregates rows []
      return Aggregator.intoRows fn groupBy aggregates buckets
  | .limit _ n, rows => .ok (rows.take n)
  | .offset _ n, rows => .ok (rows.drop n)
  | .order _ key, rows => orderRows fn key rows
  | .projection _ expressions _, rows =>
      .ok (rows.mapRows fun row => expressions.mapM fun expr => expr.evaluate fn (some row))
  | .remap _ targets, rows => .ok (rows.mapRows (remapRow targets))
  | _, rows => .ok rows

open Classical in
/-- The rows of a plan whose predicates admit rows. -/
noncomputable def mean (fn : Builtins) (db : OrderedMap Key Datum) : Node → Except Failure Rows
  | .filter source predicate =>
      (mean fn db source).map (Rows.keep fun row => decide (predicate.Admits fn row))
  | .nestedLoopJoin left right predicate outer =>
      joinResult (fun row => decide (∀ p ∈ predicate, p.Admits fn row)) (mean fn db left)
        (mean fn db right) right.columns outer
  | .scan table filter => (executeNode fn db (.scan table none)).map
      (Rows.keep fun row => decide (∀ p ∈ filter, p.Admits fn row))
  | .hashJoin left leftColumn right rightColumn outer => do
      let leftRows ← mean fn db left
      let rightRows ← mean fn db right
      let hashed ← hashRight rightColumn rightRows
      return hashJoin leftRows leftColumn hashed right.columns outer
  | .aggregate source groupBy aggregates =>
      (mean fn db source).bind (Node.process fn (.aggregate source groupBy aggregates))
  | .limit source n => (mean fn db source).bind (Node.process fn (.limit source n))
  | .offset source n => (mean fn db source).bind (Node.process fn (.offset source n))
  | .order source key => (mean fn db source).bind (Node.process fn (.order source key))
  | .projection source expressions aliases =>
      (mean fn db source).bind (Node.process fn (.projection source expressions aliases))
  | .remap source targets => (mean fn db source).bind (Node.process fn (.remap source targets))
  | node => executeNode fn db node

/-- Every predicate of the node is a truth value on the rows that it is evaluated on. -/
def Node.Evaluates (fn : Builtins) (db : OrderedMap Key Datum) : Node → Prop
  | .filter source predicate =>
      ∀ row, Yielded (executeNode fn db source) row → predicate.Defined fn row
  | .nestedLoopJoin left right predicate _ => ∀ p ∈ predicate, ∀ row,
      Paired (executeNode fn db left) (executeNode fn db right) row → p.Defined fn row
  | .scan table predicate => ∀ p ∈ predicate, ∀ row,
      Yielded (executeNode fn db (.scan table none)) row → p.Defined fn row
  | _ => True

/-! ## Evaluated predicates -/

section Predicates
variable {p : Expression} {rows left right : Rows} {predicate : Option Expression} {row : Row}

theorem Expression.Defined.conjuncts {c : Expression} (h : p.Defined fn row)
    (hc : c ∈ p.conjuncts) : c.Defined fn row := by
  induction p using Expression.conjuncts_induction with
  | hand l r hl hr =>
      obtain ⟨t, ht⟩ := h
      obtain ⟨s, u, hs, hu, _⟩ := Expression.evaluate_and.mp ht
      simp only [Expression.conjuncts, List.mem_append] at hc
      exact hc.elim (hl ⟨s, hs⟩) (hr ⟨u, hu⟩)
  | hatom e he =>
      rw [he, List.mem_singleton] at hc
      exact hc ▸ h

end Predicates

/-! ## Execution -/

section Execute
variable {source left right : Node} {p : Expression} {predicate : Option Expression}
  {outer : Bool} {table : Table}

end Execute
end ToyDB.Sql
