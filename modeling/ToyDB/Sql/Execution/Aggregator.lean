import ToyDB.Sql.Engine.Local
import ToyDB.Sql.Planner.Plan

/-!
# Aggregation

Aggregates of rows by bucket. The buckets are kept in the code's order of their values.
-/
namespace ToyDB.Sql

inductive Accumulator where
  | average (count : Int64) (sum : Value)
  | count (count : Int64)
  | max (value : Option Value)
  | min (value : Option Value)
  | sum (value : Option Value)
  deriving DecidableEq

namespace Accumulator

def new (aggregate : Aggregate) : Accumulator :=
  match aggregate.function with
  | .average => average 0 (.integer 0)
  | .count => count 0
  | .max => max none
  | .min => min none
  | .sum => sum none

/-- Adds a value; NULL is ignored. -/
def add (fn : Builtins) (value : Value) (self : Accumulator) : Except Failure Accumulator :=
  if value.eq .null then .ok self
  else
    match self with
    | average n total => do
        let total ← total.checkedAdd fn value
        return average (n + 1) total
    | count n => .ok (count (n + 1))
    | max none => .ok (max (some value))
    | max (some v) => .ok (max (some (if value.cmp v = .gt then value else v)))
    | min none => .ok (min (some value))
    | min (some v) => .ok (min (some (if value.cmp v = .lt then value else v)))
    | sum none => do
        let v ← (Value.integer 0).checkedAdd fn value
        return sum (some v)
    | sum (some v) => do
        let v ← v.checkedAdd fn value
        return sum (some v)

def value (fn : Builtins) : Accumulator → Except Failure Value
  | average n total => if n = 0 then .ok .null else total.checkedDiv fn (.integer n)
  | count n => .ok (.integer n)
  | max v | min v | sum v => .ok (v.getD .null)

end Accumulator

/-- The lexicographic order of buckets. -/
def cmpValues : List Value → List Value → Ordering
  | [], [] => .eq
  | [], _ :: _ => .lt
  | _ :: _, [] => .gt
  | v :: vs, w :: ws => (v.cmp w).then (cmpValues vs ws)

namespace Aggregator

abbrev Buckets := List (List Value × List Accumulator)

/-- Updates the accumulators of a bucket, which starts with the given ones. -/
def updateBucket (bucket : List Value) (initial : List Accumulator)
    (update : List Accumulator → Except Failure (List Accumulator)) :
    Buckets → Except Failure Buckets
  | [] => do return [(bucket, ← update initial)]
  | (b, accumulators) :: rest =>
      match cmpValues bucket b with
      | .lt => do return (bucket, ← update initial) :: (b, accumulators) :: rest
      | .eq => do return (b, ← update accumulators) :: rest
      | .gt => do return (b, accumulators) :: (← updateBucket bucket initial update rest)

def add (fn : Builtins) (groupBy : List Expression) (aggregates : List Aggregate)
    (buckets : Buckets) (row : Row) : Except Failure Buckets := do
  let bucket ← groupBy.mapM fun expr => expr.evaluate fn (some row)
  let update := fun accumulators : List Accumulator =>
    (accumulators.zip aggregates).mapM fun (accumulator, aggregate) => do
      accumulator.add fn (← aggregate.expr.evaluate fn (some row))
  updateBucket bucket (aggregates.map Accumulator.new) update buckets

/-- Adds rows up to the first error. -/
def addRows (fn : Builtins) (groupBy : List Expression) (aggregates : List Aggregate) :
    Rows → Buckets → Except Failure Buckets
  | [], buckets => .ok buckets
  | .error e :: _, _ => .error e
  | .ok row :: rows, buckets => do
      addRows fn groupBy aggregates rows (← add fn groupBy aggregates buckets row)

/-- The rows of the result; without rows and groups, there is one. -/
def intoRows (fn : Builtins) (groupBy : List Expression) (aggregates : List Aggregate)
    (buckets : Buckets) : Rows :=
  if buckets = [] ∧ groupBy = [] then
    [(aggregates.map Accumulator.new).mapM (Accumulator.value fn)]
  else
    buckets.map fun (bucket, accumulators) => do
      return bucket ++ (← accumulators.mapM (Accumulator.value fn))

end Aggregator
end ToyDB.Sql
