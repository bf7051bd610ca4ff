import ToyDB.Sql.Execution.Aggregator

/-!
# Execution of query plans

The rows that a plan node yields on the entries that a transaction sees. An iterator is
the list of its items: it can go on after an error, and what limits the rows counts
errors as well. A node whose iterator cannot be built fails as a whole.
-/
namespace ToyDB.Sql
open ToyDB.Collections ToyDB.Mvcc

/-! ## Joins -/

/-- The rows of a nested-loop join for one left row. -/
def joinRow (fn : Builtins) (predicate : Option Expression) (right : Rows) (left : Row) : Rows :=
  right.filterMap fun item =>
    match item with
    | .error e => some (.error e)
    | .ok row =>
        match predicate with
        | none => some (.ok (left ++ row))
        | some predicate =>
            match predicate.selects fn "join predicate" (left ++ row) with
            | .ok true => some (.ok (left ++ row))
            | .ok false => none
            | .error e => some (.error e)

/-- A nested-loop join; an outer one extends a left row without a match by NULLs. -/
def nestedLoopJoin (fn : Builtins) (left right : Rows) (rightColumns : ℕ)
    (predicate : Option Expression) (outer : Bool) : Rows :=
  left.flatMap fun item =>
    match item with
    | .error e => [.error e]
    | .ok row =>
        let joined := joinRow fn predicate right row
        if outer && !joined.any Except.isOk then
          joined ++ [.ok (row ++ List.replicate rightColumns .null)]
        else joined

/-- The right rows of a hash join by their join value; an undefined value joins nothing. -/
def hashRight (column : ℕ) : Rows → Except Failure (List (Value × Row))
  | [] => .ok []
  | .error e :: _ => .error e
  | .ok row :: rows =>
      match row[column]? with
      | none => panics "index out of bounds"
      | some value => do
          let rest ← hashRight column rows
          return if value.isUndefined then rest else (value.stored, row) :: rest

/-- A hash join, in which values match if they are stored alike. -/
def hashJoin (left : Rows) (leftColumn : ℕ) (right : List (Value × Row)) (rightColumns : ℕ)
    (outer : Bool) : Rows :=
  left.flatMap fun item =>
    match item with
    | .error e => [.error e]
    | .ok row =>
        match row[leftColumn]? with
        | none => [panics "index out of bounds"]
        | some value =>
            let joined := (right.filter fun r => r.1 = value.stored).map fun r => .ok (row ++ r.2)
            if joined = [] && outer then [.ok (row ++ List.replicate rightColumns .null)] else joined

/-! ## Nodes -/

/-- Applies a function to the rows; errors are passed on. -/
def Rows.mapRows (f : Row → Except Failure Row) (rows : Rows) : Rows :=
  rows.map fun item => item.bind f

/-- Moves the columns of a row to their targets. -/
def remapRow (targets : List (Option ℕ)) (row : Row) : Except Failure Row :=
  if targets.length = row.length then
    .ok ((targets.zip row).foldl (fun remapped (target, value) =>
      match target with
      | some target => remapped.set target value
      | none => remapped) (List.replicate (Node.remapSize targets) .null))
  else panics ".zip_eq() reached end of one iterator before the other"

/-- The order of sort keys, each in its direction. -/
def cmpKeys : List Direction → List Value → List Value → Ordering
  | direction :: directions, a :: as, b :: bs =>
      (if direction = .descending then (a.cmp b).swap else a.cmp b).then (cmpKeys directions as bs)
  | _, _, _ => .eq

/-- Sorts rows by the values of the expressions, keeping the order of equal ones. -/
def orderRows (fn : Builtins) (key : List (Expression × Direction)) (rows : Rows) :
    Except Failure Rows := do
  let keyed ← rows.mapM fun item => do
    let row ← item
    return (row, ← (key.map Prod.fst).mapM fun expr => expr.evaluate fn (some row))
  let sorted := keyed.mergeSort fun a b => cmpKeys (key.map Prod.snd) a.2 b.2 ≠ .gt
  return sorted.map fun (row, _) => .ok row

/-- The rows that a plan node yields. -/
def executeNode (fn : Builtins) (db : OrderedMap Key Datum) : Node → Except Failure Rows
  | .aggregate source groupBy aggregates => do
      let source ← executeNode fn db source
      let buckets ← Aggregator.addRows fn groupBy aggregates source []
      return Aggregator.intoRows fn groupBy aggregates buckets
  | .filter source predicate => do
      let source ← executeNode fn db source
      return source.filter fn predicate
  | .hashJoin left leftColumn right rightColumn outer => do
      let leftRows ← executeNode fn db left
      let rightRows ← executeNode fn db right
      let hashed ← hashRight rightColumn rightRows
      return hashJoin leftRows leftColumn hashed right.columns outer
  | .indexLookup table column values =>
      match table.columns[column]? with
      | none => panics "invalid column"
      | some c => do
          let ids ← (Local.lookupIndex table.name c.name values).eval db
          let rows ← (Local.get table.name ids).eval db
          return rows.map .ok
  | .keyLookup table keys => do
      let rows ← (Local.get table.name keys).eval db
      return rows.map .ok
  | .limit source limit => do
      let source ← executeNode fn db source
      return source.take limit
  | .nestedLoopJoin left right predicate outer => do
      let leftRows ← executeNode fn db left
      let rightRows ← executeNode fn db right
      return nestedLoopJoin fn leftRows rightRows right.columns predicate outer
  | .nothing _ => .ok []
  | .offset source offset => do
      let source ← executeNode fn db source
      return source.drop offset
  | .order source key => do
      let source ← executeNode fn db source
      orderRows fn key source
  | .projection source expressions _ => do
      let source ← executeNode fn db source
      return source.mapRows fun row => expressions.mapM fun expr => expr.evaluate fn (some row)
  | .remap source targets => do
      let source ← executeNode fn db source
      return source.mapRows (remapRow targets)
  | .scan table filter => (Local.scan fn table.name filter).eval db
  | .values rows => .ok (rows.map fun row => row.mapM fun expr => expr.evaluate fn none)

end ToyDB.Sql
