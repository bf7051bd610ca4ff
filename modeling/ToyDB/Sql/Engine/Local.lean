import ToyDB.Mvcc.Script
import ToyDB.Sql.Types.Expression
import ToyDB.Sql.Types.Schema
import ToyDB.Sql.Types.ValueSet

/-!
# The local SQL engine

Tables, rows and secondary indexes as entries of a transactional store, and the
statements on them as scripts of store calls. Values in keys and entries are written in
their stored form. Assertions of debug builds are left out.
-/
namespace ToyDB.Sql
open ToyDB.Mvcc

/-- A key of the engine, with values in stored form. -/
inductive Key where
  | table (name : String)
  | index (table column : String) (value : Value)
  | row (table : String) (id : Value)
  deriving DecidableEq

namespace Key

/-- The order of the encoded keys. -/
def rank : Key → ℕ ×ₗ String ×ₗ String ×ₗ Value
  | .table t => toLex (0, toLex (t, toLex ("", .null)))
  | .index t c v => toLex (1, toLex (t, toLex (c, v)))
  | .row t id => toLex (2, toLex (t, toLex ("", id)))

theorem rank_injective : Function.Injective rank := by
  intro a b h
  cases a <;> cases b <;> simp_all [rank]

instance : LinearOrder Key := LinearOrder.lift' rank rank_injective

def isTable : Key → Bool
  | .table _ => true
  | _ => false

def isIndexOf (name column : String) : Key → Bool
  | .index t c _ => t = name ∧ c = column
  | _ => false

def isRowOf (name : String) : Key → Bool
  | .row t _ => t = name
  | _ => false

/-- The key of an index entry. -/
def ofIndex (table column : String) (value : Value) : Key := .index table column value.stored

/-- The key of a row. -/
def ofRow (table : String) (id : Value) : Key := .row table id.stored

end Key

/-- The value of an entry. -/
inductive Datum where
  | table (table : Table)
  | ids (set : ValueSet)
  | row (row : Row)
  deriving DecidableEq

/-- A row in stored form. -/
def Row.stored (row : Row) : Row := row.map Value.stored

/-- A schema in stored form. -/
def Table.stored (table : Table) : Table :=
  { table with columns := table.columns.map fun c => { c with default := c.default.map Value.stored } }

/-- A script on the entries of the engine. -/
abbrev Statement (α : Type) := Script Key Datum α

/-- A failure to decode an entry. -/
def errdata {α : Type} : Statement α := Script.fail (.error (.invalidData "entry"))

def panicked {α : Type} (message : String) : Statement α := Script.fail (.panic message)

/-- The element at an index, which the code takes to exist. -/
def nth {α : Type} (list : List α) (i : ℕ) : Statement α :=
  match list[i]? with
  | some a => pure a
  | none => panicked "index out of bounds"

/-- Whether a predicate selects a row. -/
def Expression.selects (fn : Builtins) (what : String) (predicate : Expression) (row : Row) :
    Except Failure Bool := do
  match ← predicate.evaluate fn (some row) with
  | .boolean b => return b
  | .null => return false
  | value => invalid s!"{what} returned {value.display}, expected boolean"

/-- The rows that an iterator yields; it can go on after an error. -/
abbrev Rows := List (Except Failure Row)

/-- The selected rows; errors are passed on. -/
def Rows.filter (fn : Builtins) (predicate : Expression) (rows : Rows) : Rows :=
  rows.filterMap fun item =>
    match item with
    | .error e => some (.error e)
    | .ok row =>
        match predicate.selects fn "filter" row with
        | .ok true => some (.ok row)
        | .ok false => none
        | .error e => some (.error e)

namespace Local

/-! ## Catalog -/

def getTable (table : String) : Statement (Option Table) := do
  match ← Script.read (.table table) with
  | none => return none
  | some (.table table) => return some table
  | some _ => errdata

def mustGetTable (table : String) : Statement Table := do
  match ← getTable table with
  | some table => return table
  | none => Script.errinput s!"table {table} does not exist"

def decodeTables : List (Key × Datum) → Statement (List Table)
  | [] => return []
  | (_, .table table) :: rest => do
      let tables ← decodeTables rest
      return table :: tables
  | _ :: _ => errdata

def listTables : Statement (List Table) := do
  decodeTables (← Script.entries Key.isTable)

/-- All tables that reference a table, with the referencing columns. -/
def tableReferences (table : String) : Statement (List (Table × List ℕ)) := do
  let tables ← listTables
  return (tables.map fun t => (t, t.referencesTo table)).filter fun (_, refs) => refs ≠ []

/-! ## Reading -/

/-- The primary keys in an index entry. -/
def getIndex (table column : String) (value : Value) : Statement ValueSet := do
  match ← Script.read (.ofIndex table column value) with
  | none => return []
  | some (.ids set) => return set
  | some _ => errdata

def getRow (table : String) (id : Value) : Statement (Option Row) := do
  match ← Script.read (.ofRow table id) with
  | none => return none
  | some (.row row) => return some row
  | some _ => errdata

/-- The rows with the given primary keys, if they exist. -/
def get (table : String) : List Value → Statement (List Row)
  | [] => return []
  | id :: ids => do
      let row ← getRow table id
      let rows ← get table ids
      return row.toList ++ rows

/-- The primary keys in the index entries of the values, one entry after the other. -/
def getIndexes (table column : String) : List Value → Statement (List Value)
  | [] => return []
  | value :: values => do
      let set ← getIndex table column value
      let ids ← getIndexes table column values
      return set ++ ids

def lookupIndex (table column : String) (values : List Value) : Statement ValueSet := do
  return ValueSet.ofList (← getIndexes table column values)

/-- Scans the rows of a table. -/
def scan (fn : Builtins) (table : String) (filter : Option Expression) : Statement Rows := do
  let found ← Script.entries (Key.isRowOf table)
  let rows : Rows := found.map fun (_, datum) =>
    match datum with
    | .row row => .ok row
    | _ => .error (.error (.invalidData "entry"))
  match filter with
  | none => return rows
  | some filter => return rows.filter fn filter

/-! ## Validation -/

/-- Validates one column of a row. -/
def validateColumn (self : Table) (update : Bool) (id : Value) (i : ℕ) (column : Column)
    (value : Value) : Statement Unit := do
  match value.datatype with
  | some vtype =>
      if vtype ≠ column.datatype then
        Script.errinput
          s!"invalid datatype {vtype.display} for {column.datatype.display} column {column.name}"
  | none => pure ()
  if value.eq .null && !column.nullable then
    Script.errinput s!"NULL value not allowed for column {column.name}"
  match column.references with
  | none => pure ()
  | some target =>
      if value = .null then pure ()
      else if target = self.name ∧ value.eq id then pure ()
      else
        let rows ← get target [value]
        if rows = [] then
          Script.errinput s!"reference {value.display} not in table {target}"
  if column.unique && i ≠ self.primaryKey && !value.isUndefined then
    let index ← lookupIndex self.name column.name [value]
    let index := if update then ValueSet.remove id index else index
    if index ≠ [] then
      Script.errinput s!"value {value.display} already in unique column {column.name}"

/-- Validates the columns of a row from an index on. -/
def validateColumns (self : Table) (update : Bool) (id : Value) :
    ℕ → List Column → Row → Statement Unit
  | i, column :: columns, value :: row => do
      validateColumn self update id i column value
      validateColumns self update id (i + 1) columns row
  | _, _, _ => return ()

/-- Validates a row; an update replaces a row with the same primary key. -/
def validateRow (self : Table) (row : Row) (update : Bool) : Statement Unit := do
  if row.length ≠ self.columns.length then
    Script.errinput s!"invalid row size for table {self.name}"
  let id ← nth row self.primaryKey
  if id.isUndefined then
    Script.errinput s!"invalid primary key {id.display}"
  if update = false then
    let rows ← get self.name [id]
    if rows ≠ [] then
      Script.errinput s!"primary key {id.display} already exists"
  validateColumns self update id 0 self.columns row

/-! ## Writing -/

/-- Stores an index entry, or deletes it if there are no primary keys left. -/
def setIndex (table column : String) (value : Value) (ids : ValueSet) : Statement Unit :=
  if ids = [] then Script.delete (.ofIndex table column value)
  else Script.set (.ofIndex table column value) (.ids ids.stored)

def setRow (table : String) (id : Value) (row : Row) : Statement Unit :=
  Script.set (.ofRow table id) (.row row.stored)

/-- Removes a primary key from the index entry of a value. -/
def unlink (table column : String) (value id : Value) : Statement Unit := do
  let ids ← getIndex table column value
  setIndex table column value (ids.remove id)

/-- Adds a primary key to the index entry of a value. -/
def link (table column : String) (value id : Value) : Statement Unit := do
  let ids ← getIndex table column value
  setIndex table column value (ids.insert id)

/-- The primary keys of the rows of the source that reference given rows in a column. -/
def referencing (source : Table) (i : ℕ) (ids : List Value) : Statement ValueSet := do
  if i = source.primaryKey then
    let rows ← get source.name ids
    let keys ← rows.mapM fun row =>
      match row[i]? with
      | some id => pure id
      | none => panicked "short row"
    return ValueSet.ofList keys
  else
    let column ← nth source.columns i
    lookupIndex source.name column.name ids

/-- Fails if a column of the source references a deleted row. -/
def checkReference (table : Table) (ids : List Value) (source : Table) (i : ℕ) :
    Statement Unit := do
  let found ← referencing source i ids
  let found := if source.name = table.name then
    ids.foldl (fun set id => ValueSet.remove id set) found else found
  match found with
  | [] => return ()
  | sourceId :: _ => do
      let column ← nth source.columns source.primaryKey
      Script.errinput s!"row referenced by {source.name}.{column.name}={sourceId.display}"

/-- Deletes a row with its index entries. -/
def deleteRow (table : Table) (id : Value) : Statement Unit := do
  if table.indexes ≠ [] then
    match ← getRow table.name id with
    | none => pure ()
    | some row => table.indexes.forM fun (i, column) => do
        unlink table.name column.name (← nth row i) id
  Script.delete (.ofRow table.name id)

/-- Deletes rows by primary key, if they exist. -/
def delete (table : String) (ids : List Value) : Statement Unit := do
  let table ← mustGetTable table
  let references ← tableReferences table.name
  references.forM fun (source, refs) => refs.forM fun i => checkReference table ids source i
  ids.forM fun id => deleteRow table id

/-- Inserts a row. -/
def insertRow (table : Table) (row : Row) : Statement Unit := do
  validateRow table row false
  let id ← nth row table.primaryKey
  setRow table.name id row
  table.indexes.forM fun (i, column) => do
    link table.name column.name (← nth row i) id

def insert (table : String) (rows : List Row) : Statement Unit := do
  let table ← mustGetTable table
  rows.forM fun row => insertRow table row

/-- Updates an index entry of a row whose primary key stays. -/
def updateIndex (table : Table) (id : Value) (old row : Row) (i : ℕ) (column : Column) :
    Statement Unit := do
  let before ← nth old i
  let after ← nth row i
  if before.eq after then return ()
  unlink table.name column.name before id
  link table.name column.name after id

/-- Updates a row; a changed primary key makes it a deletion and an insertion. -/
def updateRow (table : Table) (id : Value) (row : Row) : Statement Unit := do
  let key ← nth row table.primaryKey
  if id.eq key = false then
    delete table.name [id]
    insert table.name [row]
  else
    validateRow table row true
    if table.indexes ≠ [] then
      match ← get table.name [id] with
      | [] => panicked "removal index (is 0) should be < len (is 0)"
      | old :: _ => table.indexes.forM fun (i, column) => updateIndex table id old row i column
    setRow table.name id row

/-- Updates rows by primary key, in the order of the keys. -/
def update (table : String) (rows : List (Value × Row)) : Statement Unit := do
  let table ← mustGetTable table
  rows.forM fun (id, row) => updateRow table id row

end Local
end ToyDB.Sql
