import ToyDB.Sql.Engine.Local

/-!
# Schema changes

Tables are created after their schemas are validated, and dropped with the rows and the
index entries that the transaction sees.
-/
namespace ToyDB.Sql
open ToyDB.Mvcc

namespace Local

/-- Validates the default value of a column. -/
def validateDefault (column : Column) : Statement Unit :=
  match column.default.map Value.datatype with
  | none =>
      if column.nullable then
        Script.errinput s!"nullable column {column.name} must have a default value"
      else pure ()
  | some none =>
      if column.nullable then pure ()
      else Script.errinput s!"invalid NULL default for non-nullable column {column.name}"
  | some (some vtype) =>
      if vtype ≠ column.datatype then
        Script.errinput
          s!"invalid default type {vtype.display} for {column.datatype.display} column {column.name}"
      else pure ()

/-- The type of the primary key of a referenced table. -/
def referencedType (self : Table) (column : Column) (reference : String) : Statement DataType := do
  if reference = self.name then
    return (← nth self.columns self.primaryKey).datatype
  match ← getTable reference with
  | some target => return (← nth target.columns target.primaryKey).datatype
  | none =>
      Script.errinput s!"unknown table {reference} referenced by column {column.name}"

/-- Validates a column of a schema. -/
def validateSchemaColumn (self : Table) (i : ℕ) (column : Column) : Statement Unit := do
  if column.name = "" then
    Script.errinput "column name can't be empty"
  if i = self.primaryKey then
    if column.nullable then
      Script.errinput s!"primary key {column.name} cannot be nullable"
    if !column.unique then
      Script.errinput s!"primary key {column.name} must be unique"
    if column.index then
      Script.errinput s!"primary key {column.name} can't have an index"
  validateDefault column
  if column.unique && !column.index && i ≠ self.primaryKey then
    Script.errinput s!"unique column {column.name} must have a secondary index"
  match column.references with
  | none => pure ()
  | some reference =>
      if !column.index && i ≠ self.primaryKey then
        Script.errinput s!"reference column {column.name} must have a secondary index"
      let reftype ← referencedType self column reference
      if column.datatype ≠ reftype then
        Script.errinput (s!"can't reference {reftype.display} primary key of {reference} " ++
          s!"from {column.datatype.display} column {column.name}")

/-- Validates a schema. -/
def validate (self : Table) : Statement Unit := do
  if self.name = "" then
    Script.errinput "table name can't be empty"
  if self.columns = [] then
    Script.errinput "table has no columns"
  if self.columns[self.primaryKey]? = none then
    Script.errinput "invalid primary key index"
  self.columns.zipIdx.forM fun (column, i) => validateSchemaColumn self i column

def createTable (table : Table) : Statement Unit := do
  if (← getTable table.name).isSome then
    Script.errinput s!"table {table.name} already exists"
  validate table
  Script.set (.table table.name) (.table table.stored)

/-- Deletes the entries that a scan finds. -/
def deleteEntries (range : Key → Bool) : Statement Unit := do
  (← Script.entries range).forM fun (key, _) => Script.delete key

/-- Fails if another table references the table. -/
def checkReferences (table : Table) : Statement Unit := do
  match (← tableReferences table.name).find? fun (source, _) => source.name ≠ table.name with
  | none => return ()
  | some (source, refs) =>
      let column ← nth source.columns (← nth refs 0)
      Script.errinput s!"table {table.name} is referenced from {source.name}.{column.name}"

/-- Drops a table, and returns whether it existed. -/
def dropTable (table : String) (ifExists : Bool) : Statement Bool := do
  match ← getTable table with
  | none =>
      if ifExists then return false
      else Script.errinput s!"table {table} does not exist"
  | some table =>
      checkReferences table
      Script.delete (.table table.name)
      deleteEntries (Key.isRowOf table.name)
      (table.columns.filter fun c => c.index).forM fun column =>
        deleteEntries (Key.isIndexOf table.name column.name)
      return true

end Local

/-- The statements that change schemas or rows. -/
inductive Operation where
  | createTable (table : Table)
  | dropTable (table : String) (ifExists : Bool)
  | delete (table : String) (ids : List Value)
  | insert (table : String) (rows : List Row)
  | update (table : String) (rows : List (Value × Row))

/-- The store calls of a statement. -/
def Operation.script : Operation → Statement Unit
  | createTable table => Local.createTable table
  | dropTable table ifExists => do
      let _ ← Local.dropTable table ifExists
      return ()
  | delete table ids => Local.delete table ids
  | insert table rows => Local.insert table rows
  | update table rows => Local.update table rows

end ToyDB.Sql
