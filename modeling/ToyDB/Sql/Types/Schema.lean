import ToyDB.Sql.Types.Value

/-!
# Table schemas
-/
namespace ToyDB.Sql

structure Column where
  name : String
  datatype : DataType
  nullable : Bool
  default : Option Value
  unique : Bool
  index : Bool
  references : Option String
  deriving DecidableEq

/-- A table schema. The primary key is the index of a column. -/
structure Table where
  name : String
  primaryKey : ℕ
  columns : List Column
  deriving DecidableEq

namespace Table

/-- The columns that reference a table. -/
def referencesTo (self : Table) (table : String) : List ℕ :=
  (List.range self.columns.length).filter fun i =>
    self.columns[i]?.any fun c => c.references = some table

/-- The indexed columns, with their positions. -/
def indexes (self : Table) : List (ℕ × Column) :=
  (self.columns.zipIdx.map fun (c, i) => (i, c)).filter fun (_, c) => c.index

end Table
end ToyDB.Sql
