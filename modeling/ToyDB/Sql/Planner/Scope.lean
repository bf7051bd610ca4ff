import ToyDB.Sql.Parser.Statement
import ToyDB.Sql.Planner.Plan
import ToyDB.Sql.Types.Arithmetic

/-!
# Scopes

A scope maps names to the columns of the rows on which expressions are evaluated, and
aggregate and GROUP BY expressions to the columns that hold their values. Maps are lists of
their entries.
-/
namespace ToyDB.Sql

/-- Sets the value of a key. -/
def insertEntry {α β : Type} [DecidableEq α] (key : α) (value : β) (entries : List (α × β)) :
    List (α × β) :=
  (key, value) :: entries.filter (·.1 ≠ key)

/-- Sets the value of a key that has none. -/
def orInsert {α β : Type} [DecidableEq α] (key : α) (value : β) (entries : List (α × β)) :
    List (α × β) :=
  match entries.lookup key with
  | some _ => entries
  | none => (key, value) :: entries

structure Scope where
  columns : List Label
  tables : List String
  qualified : List ((String × String) × ℕ)
  unqualified : List (String × List ℕ)
  aggregates : List (Ast.Expression × ℕ)
  hidden : List ℕ

/-- The sources of the columns after remapping, if they are a target. -/
def invertRemap (targets : List (Option ℕ)) : List (Option ℕ) :=
  targets.zipIdx.foldl (fun sources (target, i) =>
    match target with
    | some target => sources.set target (some i)
    | none => sources) (List.replicate (Node.remapSize targets) none)

namespace Scope

def new : Scope where
  columns := []
  tables := []
  qualified := []
  unqualified := []
  aggregates := []
  hidden := []

/-- A child scope, which knows the tables. -/
def spawn (self : Scope) : Scope := { new with tables := self.tables }

/-- Appends a column; its index is the number of columns before it. -/
def addColumn (self : Scope) (label : Label) : Scope :=
  let index := self.columns.length
  let named (name : String) : List (String × List ℕ) :=
    insertEntry name ((self.unqualified.lookup name).getD [] ++ [index]) self.unqualified
  match label with
  | .none => { self with columns := self.columns ++ [label] }
  | .unqualified name =>
      { self with columns := self.columns ++ [label], unqualified := named name }
  | .qualified table name =>
      { self with
        columns := self.columns ++ [label]
        qualified := insertEntry (table, name) index self.qualified
        unqualified := named name }

/-- Adds the columns of a table under its name or an alias. -/
def addTable (self : Scope) (table : Table) (alias' : Option String) : Except Failure Scope :=
  let name := alias'.getD table.name
  if self.tables.contains name then invalid s!"duplicate table name {name}"
  else
    let self := table.columns.foldl (fun self column => self.addColumn (.qualified name column.name))
      self
    .ok { self with tables := name :: self.tables }

def fromTable (table : Table) : Except Failure Scope := new.addTable table none

/-- A column name in a message. -/
def formatName (table : Option String) (name : String) : String :=
  match table with
  | some table => s!"{table}.{name}"
  | none => name

/-- The column that the maps give for a name. -/
def findColumn (self : Scope) (table : Option String) (name : String) :
    Except Failure (Option ℕ) :=
  match table with
  | some table =>
      if self.tables.contains table then .ok (self.qualified.lookup (table, name))
      else invalid s!"unknown table {table}"
  | none =>
      match self.unqualified.lookup name with
      | none => .ok none
      | some [] => panics "index out of bounds"
      | some [index] => .ok (some index)
      | some _ => invalid s!"ambiguous column {name}"

def lookupColumn (self : Scope) (table : Option String) (name : String) : Except Failure ℕ :=
  if self.columns.isEmpty then
    invalid s!"expression must be constant, found column {formatName table name}"
  else
    match self.findColumn table name with
    | .error e => .error e
    | .ok (some index) => .ok index
    | .ok none =>
        if self.aggregates.isEmpty then invalid s!"unknown column {formatName table name}"
        else invalid
          s!"column {formatName table name} must be used in an aggregate or GROUP BY expression"

def lookupAggregate (self : Scope) (expr : Ast.Expression) : Option ℕ :=
  self.aggregates.lookup expr

/-- The label of a column that the expression refers to. -/
def labelOf (self : Scope) : Ast.Expression → Label
  | .column table name =>
      match self.lookupColumn table name with
      | .ok index => self.columns.getD index .none
      | .error _ => .none
  | _ => .none

/-- Adds a column for an aggregate or GROUP BY expression, unless there is one. -/
def addAggregate (self : Scope) (expr : Ast.Expression) (parent : Scope) : Option Scope :=
  match self.lookupAggregate expr with
  | some _ => none
  | none =>
      let index := self.columns.length
      let self := self.addColumn (parent.labelOf expr)
      some { self with aggregates := (expr, index) :: self.aggregates }

/-- Adds a column that passes on one of the parent. -/
def addPassthrough (self parent : Scope) (parentIndex : ℕ) (hide : Bool) : Scope :=
  let index := self.columns.length
  let self := self.addColumn (parent.columns.getD parentIndex .none)
  let aggregates := parent.aggregates.foldl (fun aggregates (expr, i) =>
    if i = parentIndex then orInsert expr index aggregates else aggregates) self.aggregates
  { self with
    aggregates := aggregates
    hidden := if hide || parent.hidden.contains parentIndex then index :: self.hidden
      else self.hidden }

/-- Adds the tables of a scope. -/
def mergeTables (self : Scope) : List String → Except Failure Scope
  | [] => .ok self
  | table :: tables =>
      if self.tables.contains table then invalid s!"duplicate table name {table}"
      else mergeTables { self with tables := table :: self.tables } tables

/-- Appends a scope. -/
def merge (self scope : Scope) : Except Failure Scope := do
  let offset := self.columns.length
  let self ← self.mergeTables scope.tables
  let self := scope.columns.foldl addColumn self
  return { self with
    aggregates := scope.aggregates.foldl (fun aggregates (expr, index) =>
      orInsert expr (index + offset) aggregates) self.aggregates
    hidden := scope.hidden.map (· + offset) ++ self.hidden }

/-- The scope of a projection. -/
def project (self : Scope) (expressions : List (Ast.Expression × Option String)) : Scope :=
  expressions.foldl (fun child (expr, alias') =>
    let label :=
      match alias' with
      | some alias' => .unqualified alias'
      | none => self.labelOf expr
    let index := child.columns.length
    let child := child.addColumn label
    if self.aggregates.isEmpty then child
    else { child with aggregates := orInsert expr index child.aggregates }) self.spawn

/-- The scope of a remapping. -/
def remap (self : Scope) (targets : List (Option ℕ)) : Scope :=
  (invertRemap targets).foldl (fun child source =>
    match source with
    | some index => child.addPassthrough self index false
    | none => child) self.spawn

/-- The targets of columns, from an old and a new index on. -/
def targetsWithout (hidden : List ℕ) : List Label → ℕ → ℕ → List (Option ℕ)
  | [], _, _ => []
  | _ :: columns, oldIndex, index =>
      if hidden.contains oldIndex then none :: targetsWithout hidden columns (oldIndex + 1) index
      else some index :: targetsWithout hidden columns (oldIndex + 1) (index + 1)

/-- The targets that remove the hidden columns, if there are any. -/
def remapHidden (self : Scope) : Option (List (Option ℕ)) :=
  if self.hidden.isEmpty then none else some (targetsWithout self.hidden self.columns 0 0)

end Scope
end ToyDB.Sql
