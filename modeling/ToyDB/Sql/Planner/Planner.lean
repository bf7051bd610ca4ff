import ToyDB.Sql.Planner.Scope
import ToyDB.Sql.Types.Expression

/-!
# The planner

The plans that are built from statements, with the schemas that a catalog has.
-/
namespace ToyDB.Sql

/-- The schemas of tables, by name. -/
abbrev Catalog := String → Except Failure (Option Table)

def Catalog.mustGetTable (self : Catalog) (table : String) : Except Failure Table := do
  match ← self table with
  | some table => return table
  | none => invalid s!"table {table} does not exist"

def Ast.Direction.toDirection : Ast.Direction → Sql.Direction
  | .ascending => .ascending
  | .descending => .descending

def Ast.Literal.toValue : Ast.Literal → Value
  | .null => .null
  | .boolean b => .boolean b
  | .integer i => .integer i
  | .float f => .float f
  | .string s => .string s

namespace Planner

/-! ## Expressions -/

/-- The value of an IS operator. The parser only yields NULL and NAN. -/
def isValue : Ast.Literal → Except Failure Value
  | .null => .ok .null
  | .float f => if f.isNan then .ok (.float f) else panics "invalid IS value"
  | _ => panics "invalid IS value"

/-- The expression of a binary operator. -/
def binaryExpression : Ast.BinaryOperator → Expression → Expression → Expression
  | .and, lhs, rhs => .and lhs rhs
  | .or, lhs, rhs => .or lhs rhs
  | .equal, lhs, rhs => .equal lhs rhs
  | .greaterThan, lhs, rhs => .binary .greaterThan lhs rhs
  | .greaterThanOrEqual, lhs, rhs => .or (.binary .greaterThan lhs rhs) (.equal lhs rhs)
  | .lessThan, lhs, rhs => .binary .lessThan lhs rhs
  | .lessThanOrEqual, lhs, rhs => .or (.binary .lessThan lhs rhs) (.equal lhs rhs)
  | .like, lhs, rhs => .binary .like lhs rhs
  | .notEqual, lhs, rhs => .not (.equal lhs rhs)
  | .add, lhs, rhs => .binary .add lhs rhs
  | .divide, lhs, rhs => .binary .divide lhs rhs
  | .exponentiate, lhs, rhs => .binary .exponentiate lhs rhs
  | .remainder, lhs, rhs => .binary .remainder lhs rhs
  | .multiply, lhs, rhs => .binary .multiply lhs rhs
  | .subtract, lhs, rhs => .binary .subtract lhs rhs

/-- The expression of a unary operator. -/
def unaryExpression : Ast.UnaryOperator → Expression → Expression
  | .not => .unary .not
  | .factorial => .unary .factorial
  | .identity => .unary .identity
  | .negate => .unary .negate

mutual

/-- Builds an expression, with the columns and aggregates that the scope knows. -/
def buildExpression (scope : Scope) : Ast.Expression → Except Failure Expression
  | .all =>
      match scope.lookupAggregate .all with
      | some index => .ok (.column index)
      | none => invalid "unsupported use of *"
  | .literal value =>
      match scope.lookupAggregate (.literal value) with
      | some index => .ok (.column index)
      | none => .ok (.constant value.toValue)
  | .column table name =>
      match scope.lookupAggregate (.column table name) with
      | some index => .ok (.column index)
      | none => do return .column (← scope.lookupColumn table name)
  | .function name args =>
      match scope.lookupAggregate (.function name args) with
      | some index => .ok (.column index)
      | none =>
          if name = "sqrt" ∧ args.length = 1 then
            return .unary .squareRoot (← buildFirst scope args)
          else invalid s!"unknown function {name} with {args.length} arguments"
  | .binary op lhs rhs =>
      match scope.lookupAggregate (.binary op lhs rhs) with
      | some index => .ok (.column index)
      | none => do
          let lhs ← buildExpression scope lhs
          let rhs ← buildExpression scope rhs
          return binaryExpression op lhs rhs
  | .unary op expr =>
      match scope.lookupAggregate (.unary op expr) with
      | some index => .ok (.column index)
      | none => do return unaryExpression op (← buildExpression scope expr)
  | .is expr value =>
      match scope.lookupAggregate (.is expr value) with
      | some index => .ok (.column index)
      | none => do
          let expr ← buildExpression scope expr
          return .is expr (← isValue value)

/-- Builds the first argument. -/
def buildFirst (scope : Scope) : Ast.Arguments → Except Failure Expression
  | .nil => panics "removal index should be < len"
  | .cons arg _ => buildExpression scope arg

end

/-- Builds an expression if it is given. -/
def buildOption (scope : Scope) : Option Ast.Expression → Except Failure (Option Expression)
  | some expr => do return some (← buildExpression scope expr)
  | none => .ok none

/-- The value of an expression without columns. -/
def buildConstantValue (fn : Builtins) (expr : Ast.Expression) : Except Failure Value := do
  let expr ← buildExpression .new expr
  expr.evaluate fn none

/-! ## Aggregation -/

def isAggregateFunction : Ast.Expression → Bool
  | .function name _ => ["avg", "count", "max", "min", "sum"].contains name
  | _ => false

/-- The aggregate function of a name. -/
def aggregateFunction (name : String) : Except Failure AggregateFunction :=
  if name = "avg" then .ok .average
  else if name = "count" then .ok .count
  else if name = "min" then .ok .min
  else if name = "max" then .ok .max
  else if name = "sum" then .ok .sum
  else invalid s!"unknown aggregate function {name}"

/-- The argument of an aggregate function. That of COUNT(*) is a constant. -/
def buildAggregateArgument (scope : Scope) (name : String) (arg : Ast.Expression) :
    Except Failure Expression :=
  if name = "count" ∧ arg = .all then .ok (.constant (.boolean true))
  else buildExpression scope arg

def buildAggregateFunction (scope : Scope) : Ast.Expression → Except Failure Aggregate
  | .function name args =>
      match args with
      | .cons arg .nil =>
          if arg.contains isAggregateFunction then invalid "aggregate functions can't be nested"
          else do
            let expr ← buildAggregateArgument scope name arg
            return ⟨← aggregateFunction name, expr⟩
      | _ => invalid s!"{name} takes 1 argument"
  | _ => panics "aggregate expression must be function"

/-- The aggregate functions in SELECT, HAVING, and ORDER BY. -/
def collectAggregates (select : List (Ast.Expression × Option String))
    (having : Option Ast.Expression) (orderBy : List (Ast.Expression × Ast.Direction)) :
    List Ast.Expression :=
  (select.map (·.1) ++ having.toList ++ orderBy.map (·.1)).flatMap
    (·.collect isAggregateFunction)

/-- Adds columns for expressions, and keeps the expressions that had none. -/
def addAggregates (parent : Scope) : Scope → List Ast.Expression → Scope × List Ast.Expression
  | child, [] => (child, [])
  | child, expr :: exprs =>
      match child.addAggregate expr parent with
      | some child =>
          let (child, kept) := addAggregates parent child exprs
          (child, expr :: kept)
      | none => addAggregates parent child exprs

/-- Groups and aggregates rows, in a new scope. -/
def buildAggregate (source : Node) (scope : Scope) (groupBy aggregates : List Ast.Expression) :
    Except Failure (Node × Scope) := do
  let (child, groupBy) := addAggregates scope scope.spawn groupBy
  let (child, aggregates) := addAggregates scope child aggregates
  let groupBy ← groupBy.mapM (buildExpression scope)
  let aggregates ← aggregates.mapM (buildAggregateFunction scope)
  return (.aggregate source groupBy aggregates, child)

/-! ## FROM -/

/-- The node of a FROM clause, with the labels of its columns and its scope. -/
structure FromClause where
  node : Node
  labels : List Label
  scope : Scope

/-- The label of each column after remapping. -/
def remapLabels (targets : List (Option ℕ)) (labels : List Label) : List Label :=
  (List.range (Node.remapSize targets)).map fun index =>
    match targets.idxOf? (some index) with
    | some i => labels.getD i .none
    | none => .none

/-- The targets that move the columns on the right before those on the left. -/
def swapTargets (left right : ℕ) : List (Option ℕ) :=
  (List.range (left + right)).map fun i => some ((i + right) % (left + right))

/-- Swaps the columns of a join. -/
def swapColumns (left right : ℕ) (join : FromClause) : FromClause :=
  let targets := swapTargets left right
  { node := .remap join.node targets
    labels := remapLabels targets join.labels
    scope := join.scope.remap targets }

/-- The join of two nodes. -/
def buildJoin (left right : FromClause) (type : Ast.JoinType) (predicate : Option Ast.Expression)
    (scope : Scope) : Except Failure FromClause := do
  let predicate ← buildOption scope predicate
  let join : FromClause :=
    { node := .nestedLoopJoin left.node right.node predicate type.isOuter
      labels := left.labels ++ right.labels
      scope := scope }
  return if type = .right then swapColumns left.node.columns right.node.columns join else join

/-- Builds the sides of a join, and the join in a scope of their columns. -/
def joinItems (buildLeft buildRight : Except Failure FromClause) (type : Ast.JoinType)
    (predicate : Option Ast.Expression) : Except Failure FromClause := do
  let left ← buildLeft
  let scope ← Scope.new.merge left.scope
  let right ← buildRight
  let scope ← scope.merge right.scope
  buildJoin left right type predicate scope

/-- Builds a FROM item in its own scope. -/
def buildItem (catalog : Catalog) : Ast.From → Except Failure FromClause
  | .table name alias' => do
      let table ← catalog.mustGetTable name
      let scope ← Scope.new.addTable table alias'
      return {
        node := .scan table none
        labels := table.columns.map fun column => .qualified (alias'.getD table.name) column.name
        scope := scope }
  | .join left right type predicate =>
      -- A right join is a left join of the swapped sides, which are swapped back.
      if type = .right then
        joinItems (buildItem catalog right) (buildItem catalog left) type predicate
      else joinItems (buildItem catalog left) (buildItem catalog right) type predicate

/-- Joins another item to the ones before it. -/
def joinItem (catalog : Catalog) (clause : FromClause) (item : Ast.From) :
    Except Failure FromClause := do
  let right ← buildItem catalog item
  let scope ← clause.scope.merge right.scope
  return {
    node := .nestedLoopJoin clause.node right.node none false
    labels := clause.labels ++ right.labels
    scope := scope }

def buildFromClause (catalog : Catalog) : List Ast.From → Except Failure FromClause
  | [] => invalid "no from items given"
  | item :: items => do
      let first ← buildItem catalog item
      let scope ← Scope.new.merge first.scope
      items.foldlM (joinItem catalog) { first with scope := scope }

/-- A single empty row, which a SELECT without FROM projects. -/
def emptyRow : FromClause where
  node := .values [[]]
  labels := []
  scope := .new

def buildSource (catalog : Catalog) (from' : List Ast.From) : Except Failure FromClause :=
  if from' = [] then .ok emptyRow else buildFromClause catalog from'

/-! ## SELECT -/

/-- A column with the label as its name. -/
def labelExpression : Label → Except Failure Ast.Expression
  | .qualified table name => .ok (.column (some table) name)
  | .unqualified name => .ok (.column none name)
  | .none => panics "can't convert None label to AST expression"

/-- The items that an item stands for. -/
def expandItem (labels : List Label) :
    Ast.Expression × Option String → Except Failure (List (Ast.Expression × Option String))
  | (.all, _) => labels.mapM fun label => do return (← labelExpression label, none)
  | (expr, alias') => .ok [(expr, alias')]

/-- Replaces `*` by the columns, unless it is alone and the rows are not grouped. -/
def expandAll (clause : FromClause) (groupBy : List Ast.Expression)
    (select : List (Ast.Expression × Option String)) :
    Except Failure (List (Ast.Expression × Option String)) :=
  if (.all, none) ∈ select then
    if clause.node.columns = 0 then invalid "SELECT * requires a FROM clause"
    else if 1 < select.length ∨ groupBy ≠ [] then do
      return (← select.mapM (expandItem clause.labels)).flatten
    else .ok select
  else .ok select

def buildWhere (scope : Scope) (node : Node) (where' : Option Ast.Expression) :
    Except Failure Node := do
  match ← buildOption scope where' with
  | some predicate => return .filter node predicate
  | none => return node

/-- Groups the rows if there are aggregates or a GROUP BY clause. -/
def buildGroups (node : Node) (scope : Scope) (groupBy aggregates : List Ast.Expression) :
    Except Failure (Node × Scope) :=
  if groupBy = [] ∧ aggregates = [] then .ok (node, scope)
  else buildAggregate node scope groupBy aggregates

/-- Adds a hidden column for what the visited expression needs of the parent scope. The
hidden columns are those after the ones of the projection. -/
def hideColumn (scope : Scope) (expr : Ast.Expression) (state : Scope × List Expression) :
    Bool × (Scope × List Expression) :=
  let hide (index : ℕ) : Bool × (Scope × List Expression) :=
    (true, state.1.addPassthrough scope index true, state.2 ++ [.column index])
  match scope.lookupAggregate expr, state.1.lookupAggregate expr with
  | some index, none => hide index
  | _, _ =>
      match expr with
      | .column table name =>
          match state.1.lookupColumn table name, scope.lookupColumn table name with
          | .error _, .ok index => hide index
          | _, _ => (true, state)
      | _ => (true, state)

/-- The hidden columns for HAVING and ORDER BY, and the scope that has them. -/
def buildSelectHidden (having : Option Ast.Expression)
    (orderBy : List (Ast.Expression × Ast.Direction)) (scope child : Scope) :
    Scope × List Expression :=
  (having.toList ++ orderBy.map (·.1)).foldl
    (fun state expr => (expr.walk (hideColumn scope) state).2) (child, [])

def aliasLabel : Option String → Label
  | some name => .unqualified name
  | none => .none

/-- Projects the items and the hidden columns. -/
def buildItems (node : Node) (scope : Scope) (select : List (Ast.Expression × Option String))
    (having : Option Ast.Expression) (orderBy : List (Ast.Expression × Ast.Direction)) :
    Except Failure (Node × Scope) := do
  let expressions ← select.mapM fun (expr, _) => buildExpression scope expr
  let aliases := select.map fun (_, alias') => aliasLabel alias'
  let (child, hidden) := buildSelectHidden having orderBy scope (scope.project select)
  return (.projection node (expressions ++ hidden)
    (aliases ++ List.replicate hidden.length .none), child)

/-- Projects the items, unless they are a trivial `*`. -/
def buildProjection (source : Node × Scope) (select : List (Ast.Expression × Option String))
    (having : Option Ast.Expression) (orderBy : List (Ast.Expression × Ast.Direction)) :
    Except Failure (Node × Scope) :=
  if select = [(.all, none)] then .ok source
  else buildItems source.1 source.2 select having orderBy

def buildHaving (scope : Scope) (node : Node) : Option Ast.Expression → Except Failure Node
  | some having =>
      if scope.aggregates.isEmpty then
        invalid "HAVING requires GROUP BY or aggregate function"
      else do return .filter node (← buildExpression scope having)
  | none => .ok node

def buildOrderBy (scope : Scope) (node : Node)
    (orderBy : List (Ast.Expression × Ast.Direction)) : Except Failure Node :=
  if orderBy = [] then .ok node
  else do
    let key ← orderBy.mapM fun (expr, direction) => do
      return (← buildExpression scope expr, direction.toDirection)
    return .order node key

/-- The constant number of rows of an OFFSET or LIMIT clause. -/
def buildCount (fn : Builtins) (name : String) (expr : Ast.Expression) : Except Failure ℕ := do
  match ← buildConstantValue fn expr with
  | .integer i =>
      if 0 ≤ i.toInt then return i.toInt.toNat
      else invalid s!"invalid {name} {(Value.integer i).display}"
  | value => invalid s!"invalid {name} {value.display}"

def buildOffset (fn : Builtins) (node : Node) : Option Ast.Expression → Except Failure Node
  | some offset => do return .offset node (← buildCount fn "offset" offset)
  | none => .ok node

def buildLimit (fn : Builtins) (node : Node) : Option Ast.Expression → Except Failure Node
  | some limit => do return .limit node (← buildCount fn "limit" limit)
  | none => .ok node

/-- Removes the hidden columns. -/
def removeHidden (scope : Scope) (node : Node) : Node :=
  match scope.remapHidden with
  | some targets => .remap node targets
  | none => node

/-- What is built of a SELECT up to its projection: the rows of the FROM clause, the items,
the groups, and the projection of the items from them. -/
structure SelectClause where
  from' : FromClause
  select : List (Ast.Expression × Option String)
  source : Node × Scope
  projection : Node × Scope

/-- Builds the clauses of a SELECT up to the projection. -/
def buildSelectClause (catalog : Catalog) (statement : Ast.Select) :
    Except Failure SelectClause := do
  let clause ← buildSource catalog statement.from'
  let select ← expandAll clause statement.groupBy statement.select
  let node ← buildWhere clause.scope clause.node statement.where'
  let aggregates := collectAggregates select statement.having statement.orderBy
  let source ← buildGroups node clause.scope statement.groupBy aggregates
  let projection ← buildProjection source select statement.having statement.orderBy
  return { from' := clause, select := select, source := source, projection := projection }

def buildSelect (fn : Builtins) (catalog : Catalog) (statement : Ast.Select) :
    Except Failure Node := do
  let clause ← buildSelectClause catalog statement
  let (node, scope) := clause.projection
  let node ← buildHaving scope node statement.having
  let node ← buildOrderBy scope node statement.orderBy
  let node ← buildOffset fn node statement.offset
  let node ← buildLimit fn node statement.limit
  return removeHidden scope node

/-! ## Other statements -/

/-- The default of a column. Without one, it is NULL if that is allowed. -/
def buildDefault (fn : Builtins) (nullable : Bool) :
    Option Ast.Expression → Except Failure (Option Value)
  | some expr => do return some (← buildConstantValue fn expr)
  | none => .ok (if nullable then some .null else none)

def buildColumn (fn : Builtins) (column : Ast.Column) : Except Failure Column := do
  let nullable := column.nullable.getD !column.primaryKey
  let default ← buildDefault fn nullable column.default
  return {
    name := column.name
    datatype := column.datatype
    nullable := nullable
    default := default
    unique := column.unique || column.primaryKey
    index := (column.index || column.unique || column.references.isSome) && !column.primaryKey
    references := column.references }

def buildCreateTable (fn : Builtins) (name : String) (columns : List Ast.Column) :
    Except Failure Plan :=
  match columns.findIdx? (·.primaryKey) with
  | none => invalid s!"no primary key for table {name}"
  | some primaryKey =>
      if 1 < (columns.filter (·.primaryKey)).length then
        invalid s!"multiple primary keys for table {name}"
      else do
        let columns ← columns.mapM (buildColumn fn)
        return .createTable { name := name, primaryKey := primaryKey, columns := columns }

def buildDelete (catalog : Catalog) (table : String) (where' : Option Ast.Expression) :
    Except Failure Plan := do
  let table ← catalog.mustGetTable table
  let scope ← Scope.fromTable table
  let filter ← buildOption scope where'
  return .delete table.name table.primaryKey (.scan table filter)

/-- Maps the columns with the given names to the positions of their values. -/
def buildColumnMap (table : Table) (map : List (ℕ × ℕ)) :
    List (String × ℕ) → Except Failure (List (ℕ × ℕ))
  | [] => .ok map
  | (name, value) :: names =>
      match table.columns.findIdx? (·.name = name) with
      | none => invalid s!"unknown column {name} in table {table.name}"
      | some column =>
          if (map.lookup column).isSome then invalid s!"column {name} given multiple times"
          else buildColumnMap table (insertEntry column value map) names

def buildColumns (table : Table) :
    Option (List String) → Except Failure (Option (List (ℕ × ℕ)))
  | some columns => do return some (← buildColumnMap table [] columns.zipIdx)
  | none => .ok none

def buildInsert (catalog : Catalog) (table : String) (columns : Option (List String))
    (values : List (List Ast.Expression)) : Except Failure Plan := do
  let table ← catalog.mustGetTable table
  let columnMap ← buildColumns table columns
  let rows ← values.mapM fun exprs => exprs.mapM (buildExpression .new)
  return .insert table columnMap (.values rows)

/-- The value that a column is set to. -/
def buildSet (table : Table) (scope : Scope) (column : String) (expr : Option Ast.Expression) :
    Except Failure (ℕ × Expression) := do
  let index ← scope.lookupColumn none column
  match expr with
  | some expr => return (index, ← buildExpression scope expr)
  | none =>
      match table.columns[index]? with
      | none => panics "index out of bounds"
      | some ⟨_, _, _, some default, _, _, _⟩ => return (index, .constant default)
      | some _ => invalid s!"column {column} has no default value"

def buildUpdate (catalog : Catalog) (table : String) (set : List (String × Option Ast.Expression))
    (where' : Option Ast.Expression) : Except Failure Plan := do
  let table ← catalog.mustGetTable table
  let scope ← Scope.fromTable table
  let filter ← buildOption scope where'
  let expressions ← set.mapM fun (column, expr) => buildSet table scope column expr
  return .update table table.primaryKey (.scan table filter) expressions

/-- Builds the plan of a statement. -/
def build (fn : Builtins) (catalog : Catalog) : Ast.Statement → Except Failure Plan
  | .createTable name columns => buildCreateTable fn name columns
  | .dropTable name ifExists => .ok (.dropTable name ifExists)
  | .delete table where' => buildDelete catalog table where'
  | .insert table columns values => buildInsert catalog table columns values
  | .update table set where' => buildUpdate catalog table set where'
  | .select select => do return .select (← buildSelect fn catalog select)

end Planner
end ToyDB.Sql
