import ToyDB.Sql.Execution.Agreement
import ToyDB.Sql.Execution.Width

/-!
# Short-circuiting

Nodes that cannot emit anything are replaced by a node that emits nothing, and nodes
without an effect are removed. The rewritten plan yields the same rows up to the first
error, except below outer joins: these emit their left rows even if the predicate is never
true or the right side is empty.
-/
namespace ToyDB.Sql
open ToyDB.Collections

/-- Rewrites a node after its sources. -/
def Node.transformAfter (after : Node → Node) : Node → Node
  | .aggregate source groupBy aggregates =>
      after (.aggregate (source.transformAfter after) groupBy aggregates)
  | .filter source predicate => after (.filter (source.transformAfter after) predicate)
  | .hashJoin left leftColumn right rightColumn outer =>
      after (.hashJoin (left.transformAfter after) leftColumn (right.transformAfter after)
        rightColumn outer)
  | .limit source n => after (.limit (source.transformAfter after) n)
  | .nestedLoopJoin left right predicate outer =>
      after (.nestedLoopJoin (left.transformAfter after) (right.transformAfter after) predicate outer)
  | .offset source n => after (.offset (source.transformAfter after) n)
  | .order source key => after (.order (source.transformAfter after) key)
  | .projection source expressions aliases =>
      after (.projection (source.transformAfter after) expressions aliases)
  | .remap source targets => after (.remap (source.transformAfter after) targets)
  | node => after node

/-- The constants that select no row. -/
def Expression.isFalseOrNull (expr : Expression) : Bool :=
  expr = .constant (.boolean false) || expr = .constant .null

def Node.isNothing : Node → Bool
  | .nothing _ => true
  | _ => false

namespace ShortCircuit

/-- A projection that passes on the columns of its source. -/
def isNoop : Node → Bool
  | .projection source expressions aliases =>
      source.columns = expressions.length && aliases.all (· = .none) &&
        expressions.zipIdx.all fun expr => expr.1 = .column expr.2
  | _ => false

/-- Removes what has no effect. -/
def simplify (node : Node) : Node :=
  match node with
  | .filter source predicate =>
      if predicate = .constant (.boolean true) then source else node
  | .scan table filter =>
      if filter = some (.constant (.boolean true)) then .scan table none else node
  | .nestedLoopJoin left right predicate outer =>
      if predicate = some (.constant (.boolean true)) then .nestedLoopJoin left right none outer
      else node
  | .projection source _ _ => if isNoop node then source else node
  | _ => node

/-- Whether the code takes the node to emit nothing. -/
def isEmpty : Node → Bool
  | .filter source predicate => predicate.isFalseOrNull || source.isNothing
  | .indexLookup _ _ values => values.isEmpty
  | .keyLookup _ keys => keys.isEmpty
  | .limit _ n => n = 0
  | .nestedLoopJoin left right predicate _ =>
      predicate.any Expression.isFalseOrNull || left.isNothing || right.isNothing
  | .scan _ filter => filter.any Expression.isFalseOrNull
  | .values rows => rows.isEmpty
  | .hashJoin left _ right _ _ => left.isNothing || right.isNothing
  | .offset source _ => source.isNothing
  | .order source _ => source.isNothing
  | .projection source _ _ => source.isNothing
  | _ => false

def shortCircuit (node : Node) : Node :=
  let node := simplify node
  if isEmpty node then .nothing node.columns else node

def optimize (node : Node) : Node := node.transformAfter shortCircuit

theorem optimize_eq (node : Node) : optimize node = shortCircuit (node.mapSources optimize) := by
  cases node <;> rfl

/-! ## Columns -/

theorem columns_simplify (node : Node) : (simplify node).columns = node.columns := by
  unfold simplify
  split
  · split_ifs <;> rfl
  · split_ifs <;> rfl
  · split_ifs <;> rfl
  · split_ifs with h
    · unfold isNoop at h
      simp only [Bool.and_eq_true, decide_eq_true_eq] at h
      exact h.1.1
    · rfl
  · rfl

theorem columns_shortCircuit (node : Node) : (shortCircuit node).columns = node.columns := by
  unfold shortCircuit
  dsimp only
  split_ifs
  · exact columns_simplify node
  · exact columns_simplify node

theorem columns_mapSources {f : Node → Node} {node : Node}
    (h : ∀ source ∈ node.sources, (f source).columns = source.columns) :
    (node.mapSources f).columns = node.columns := by
  cases node with
  | hashJoin | nestedLoopJoin =>
      simp only [Node.sources, List.forall_mem_cons] at h
      simp only [Node.mapSources, Node.columns, h.1, h.2.1]
  | filter | limit | offset | order => exact h _ List.mem_cons_self
  | aggregate | indexLookup | keyLookup | nothing | projection | remap | scan | values => rfl

theorem columns_optimize (node : Node) : (optimize node).columns = node.columns := by
  induction node using Node.sources_induction with
  | h node ih => rw [optimize_eq, columns_shortCircuit, columns_mapSources ih]

/-! ## Sources -/

variable {fn : Builtins} {db : OrderedMap Key Datum}

/-- OFFSET skips no error. -/
def SkipsNoError (fn : Builtins) (db : OrderedMap Key Datum) : Node → Prop
  | .offset source n => ∀ rows, executeNode fn db source = .ok rows →
      ∀ item ∈ rows.take n, item.isOk = true
  | _ => True

theorem orderRows_of_error {key : List (Expression × Direction)} {rows : Rows} {e : Failure}
    (he : .error e ∈ rows) (items : Rows) : orderRows fn key rows ≠ .ok items := by
  intro h
  obtain ⟨keyed, hkeyed, -⟩ := bind_eq_ok.mp h
  have hall := forall₂_of_mapM hkeyed
  clear h hkeyed
  induction hall with
  | nil => cases he
  | cons hitem _ ih =>
      obtain rfl | he := List.mem_cons.mp he
      · cases hitem
      · exact ih he

theorem addRows_of_error {groupBy : List Expression} {aggregates : List Aggregate} {rows : Rows}
    {e : Failure} (he : .error e ∈ rows) (buckets buckets' : Aggregator.Buckets) :
    Aggregator.addRows fn groupBy aggregates rows buckets ≠ .ok buckets' := by
  intro h
  induction rows generalizing buckets with
  | nil => cases he
  | cons item rows ih =>
      cases item with
      | error e => cases h
      | ok row =>
          obtain ⟨next, -, h⟩ := bind_eq_ok.mp h
          exact ih (by simpa using he) next h

/-- A node yields rows that agree if its sources do. -/
theorem agrees_mapSources {f : Node → Node} {node : Node}
    (hcolumns : ∀ source ∈ node.sources, (f source).columns = source.columns)
    (hsources : ∀ source ∈ node.sources,
      Agrees (executeNode fn db source) (executeNode fn db (f source)))
    (hskips : SkipsNoError fn db node) :
    Agrees (executeNode fn db node) (executeNode fn db (node.mapSources f)) := by
  cases node with
  | aggregate source groupBy aggregates =>
      refine (hsources source List.mem_cons_self).bind ?_
      intro rows rows' _ hrows
      refine agrees_of_strict (f := fun rows => do
        let buckets ← Aggregator.addRows fn groupBy aggregates rows []
        return Aggregator.intoRows fn groupBy aggregates buckets) hrows ?_
      intro e he items h
      obtain ⟨buckets, hbuckets, -⟩ := bind_eq_ok.mp h
      exact addRows_of_error he [] buckets hbuckets
  | filter source predicate =>
      refine (hsources source List.mem_cons_self).bind ?_
      intro rows rows' _ hrows
      exact .pure (hrows.filter fn predicate)
  | hashJoin left leftColumn right rightColumn outer =>
      have hcolumns := hcolumns right (by simp [Node.sources])
      refine (hsources left (by simp [Node.sources])).bind ?_
      intro leftRows leftRows' _ hleft
      refine (hsources right (by simp [Node.sources])).bind ?_
      intro rightRows rightRows' _ hright items hitems
      obtain ⟨hashed, hhashed, hitems⟩ := bind_eq_ok.mp hitems
      cases hitems
      obtain ⟨list, rfl⟩ := JoinSources.rows_of_isOk (JoinSources.isOk_of_hashRight hhashed)
      rw [hright.eq_of_ok, hhashed, hcolumns]
      exact ⟨_, rfl, hleft.hashJoin leftColumn hashed _ outer⟩
  | indexLookup | keyLookup | nothing | scan | values => exact .refl _
  | limit source n =>
      refine (hsources source List.mem_cons_self).bind ?_
      intro rows rows' _ hrows
      exact .pure (hrows.take n)
  | nestedLoopJoin left right predicate outer =>
      have hcolumns := hcolumns right (by simp [Node.sources])
      refine (hsources left (by simp [Node.sources])).bind ?_
      intro leftRows leftRows' _ hleft
      refine (hsources right (by simp [Node.sources])).bind ?_
      intro rightRows rightRows' _ hright
      rw [hcolumns]
      exact .pure (hleft.nestedLoopJoin hright fn _ predicate outer)
  | offset source n =>
      refine (hsources source List.mem_cons_self).bind ?_
      intro rows rows' hresult hrows
      exact .pure (hrows.drop (hskips rows hresult))
  | order source key =>
      refine (hsources source List.mem_cons_self).bind ?_
      intro rows rows' _ hrows
      exact agrees_of_strict hrows fun e he items => orderRows_of_error he items
  | projection source expressions aliases =>
      refine (hsources source List.mem_cons_self).bind ?_
      intro rows rows' _ hrows
      exact .pure (hrows.mapRows _)
  | remap source targets =>
      refine (hsources source List.mem_cons_self).bind ?_
      intro rows rows' _ hrows
      exact .pure (hrows.mapRows _)

/-! ## What is removed -/

theorem filter_true (rows : Rows) :
    rows.filter fn (.constant (.boolean true)) = rows := by
  induction rows with
  | nil => rfl
  | cons item rows ih =>
      cases item with
      | error e => exact congrArg (List.cons _) ih
      | ok row => exact congrArg (List.cons _) ih

theorem joinRow_true (right : Rows) (row : Row) :
    joinRow fn (some (.constant (.boolean true))) right row = joinRow fn none right row := by
  induction right with
  | nil => rfl
  | cons item right ih =>
      cases item with
      | error e => exact congrArg (List.cons _) ih
      | ok row => exact congrArg (List.cons _) ih

variable (fn) in
/-- The columns of a row, in their order, are the row. -/
theorem evaluate_columns (expressions : List Expression) (first rest : Row)
    (hpass : ∀ expr ∈ expressions.zipIdx first.length, expr.1 = .column expr.2)
    (hlength : rest.length = expressions.length) :
    expressions.mapM (fun expr => expr.evaluate fn (some (first ++ rest))) = .ok rest := by
  induction expressions generalizing first rest with
  | nil =>
      obtain rfl := List.length_eq_zero_iff.mp hlength
      rfl
  | cons expr expressions ih =>
      cases rest with
      | nil => cases hlength
      | cons value rest =>
          have hexpr : expr = .column first.length := hpass (expr, first.length) (by simp)
          have hvalue : expr.evaluate fn (some (first ++ value :: rest)) = .ok value := by
            rw [hexpr]
            simp [Expression.evaluate]
          have hrest := ih (first ++ [value]) rest (by simpa using fun e i h => hpass (e, i) (by simp [h]))
            (by simpa using hlength)
          rw [List.append_assoc, List.singleton_append] at hrest
          rw [List.mapM_cons, hvalue, hrest]
          rfl

theorem agree_noop {rows : Rows} {expressions : List Expression}
    (hpass : ∀ expr ∈ expressions.zipIdx, expr.1 = .column expr.2)
    (hwide : rows.Wide expressions.length) :
    Rows.Agree (rows.mapRows fun row => expressions.mapM fun expr => expr.evaluate fn (some row))
      rows := by
  induction rows with
  | nil => exact .nil
  | cons item rows ih =>
      cases item with
      | error e => exact .error e _ _
      | ok row =>
          have hrow := evaluate_columns fn expressions [] row hpass
            (hwide row List.mem_cons_self)
          have hrest := ih fun row' h => hwide row' (List.mem_cons_of_mem _ h)
          show Rows.Agree (expressions.mapM (fun expr => expr.evaluate fn (some row)) :: _) _
          rw [List.nil_append] at hrow
          rw [hrow]
          exact .row row hrest

/-- The nodes that are replaced by their sources. -/
def removes (node : Node) : Bool :=
  match node with
  | .filter _ predicate => predicate = .constant (.boolean true)
  | _ => isNoop node

theorem isEmpty_optimize (node : Node) : isEmpty (optimize node) = false := by
  rw [optimize_eq]
  unfold shortCircuit
  dsimp only
  split_ifs with h
  · rfl
  · simpa using h

theorem shortCircuit_of_simplify {node source : Node} (h : simplify node = optimize source) :
    shortCircuit node = optimize source := by
  unfold shortCircuit
  rw [h]
  simp [isEmpty_optimize]

theorem isNoop_mapSources (node : Node) : isNoop (node.mapSources optimize) = isNoop node := by
  cases node with
  | projection source expressions aliases =>
      simp only [Node.mapSources, isNoop, columns_optimize]
  | _ => rfl

/-- A node that is removed leaves its source. -/
theorem optimize_of_removes {node : Node} (h : removes node = true) :
    ∃ source ∈ node.sources, optimize node = optimize source := by
  cases node with
  | filter source predicate =>
      refine ⟨source, List.mem_cons_self, ?_⟩
      rw [optimize_eq]
      exact shortCircuit_of_simplify (if_pos (by simpa [removes] using h))
  | projection source expressions aliases =>
      refine ⟨source, List.mem_cons_self, ?_⟩
      rw [optimize_eq]
      refine shortCircuit_of_simplify (if_pos ?_)
      rw [isNoop_mapSources]
      exact h
  | _ => cases h

variable (fn) in
/-- What is removed yields the rows of its source. -/
theorem agrees_of_removes {node : Node} (h : removes node = true)
    (hfits : isNoop node = true → ∀ leaf, node.Within leaf → leaf.Fits db) :
    ∀ source ∈ node.sources, Agrees (executeNode fn db node) (executeNode fn db source) := by
  cases node with
  | filter source predicate =>
      have htrue : predicate = .constant (.boolean true) := by simpa [removes] using h
      simp only [Node.sources, List.forall_mem_singleton]
      intro items hitems
      obtain ⟨rows, hrows, hitems⟩ := bind_eq_ok.mp hitems
      cases hitems
      refine ⟨rows, hrows, ?_⟩
      rw [htrue, filter_true]
      exact .refl rows
  | projection source expressions aliases =>
      simp only [Node.sources, List.forall_mem_singleton]
      intro items hitems
      obtain ⟨rows, hrows, hitems⟩ := bind_eq_ok.mp hitems
      cases hitems
      have hwide : rows.Wide source.columns := by
        apply wide_executeNode source rows ?_ hrows
        intro leaf hleaf
        exact hfits h leaf ((Node.Within.top.source List.mem_cons_self).trans hleaf)
      have hnoop : isNoop (.projection source expressions aliases) = true := h
      simp only [isNoop, Bool.and_eq_true, decide_eq_true_eq, List.all_eq_true] at hnoop
      rw [hnoop.1.1] at hwide
      exact ⟨rows, hrows, agree_noop (fun expr he => by simpa using hnoop.2 expr he) hwide⟩
  | _ => cases h

/-! ## What is cut -/

/-- Whether the code finds out that the node emits nothing. -/
def vanishes : Node → Bool
  | .filter source predicate => predicate.isFalseOrNull || vanishes source
  | .indexLookup _ _ values => values.isEmpty
  | .keyLookup _ keys => keys.isEmpty
  | .limit _ n => n = 0
  | .nestedLoopJoin left right predicate _ =>
      predicate.any Expression.isFalseOrNull || vanishes left || vanishes right
  | .scan _ filter => filter.any Expression.isFalseOrNull
  | .values rows => rows.isEmpty
  | .hashJoin left _ right _ _ => vanishes left || vanishes right
  | .offset source _ => vanishes source
  | .order source _ => vanishes source
  | .projection source _ _ => vanishes source
  | .nothing _ => true
  | _ => false

/-- An outer join whose right side emits nothing or whose predicate is never true. -/
def isOuter (nothing : Node → Bool) : Node → Bool
  | .nestedLoopJoin _ right predicate true =>
      predicate.any Expression.isFalseOrNull || nothing right
  | .hashJoin _ _ right _ true => nothing right
  | _ => false

/-- An outer join that is replaced although its left rows are to be emitted. -/
def isCut (node : Node) : Bool := isOuter vanishes node

theorem isNothing_simplify {node : Node} (h : removes node = false) (hnothing : node.isNothing = false) :
    (simplify node).isNothing = false := by
  unfold simplify
  cases node with
  | filter source predicate =>
      have htrue : predicate ≠ .constant (.boolean true) := by simpa [removes] using h
      simp only [if_neg htrue]
      rfl
  | projection source expressions aliases =>
      have hnoop : isNoop (.projection source expressions aliases) = false := h
      simp only [hnoop]
      rfl
  | scan table predicate =>
      dsimp only
      split_ifs <;> rfl
  | nestedLoopJoin left right predicate outer =>
      dsimp only
      split_ifs <;> rfl
  | _ => exact hnothing

theorem isEmpty_simplify {node : Node} (h : removes node = false) :
    isEmpty (simplify node) = isEmpty node := by
  unfold simplify
  cases node with
  | filter source predicate =>
      have htrue : predicate ≠ .constant (.boolean true) := by simpa [removes] using h
      simp only [if_neg htrue]
  | projection source expressions aliases =>
      have hnoop : isNoop (.projection source expressions aliases) = false := h
      simp only [hnoop]
      rfl
  | scan table predicate =>
      dsimp only
      split_ifs with htrue
      · rw [htrue]
        rfl
      · rfl
  | nestedLoopJoin left right predicate outer =>
      dsimp only
      split_ifs with htrue
      · rw [htrue]
        rfl
      · rfl
  | _ => rfl

theorem execute_simplify {node : Node} (h : removes node = false) :
    executeNode fn db (simplify node) = executeNode fn db node := by
  unfold simplify
  cases node with
  | filter source predicate =>
      have htrue : predicate ≠ .constant (.boolean true) := by simpa [removes] using h
      simp only [if_neg htrue]
  | projection source expressions aliases =>
      have hnoop : isNoop (.projection source expressions aliases) = false := h
      simp only [hnoop]
      rfl
  | scan table predicate =>
      dsimp only
      split_ifs with htrue
      · rw [htrue]
        exact (congrArg Except.ok (filter_true _)).symm
      · rfl
  | nestedLoopJoin left right predicate outer =>
      dsimp only
      split_ifs with htrue
      · rw [htrue]
        have hjoin : ∀ leftRows rightRows columns,
            nestedLoopJoin fn leftRows rightRows columns (some (.constant (.boolean true))) outer =
              nestedLoopJoin fn leftRows rightRows columns none outer := by
          intro leftRows rightRows columns
          unfold nestedLoopJoin
          simp only [joinRow_true]
        unfold executeNode
        simp only [hjoin]
      · rfl
  | _ => rfl

theorem removes_mapSources (node : Node) : removes (node.mapSources optimize) = removes node := by
  cases node with
  | projection source expressions aliases =>
      exact isNoop_mapSources (.projection source expressions aliases)
  | _ => rfl

/-- What a node becomes that is not removed. -/
theorem optimize_of_kept {node : Node} (h : removes node = false) :
    optimize node =
      if isEmpty (node.mapSources optimize) then .nothing node.columns
      else simplify (node.mapSources optimize) := by
  have hkept : removes (node.mapSources optimize) = false := by rw [removes_mapSources, h]
  rw [optimize_eq]
  unfold shortCircuit
  dsimp only
  rw [isEmpty_simplify hkept, columns_simplify,
    columns_mapSources fun source _ => columns_optimize source]

theorem vanishes_of_removes {node : Node} (h : removes node = true) :
    ∀ source ∈ node.sources, vanishes node = vanishes source := by
  cases node with
  | filter source predicate =>
      have htrue : predicate = .constant (.boolean true) := by simpa [removes] using h
      simp [Node.sources, vanishes, htrue, Expression.isFalseOrNull]
  | projection source expressions aliases => simp [Node.sources, vanishes]
  | _ => cases h

/-- A node becomes one that emits nothing just if it vanishes. -/
theorem isNothing_optimize (node : Node) : (optimize node).isNothing = vanishes node := by
  induction node using Node.sources_induction with
  | h node ih =>
      cases hremoves : removes node with
      | true =>
          obtain ⟨source, hsource, hoptimize⟩ := optimize_of_removes hremoves
          rw [hoptimize, ih source hsource, vanishes_of_removes hremoves source hsource]
      | false =>
          have hkept : removes (node.mapSources optimize) = false := by
            rw [removes_mapSources, hremoves]
          have hempty : vanishes node =
              (isEmpty (node.mapSources optimize) || node.isNothing) := by
            cases node <;> simp_all [Node.sources, Node.mapSources, isEmpty, vanishes, Node.isNothing]
          rw [optimize_of_kept hremoves, hempty]
          split_ifs with h
          · rw [h]
            rfl
          · rw [Bool.not_eq_true] at h
            rw [h, Bool.false_or]
            cases node with
            | nothing columns => rfl
            | _ => exact isNothing_simplify hkept rfl

/-! ## Rows -/

theorem selects_of_isFalseOrNull {predicate : Expression} (h : predicate.isFalseOrNull = true)
    (what : String) (row : Row) : predicate.selects fn what row = .ok false := by
  unfold Expression.isFalseOrNull at h
  obtain rfl | rfl : predicate = .constant (.boolean false) ∨ predicate = .constant .null := by
    simpa using h
  · rfl
  · rfl

theorem rowless_filter {predicate : Expression} (h : predicate.isFalseOrNull = true)
    (rows : Rows) : (rows.filter fn predicate).Rowless := by
  induction rows with
  | nil => simp [Rows.Rowless, Rows.filter]
  | cons item rows ih =>
      cases item with
      | error e => simp [Rows.Rowless, Rows.filter]
      | ok row =>
          unfold Rows.filter at ih ⊢
          rw [List.filterMap_cons]
          simp only [selects_of_isFalseOrNull h] at ih ⊢
          exact ih

theorem rowless_joinRow {predicate : Expression} (h : predicate.isFalseOrNull = true)
    (right : Rows) (left : Row) : (joinRow fn (some predicate) right left).Rowless := by
  induction right with
  | nil => simp [Rows.Rowless, joinRow]
  | cons item right ih =>
      cases item with
      | error e => simp [Rows.Rowless, joinRow]
      | ok row =>
          unfold joinRow at ih ⊢
          rw [List.filterMap_cons]
          simp only [selects_of_isFalseOrNull h] at ih ⊢
          exact ih

theorem execute_of_isNothing {node : Node} (h : node.isNothing = true) :
    executeNode fn db node = .ok [] := by
  cases node with
  | nothing columns => rfl
  | _ => cases h

/-- An inner hash join with nothing on the right yields no row. -/
theorem rowless_hashJoin (left : Rows) (leftColumn columns : ℕ) :
    (hashJoin left leftColumn [] columns false).Rowless := by
  induction left with
  | nil => simp [Rows.Rowless, hashJoin]
  | cons item left ih =>
      cases item with
      | error e => simp [Rows.Rowless, hashJoin]
      | ok row =>
          apply Rows.rowless_append ?_ ih
          dsimp only
          split
          · simp [Rows.Rowless, panics]
          · simp [Rows.Rowless]

theorem isOuter_mapSources (node : Node) :
    isOuter Node.isNothing (node.mapSources optimize) = isCut node := by
  cases node with
  | nestedLoopJoin left right predicate outer =>
      cases outer with
      | true => simp only [Node.mapSources, isCut, isOuter, isNothing_optimize]
      | false => rfl
  | hashJoin left leftColumn right rightColumn outer =>
      cases outer with
      | true => simp only [Node.mapSources, isCut, isOuter, isNothing_optimize]
      | false => rfl
  | _ => rfl

/-- Unless it is an outer join, an empty node yields no row. -/
theorem rowless_of_isEmpty {node : Node} (h : isEmpty node = true)
    (hinner : isOuter Node.isNothing node = false)
    {rows : Rows} (hrows : executeNode fn db node = .ok rows) : rows.Rowless := by
  have hnil : Rows.Rowless [] := by simp [Rows.Rowless]
  cases node with
  | filter source predicate =>
      obtain ⟨items, hitems, hrows⟩ := bind_eq_ok.mp hrows
      cases hrows
      obtain hfalse | hsource := Bool.or_eq_true_iff.mp h
      · exact rowless_filter hfalse items
      · rw [execute_of_isNothing hsource] at hitems
        cases hitems
        exact hnil
  | indexLookup table column values =>
      obtain rfl := List.isEmpty_iff.mp h
      unfold executeNode at hrows
      cases hc : table.columns[column]? with
      | none =>
          rw [hc] at hrows
          cases hrows
      | some c =>
          rw [hc] at hrows
          cases hrows
          exact hnil
  | keyLookup table keys =>
      obtain rfl := List.isEmpty_iff.mp h
      cases hrows
      exact hnil
  | limit source n =>
      obtain ⟨items, hitems, hrows⟩ := bind_eq_ok.mp hrows
      cases hrows
      obtain rfl : n = 0 := by simpa [isEmpty] using h
      exact hnil
  | nestedLoopJoin left right predicate outer =>
      obtain ⟨leftRows, hleft, hrows⟩ := bind_eq_ok.mp hrows
      obtain ⟨rightRows, hright, hrows⟩ := bind_eq_ok.mp hrows
      cases hrows
      have hnoleft : left.isNothing = true →
          (nestedLoopJoin fn leftRows rightRows right.columns predicate outer).Rowless := by
        intro hnothing
        rw [execute_of_isNothing hnothing] at hleft
        cases hleft
        exact hnil
      cases outer with
      | true =>
          simp only [isEmpty] at h
          simp only [isOuter, Bool.or_eq_false_iff] at hinner
          rw [hinner.1, hinner.2, Bool.false_or, Bool.or_false] at h
          exact hnoleft h
      | false =>
          simp only [isEmpty, Bool.or_eq_true, or_assoc] at h
          obtain hfalse | hnothing | hnothing := h
          · cases predicate with
            | none => cases hfalse
            | some p => exact Rows.rowless_nestedLoopJoin (rowless_joinRow hfalse rightRows) _
          · exact hnoleft hnothing
          · rw [execute_of_isNothing hnothing] at hright
            cases hright
            exact Rows.rowless_nestedLoopJoin (hnil.joinRow fn predicate) _
  | scan table predicate =>
      cases predicate with
      | none => cases h
      | some p =>
          cases hrows
          exact rowless_filter h _
  | values lists =>
      obtain rfl := List.isEmpty_iff.mp h
      cases hrows
      exact hnil
  | hashJoin left leftColumn right rightColumn outer =>
      obtain ⟨leftRows, hleft, hrows⟩ := bind_eq_ok.mp hrows
      obtain ⟨rightRows, hright, hrows⟩ := bind_eq_ok.mp hrows
      obtain ⟨hashed, hhashed, hrows⟩ := bind_eq_ok.mp hrows
      cases hrows
      have hnoleft : left.isNothing = true →
          (hashJoin leftRows leftColumn hashed right.columns outer).Rowless := by
        intro hnothing
        rw [execute_of_isNothing hnothing] at hleft
        cases hleft
        exact hnil
      cases outer with
      | true =>
          simp only [isEmpty] at h
          simp only [isOuter] at hinner
          rw [hinner, Bool.or_false] at h
          exact hnoleft h
      | false =>
          obtain hnothing | hnothing := Bool.or_eq_true_iff.mp h
          · exact hnoleft hnothing
          · rw [execute_of_isNothing hnothing] at hright
            cases hright
            cases hhashed
            exact rowless_hashJoin leftRows leftColumn _
  | offset source n =>
      obtain ⟨items, hitems, hrows⟩ := bind_eq_ok.mp hrows
      cases hrows
      rw [execute_of_isNothing h] at hitems
      cases hitems
      simp [Rows.Rowless]
  | order source key =>
      obtain ⟨items, hitems, hrows⟩ := bind_eq_ok.mp hrows
      rw [execute_of_isNothing h] at hitems
      cases hitems
      cases hrows
      simp [Rows.Rowless]
  | projection source expressions aliases =>
      obtain ⟨items, hitems, hrows⟩ := bind_eq_ok.mp hrows
      cases hrows
      rw [execute_of_isNothing h] at hitems
      cases hitems
      exact hnil
  | _ => cases h

/-! ## The plan -/

/-- An outer join that is cut yields no row before its first error. -/
def Spares (fn : Builtins) (db : OrderedMap Key Datum) (node : Node) : Prop :=
  isCut node = true → ∀ rows, executeNode fn db node = .ok rows → rows.Rowless

/-- The assumptions on plan and contents: OFFSET skips no error, and below a projection that
is removed, tables and constants have rows of the right lengths. -/
structure Evaluates (fn : Builtins) (db : OrderedMap Key Datum) (plan : Node) : Prop where
  skips {node : Node} (h : plan.Within node) : SkipsNoError fn db node
  fits {node leaf : Node} (h : plan.Within node) (hnoop : isNoop node = true)
    (hleaf : node.Within leaf) : leaf.Fits db

variable {plan : Node}

/-- A node yields the same rows as before up to its first error. -/
def Kept (fn : Builtins) (db : OrderedMap Key Datum) (node : Node) : Prop :=
  Agrees (executeNode fn db node) (executeNode fn db (optimize node))

theorem kept_of_spares (hplan : Evaluates fn db plan) (node : Node) (hnode : plan.Within node)
    (h : ∀ sub, node.Within sub → Spares fn db sub) : Kept fn db node := by
  induction node using Node.sources_induction with
  | h node ih =>
      have hsources : ∀ source ∈ node.sources, Kept fn db source := by
        intro source hs
        refine ih source hs (hnode.source hs) ?_
        intro sub hsub
        exact h sub ((Node.Within.top.source hs).trans hsub)
      unfold Kept at hsources ⊢
      cases hremoves : removes node with
      | true =>
          obtain ⟨source, hs, hoptimize⟩ := optimize_of_removes hremoves
          rw [hoptimize]
          have hremoved := agrees_of_removes fn hremoves
            fun hnoop leaf hleaf => hplan.fits hnode hnoop hleaf
          exact (hremoved source hs).trans (hsources source hs)
      | false =>
          have hmapped := agrees_mapSources (fun source _ => columns_optimize source) hsources
            (hplan.skips hnode)
          rw [optimize_of_kept hremoves]
          split_ifs with hempty
          · cases hcut : isCut node with
            | true =>
                exact Agrees.nothing (.refl _) (h node .top hcut)
            | false =>
                refine hmapped.nothing ?_
                intro rows hrows
                exact rowless_of_isEmpty hempty (by rw [isOuter_mapSources, hcut]) hrows
          · rw [execute_simplify (by rw [removes_mapSources, hremoves])]
            exact hmapped

/-- A node that is cut is replaced by nothing. -/
theorem optimize_of_isCut {node : Node} (h : isCut node = true) :
    executeNode fn db (optimize node) = .ok [] := by
  apply execute_of_isNothing
  rw [isNothing_optimize]
  unfold isCut at h
  cases node with
  | nestedLoopJoin left right predicate outer =>
      cases outer with
      | true =>
          simp only [vanishes]
          obtain hfalse | hright := Bool.or_eq_true_iff.mp h
          · rw [hfalse, Bool.true_or, Bool.true_or]
          · rw [hright, Bool.or_true]
      | false => cases h
  | hashJoin left leftColumn right rightColumn outer =>
      cases outer with
      | true =>
          have hright : vanishes right = true := h
          simp only [vanishes, hright, Bool.or_true]
      | false => cases h
  | _ => cases h

theorem spares_of_kept {node : Node} (h : Kept fn db node) : Spares fn db node := by
  intro hcut rows hrows
  obtain ⟨rows', hrows', hagree⟩ := h rows hrows
  rw [optimize_of_isCut hcut] at hrows'
  cases hrows'
  exact Rows.agree_nil_iff.mp hagree

/-- Without an outer join that is cut although it yields a row, a plan without errors yields
the same rows; and every node of the plan does up to its first error just if there is no
such join. -/
theorem optimize_preserves_iff (hplan : Evaluates fn db plan) :
    ((∀ node, plan.Within node → Spares fn db node) → ∀ rows : List Row,
      executeNode fn db plan = .ok (rows.map .ok) →
        executeNode fn db (optimize plan) = .ok (rows.map .ok)) ∧
    ((∀ node, plan.Within node → Kept fn db node) ↔
      ∀ node, plan.Within node → Spares fn db node) := by
  refine ⟨?_, ?_, ?_⟩
  · intro hspares rows hrows
    have hkept := kept_of_spares hplan plan .top hspares
    unfold Kept at hkept
    rw [hrows] at hkept
    exact hkept.eq_of_ok
  · intro hkept node hnode
    exact spares_of_kept (hkept node hnode)
  · intro hspares node hnode
    apply kept_of_spares hplan node hnode
    intro sub hsub
    exact hspares sub (hnode.trans hsub)

/-- A projection on the only column of a constant row. -/
def passOn : Node :=
  .projection (.values [[.constant (.integer 1)]]) [.column 0] [.none]

theorem evaluates_passOn : Evaluates Builtins.unused .empty passOn := by
  have hnodes : ∀ {node}, passOn.Within node →
      node = passOn ∨ node = .values [[.constant (.integer 1)]] := by
    intro node h
    induction h with
    | top => exact .inl rfl
    | source _ hs ih =>
        obtain rfl | rfl := ih
        · exact .inr (List.mem_singleton.mp hs)
        · cases hs
  constructor
  · intro node h
    obtain rfl | rfl := hnodes h
    · trivial
    · trivial
  · intro node leaf h _ hleaf
    obtain rfl | rfl := hnodes h
    · obtain rfl | rfl := hnodes hleaf
      · trivial
      · simp [Node.Fits, Node.columns]
    · cases hleaf with
      | top => simp [Node.Fits, Node.columns]
      | source h hs =>
          have hsources : ∀ node, (Node.values [[.constant (.integer 1)]]).Within node →
              node.sources = [] := by
            intro node h
            induction h with
            | top => rfl
            | source _ hs ih =>
                rw [ih] at hs
                cases hs
          rw [hsources _ h] at hs
          cases hs

theorem optimize_preserves_passOn :
    ((∀ node, passOn.Within node → Spares Builtins.unused .empty node) → ∀ rows : List Row,
      executeNode Builtins.unused .empty passOn = .ok (rows.map .ok) →
        executeNode Builtins.unused .empty (optimize passOn) = .ok (rows.map .ok)) ∧
    ((∀ node, passOn.Within node → Kept Builtins.unused .empty node) ↔
      ∀ node, passOn.Within node → Spares Builtins.unused .empty node) :=
  optimize_preserves_iff evaluates_passOn

/-- A left join on FALSE emits the left row, the node that replaces it does not. -/
theorem leftJoin_not_preserved : ∃ (plan : Node) (rows : List Row),
    executeNode Builtins.unused .empty plan = .ok (rows.map .ok) ∧
      executeNode Builtins.unused .empty (optimize plan) ≠ .ok (rows.map .ok) := by
  refine ⟨.nestedLoopJoin (.values [[.constant (.integer 1)]]) (.values [[.constant (.integer 2)]])
    (some (.constant (.boolean false))) true, [[.integer 1, .null]], ?_, ?_⟩
  · decide +kernel
  · decide +kernel

end ShortCircuit
end ToyDB.Sql
