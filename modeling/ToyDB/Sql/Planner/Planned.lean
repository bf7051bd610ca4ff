import ToyDB.Sql.Planner.Scoping

/-!
# What is planned

The scope of each clause of a SELECT has the columns of its node, so all plans are well
scoped. The columns after the select items are hidden, and are removed at the end.
-/
namespace ToyDB.Sql
namespace Planner
open Expression

/-! ## FROM -/

/-- The scope of a clause has the labels of its columns, and its node is well scoped. -/
structure FromClause.Valid (clause : FromClause) : Prop where
  scope : clause.scope.Plain clause.labels
  labels : clause.labels.length = clause.node.columns
  node : clause.node.All Pushable
  takes : FilterPushdown.takes clause.node = true ∨ clause.node.isRemap = true

theorem length_remapLabels (targets : List (Option ℕ)) (labels : List Label) :
    (remapLabels targets labels).length = Node.remapSize targets := by
  simp [remapLabels]

theorem length_swapTargets (left right : ℕ) : (swapTargets left right).length = left + right := by
  simp [swapTargets]

theorem FromClause.Valid.swapColumns {join : FromClause} (h : join.Valid) {left right : ℕ}
    (hcolumns : join.node.columns = left + right) : (swapColumns left right join).Valid := by
  have hfills := Node.fills_of_perm (perm_swapTargets left right)
  refine ⟨h.scope.remap hfills, length_remapLabels _ _,
    Node.all_iff.mpr ⟨⟨⟨?_, hfills⟩, trivial⟩, ?_⟩, .inr rfl⟩
  · rw [length_swapTargets, hcolumns]
  · intro source hsource
    obtain rfl := List.mem_singleton.mp hsource
    exact h.node

/-- A join in a scope of the columns of both sides. -/
theorem FromClause.Valid.join {left right : FromClause} (hleft : left.Valid) (hright : right.Valid)
    {scope : Scope} (hscope : scope.Plain (left.labels ++ right.labels))
    {predicate : Option Expression} (hpredicate : ∀ e ∈ predicate, e.Below scope.columns.length)
    (outer : Bool) :
    FromClause.Valid {
      node := .nestedLoopJoin left.node right.node predicate outer
      labels := left.labels ++ right.labels
      scope := scope } := by
  have hlength : (left.labels ++ right.labels).length = left.node.columns + right.node.columns := by
    rw [List.length_append, hleft.labels, hright.labels]
  refine ⟨hscope, hlength, Node.all_iff.mpr ⟨⟨?_, hleft.takes, hright.takes⟩, ?_⟩, .inl rfl⟩
  · intro e he
    rw [← hlength, ← hscope.columns]
    exact hpredicate e he
  · intro source hsource
    obtain rfl | hsource := List.mem_cons.mp hsource
    · exact hleft.node
    · obtain rfl := List.mem_singleton.mp hsource
      exact hright.node

theorem valid_buildJoin {left right join : FromClause} (hleft : left.Valid) (hright : right.Valid)
    {scope : Scope} (hscope : scope.Plain (left.labels ++ right.labels)) {type : Ast.JoinType}
    {predicate : Option Ast.Expression}
    (h : buildJoin left right type predicate scope = .ok join) : join.Valid := by
  obtain ⟨built, hbuilt, h⟩ := bind_eq_ok.mp h
  have hjoin := hleft.join hright hscope (below_buildOption hscope.valid hbuilt) type.isOuter
  obtain rfl := Except.ok.inj h
  split_ifs
  · exact hjoin.swapColumns rfl
  · exact hjoin

theorem valid_joinItems {buildLeft buildRight : Except Failure FromClause} {type : Ast.JoinType}
    {predicate : Option Ast.Expression} {join : FromClause}
    (hleft : ∀ left, buildLeft = .ok left → left.Valid)
    (hright : ∀ right, buildRight = .ok right → right.Valid)
    (h : joinItems buildLeft buildRight type predicate = .ok join) : join.Valid := by
  obtain ⟨left, hl, h⟩ := bind_eq_ok.mp h
  obtain ⟨scope, hscope, h⟩ := bind_eq_ok.mp h
  obtain ⟨right, hr, h⟩ := bind_eq_ok.mp h
  obtain ⟨both, hboth, h⟩ := bind_eq_ok.mp h
  have hplain := Scope.plain_new.merge (hleft left hl).scope hscope
  exact valid_buildJoin (hleft left hl) (hright right hr)
    (hplain.merge (hright right hr).scope hboth) h

theorem valid_buildItem {catalog : Catalog} (item : Ast.From) : ∀ clause,
    buildItem catalog item = .ok clause → clause.Valid := by
  induction item with
  | table name alias' =>
      intro clause h
      obtain ⟨table, -, h⟩ := bind_eq_ok.mp h
      obtain ⟨scope, hscope, h⟩ := bind_eq_ok.mp h
      have hplain := Scope.plain_new.addTable hscope
      obtain rfl := Except.ok.inj h
      refine ⟨hplain, by simp [Node.columns], Node.all_iff.mpr ⟨⟨?_, trivial⟩, ?_⟩, .inl rfl⟩
      · intro e he
        cases he
      · intro source hsource
        cases hsource
  | join left right type predicate ihl ihr =>
      intro clause h
      unfold buildItem at h
      split_ifs at h
      · exact valid_joinItems ihr ihl h
      · exact valid_joinItems ihl ihr h

theorem valid_joinItem {catalog : Catalog} {clause join : FromClause} (hclause : clause.Valid)
    {item : Ast.From} (h : joinItem catalog clause item = .ok join) : join.Valid := by
  obtain ⟨right, hright, h⟩ := bind_eq_ok.mp h
  obtain ⟨scope, hscope, h⟩ := bind_eq_ok.mp h
  have hvalid := valid_buildItem item right hright
  obtain rfl := Except.ok.inj h
  exact hclause.join hvalid (hclause.scope.merge hvalid.scope hscope) (by simp) false

theorem valid_buildFromClause {catalog : Catalog} {items : List Ast.From} {clause : FromClause}
    (h : buildFromClause catalog items = .ok clause) : clause.Valid := by
  have hfold : ∀ (items : List Ast.From) (first clause : FromClause), first.Valid →
      items.foldlM (joinItem catalog) first = .ok clause → clause.Valid := by
    intro items
    induction items with
    | nil =>
        intro first clause hfirst h
        obtain rfl := Except.ok.inj h
        exact hfirst
    | cons item items ih =>
        intro first clause hfirst h
        rw [List.foldlM_cons] at h
        obtain ⟨next, hnext, h⟩ := bind_eq_ok.mp h
        exact ih next clause (valid_joinItem hfirst hnext) h
  cases items with
  | nil => cases h
  | cons item items =>
      obtain ⟨first, hfirst, h⟩ := bind_eq_ok.mp h
      obtain ⟨scope, hscope, h⟩ := bind_eq_ok.mp h
      have hvalid := valid_buildItem item first hfirst
      exact hfold items { first with scope := scope } clause
        ⟨Scope.plain_new.merge hvalid.scope hscope, hvalid.labels, hvalid.node, hvalid.takes⟩ h

theorem all_emptyRow : emptyRow.node.All Pushable := by
  refine Node.all_iff.mpr ⟨⟨?_, trivial⟩, ?_⟩
  · intro row hrow e he
    obtain rfl := List.mem_singleton.mp hrow
    cases he
  · intro source hsource
    cases hsource

/-! ## Aggregation -/

/-- A node in whose scope the clauses above it are built. -/
structure Valid (stage : Node × Scope) : Prop where
  scope : stage.2.Valid
  columns : stage.2.columns.length = stage.1.columns
  node : stage.1.All Pushable

theorem valid_addAggregate {parent child child' : Scope} {expr : Ast.Expression}
    (h : child.Valid) (hadd : child.addAggregate expr parent = some child') :
    child'.Valid ∧ child'.columns.length = child.columns.length + 1 ∧
      child'.hidden = child.hidden := by
  unfold Scope.addAggregate at hadd
  split at hadd
  · cases hadd
  · have hcolumn := h.addColumn (parent.labelOf expr)
    obtain rfl := Option.some.inj hadd
    refine ⟨⟨hcolumn.qualified, hcolumn.unqualified, ?_⟩, by simp, by simp⟩
    intro entry hentry
    obtain rfl | hentry := List.mem_cons.mp hentry
    · simp
    · exact hcolumn.aggregates entry hentry

theorem valid_addAggregates (parent : Scope) {child : Scope} (h : child.Valid)
    (exprs : List Ast.Expression) :
    (addAggregates parent child exprs).1.Valid ∧
      (addAggregates parent child exprs).1.columns.length =
        child.columns.length + (addAggregates parent child exprs).2.length ∧
      (addAggregates parent child exprs).1.hidden = child.hidden := by
  induction exprs generalizing child with
  | nil => exact ⟨h, rfl, rfl⟩
  | cons expr exprs ih =>
      rw [addAggregates]
      cases hadd : child.addAggregate expr parent with
      | none => exact ih h
      | some child' =>
          obtain ⟨hvalid, hlength, hhidden⟩ := valid_addAggregate h hadd
          obtain ⟨hvalid', hlength', hhidden'⟩ := ih hvalid
          refine ⟨hvalid', ?_, hhidden'.trans hhidden⟩
          rw [hlength', hlength, List.length_cons]
          omega

theorem below_buildAggregateFunction {scope : Scope} (h : scope.Valid) {expr : Ast.Expression}
    {aggregate : Aggregate} (hbuilt : buildAggregateFunction scope expr = .ok aggregate) :
    aggregate.expr.Below scope.columns.length := by
  unfold buildAggregateFunction at hbuilt
  split at hbuilt
  · split at hbuilt
    · split_ifs at hbuilt
      · cases hbuilt
      · obtain ⟨e, he, hbuilt⟩ := bind_eq_ok.mp hbuilt
        obtain ⟨function, -, hbuilt⟩ := bind_eq_ok.mp hbuilt
        cases hbuilt
        unfold buildAggregateArgument at he
        split_ifs at he
        · cases he
          exact below_constant _
        · exact below_buildExpression h _ e he
    · cases hbuilt
  · cases hbuilt

theorem valid_buildAggregate {source : Node} {scope : Scope} (h : Valid (source, scope))
    {groupBy aggregates : List Ast.Expression} {stage : Node × Scope}
    (hbuilt : buildAggregate source scope groupBy aggregates = .ok stage) :
    Valid stage ∧ stage.2.hidden = [] := by
  unfold buildAggregate at hbuilt
  obtain ⟨hgroups, hgroupsLength, hgroupsHidden⟩ :=
    valid_addAggregates scope (Scope.valid_spawn scope) groupBy
  obtain ⟨hchild, hchildLength, hchildHidden⟩ := valid_addAggregates scope hgroups aggregates
  obtain ⟨groups, hg, hbuilt⟩ := bind_eq_ok.mp hbuilt
  obtain ⟨functions, hf, hbuilt⟩ := bind_eq_ok.mp hbuilt
  obtain rfl := Except.ok.inj hbuilt
  refine ⟨⟨hchild, ?_, Node.all_iff.mpr ⟨⟨⟨?_, ?_⟩, trivial⟩, ?_⟩⟩, hchildHidden.trans hgroupsHidden⟩
  · simp only [Node.columns]
    rw [hchildLength, hgroupsLength, length_mapM hg, length_mapM hf]
    simp only [Scope.spawn, Scope.new, List.length_nil]
    omega
  · rw [← h.columns]
    exact below_mapM h.scope hg
  · rw [← h.columns]
    intro a ha
    obtain ⟨expr, -, hexpr⟩ := exists_of_mem_mapM hf ha
    exact below_buildAggregateFunction h.scope hexpr
  · intro node hnode
    obtain rfl := List.mem_singleton.mp hnode
    exact h.node

theorem valid_buildGroups {node : Node} {scope : Scope} (h : Valid (node, scope))
    (hhidden : scope.hidden = []) {groupBy aggregates : List Ast.Expression}
    {stage : Node × Scope} (hbuilt : buildGroups node scope groupBy aggregates = .ok stage) :
    Valid stage ∧ stage.2.hidden = [] := by
  unfold buildGroups at hbuilt
  split_ifs at hbuilt
  · obtain rfl := Except.ok.inj hbuilt
    exact ⟨h, hhidden⟩
  · exact valid_buildAggregate h hbuilt

/-! ## Projection -/

theorem snd_of_mem_orInserts {column index : ℕ} {entry : Ast.Expression × ℕ}
    (parents : List (Ast.Expression × ℕ)) : ∀ entries : List (Ast.Expression × ℕ),
    entry ∈ parents.foldl (fun entries (expr, i) =>
      if i = column then orInsert expr index entries else entries) entries →
    entry ∈ entries ∨ entry.2 = index := by
  induction parents with
  | nil => exact fun entries h => .inl h
  | cons parent parents ih =>
      intro entries h
      obtain ⟨expr, i⟩ := parent
      rw [List.foldl_cons] at h
      obtain h | h := ih _ h
      · dsimp only at h
        split_ifs at h
        · obtain rfl | h := mem_of_mem_orInsert h
          · exact .inr rfl
          · exact .inl h
        · exact .inl h
      · exact .inr h

@[simp] theorem columns_addPassthrough (self parent : Scope) (index : ℕ) (hide : Bool) :
    (self.addPassthrough parent index hide).columns =
      self.columns ++ [parent.columns.getD index .none] :=
  Scope.columns_addColumn self _

theorem valid_addPassthrough {self : Scope} (h : self.Valid) (parent : Scope) (index : ℕ)
    (hide : Bool) : (self.addPassthrough parent index hide).Valid := by
  have hcolumn := h.addColumn (parent.columns.getD index .none)
  refine ⟨hcolumn.qualified, hcolumn.unqualified, ?_⟩
  intro entry hentry
  obtain hentry | hentry := snd_of_mem_orInserts _ _ hentry
  · exact hcolumn.aggregates entry hentry
  · rw [hentry, columns_addPassthrough]
    simp

theorem hidden_addPassthrough (self parent : Scope) (index : ℕ) :
    (self.addPassthrough parent index true).hidden = self.columns.length :: self.hidden := by
  simp [Scope.addPassthrough]

/-- A step of the projected scope. -/
def projectItem (scope child : Scope) (item : Ast.Expression × Option String) : Scope :=
  let label :=
    match item.2 with
    | some alias' => .unqualified alias'
    | none => scope.labelOf item.1
  let index := child.columns.length
  let child := child.addColumn label
  if scope.aggregates.isEmpty then child
  else { child with aggregates := orInsert item.1 index child.aggregates }

theorem valid_projectItem (scope : Scope) {child : Scope} (h : child.Valid)
    (item : Ast.Expression × Option String) :
    (projectItem scope child item).Valid ∧
      (projectItem scope child item).columns.length = child.columns.length + 1 ∧
      (projectItem scope child item).hidden = child.hidden := by
  unfold projectItem
  dsimp only
  generalize (match item.2 with
    | some alias' => Label.unqualified alias'
    | none => scope.labelOf item.1) = label
  have hcolumn := h.addColumn label
  split_ifs
  · exact ⟨hcolumn, by simp, by simp⟩
  · refine ⟨⟨hcolumn.qualified, hcolumn.unqualified, ?_⟩, by simp, by simp⟩
    intro entry hentry
    obtain rfl | hentry := mem_of_mem_orInsert hentry
    · simp
    · exact hcolumn.aggregates entry hentry

theorem valid_project (scope : Scope) (items : List (Ast.Expression × Option String)) :
    (scope.project items).Valid ∧ (scope.project items).columns.length = items.length ∧
      (scope.project items).hidden = [] := by
  have hfold : ∀ (items : List (Ast.Expression × Option String)) (child : Scope), child.Valid →
      (items.foldl (projectItem scope) child).Valid ∧
        (items.foldl (projectItem scope) child).columns.length =
          child.columns.length + items.length ∧
        (items.foldl (projectItem scope) child).hidden = child.hidden := by
    intro items
    induction items with
    | nil => exact fun child h => ⟨h, rfl, rfl⟩
    | cons item items ih =>
        intro child h
        obtain ⟨hvalid, hlength, hhidden⟩ := valid_projectItem scope h item
        obtain ⟨hvalid', hlength', hhidden'⟩ := ih _ hvalid
        refine ⟨hvalid', ?_, hhidden'.trans hhidden⟩
        rw [List.foldl_cons, hlength', hlength, List.length_cons]
        omega
  obtain ⟨hvalid, hlength, hhidden⟩ := hfold items scope.spawn (Scope.valid_spawn scope)
  refine ⟨hvalid, hlength.trans ?_, hhidden⟩
  simp [Scope.spawn, Scope.new]

/-- The hidden columns are those after the first ones, and refer to columns of the scope. -/
structure Hides (scope : Scope) (n : ℕ) (state : Scope × List Expression) : Prop where
  valid : state.1.Valid
  columns : state.1.columns.length = n + state.2.length
  below : ∀ e ∈ state.2, e.Below scope.columns.length
  hidden : ∀ i, i ∈ state.1.hidden ↔ n ≤ i ∧ i < n + state.2.length

theorem Hides.hide {scope : Scope} {n : ℕ} {state : Scope × List Expression}
    (h : Hides scope n state) {index : ℕ} (hindex : index < scope.columns.length) :
    Hides scope n
      (state.1.addPassthrough scope index true, state.2 ++ [.column index]) := by
  refine ⟨valid_addPassthrough h.valid scope index true, ?_, ?_, ?_⟩
  · simp [h.columns, Nat.add_assoc]
  · intro e he
    obtain he | he := List.mem_append.mp he
    · exact h.below e he
    · rw [List.mem_singleton.mp he]
      exact below_column hindex
  · intro i
    rw [hidden_addPassthrough, List.mem_cons, h.hidden, h.columns, List.length_append,
      List.length_singleton]
    omega

theorem Hides.hideColumn {scope : Scope} (hscope : scope.Valid) {n : ℕ}
    (expr : Ast.Expression) {state : Scope × List Expression} (h : Hides scope n state) :
    Hides scope n (hideColumn scope expr state).2 := by
  unfold Planner.hideColumn
  dsimp only
  split
  · exact h.hide (lookupAggregate_lt hscope ‹_›)
  · split
    · split
      · exact h.hide (lookupColumn_lt hscope ‹_›)
      · exact h
    · exact h

theorem hides_buildSelectHidden {scope child : Scope} (hscope : scope.Valid) {n : ℕ}
    (h : Hides scope n (child, [])) (having : Option Ast.Expression)
    (orderBy : List (Ast.Expression × Ast.Direction)) :
    Hides scope n (buildSelectHidden having orderBy scope child) := by
  have hfold : ∀ (exprs : List Ast.Expression) (state : Scope × List Expression),
      Hides scope n state →
      Hides scope n (exprs.foldl (fun state expr => (expr.walk (hideColumn scope) state).2)
        state) := by
    intro exprs
    induction exprs with
    | nil => exact fun state h => h
    | cons expr exprs ih =>
        intro state h
        exact ih _ (expr.walk_keeps (fun expr _ hs => hs.hideColumn hscope expr) state h)
  exact hfold _ _ h

/-- The columns after the select items are hidden. -/
structure Projects (items : ℕ) (stage : Node × Scope) : Prop extends Valid stage where
  hidden : ∀ i, i ∈ stage.2.hidden ↔ items ≤ i ∧ i < stage.1.columns

theorem projects_buildItems {node : Node} {scope : Scope} (h : Valid (node, scope))
    {select : List (Ast.Expression × Option String)} {having : Option Ast.Expression}
    {orderBy : List (Ast.Expression × Ast.Direction)} {stage : Node × Scope}
    (hbuilt : buildItems node scope select having orderBy = .ok stage) :
    Projects select.length stage := by
  obtain ⟨expressions, hexpressions, hbuilt⟩ := bind_eq_ok.mp hbuilt
  obtain ⟨hproject, hlength, hhidden⟩ := valid_project scope select
  have hnone : Hides scope select.length (scope.project select, []) := by
    refine ⟨hproject, hlength, by simp, ?_⟩
    intro i
    rw [hhidden, List.length_nil]
    simp
  have hhides := hides_buildSelectHidden h.scope hnone having orderBy
  obtain rfl := Except.ok.inj hbuilt
  have hcolumns : (expressions ++ (buildSelectHidden having orderBy scope
      (scope.project select)).2).length =
      select.length + (buildSelectHidden having orderBy scope (scope.project select)).2.length := by
    rw [List.length_append, length_mapM hexpressions]
  refine ⟨⟨hhides.valid, hhides.columns.trans hcolumns.symm,
    Node.all_iff.mpr ⟨⟨?_, trivial⟩, ?_⟩⟩, ?_⟩
  · intro e he
    rw [← h.columns]
    obtain he | he := List.mem_append.mp he
    · obtain ⟨item, -, hitem⟩ := exists_of_mem_mapM hexpressions he
      exact below_buildExpression h.scope item.1 e hitem
    · exact hhides.below e he
  · intro source hsource
    obtain rfl := List.mem_singleton.mp hsource
    exact h.node
  · intro i
    have hhidden := hhides.hidden i
    rw [← hcolumns] at hhidden
    exact hhidden

/-! ## The other clauses -/

section
variable {node next : Node} {scope : Scope}

theorem all_filter (hnode : node.All Pushable) {predicate : Expression}
    (h : predicate.Below node.columns) : (Node.filter node predicate).All Pushable := by
  refine Node.all_iff.mpr ⟨⟨h, trivial⟩, ?_⟩
  intro source hsource
  obtain rfl := List.mem_singleton.mp hsource
  exact hnode

theorem valid_buildWhere (h : Valid (node, scope)) {where' : Option Ast.Expression}
    (hbuilt : buildWhere scope node where' = .ok next) : Valid (next, scope) := by
  obtain ⟨predicate, hpredicate, hbuilt⟩ := bind_eq_ok.mp hbuilt
  have hbelow := below_buildOption h.scope hpredicate
  cases predicate with
  | none =>
      obtain rfl := Except.ok.inj hbuilt
      exact h
  | some predicate =>
      obtain rfl := Except.ok.inj hbuilt
      exact ⟨h.scope, h.columns, all_filter h.node (h.columns ▸ hbelow predicate rfl)⟩

theorem valid_buildHaving (h : Valid (node, scope)) {having : Option Ast.Expression}
    (hbuilt : buildHaving scope node having = .ok next) :
    Valid (next, scope) ∧ next.columns = node.columns := by
  cases having with
  | none =>
      obtain rfl := Except.ok.inj hbuilt
      exact ⟨h, rfl⟩
  | some having =>
      unfold buildHaving at hbuilt
      dsimp only at hbuilt
      split_ifs at hbuilt
      · cases hbuilt
      · obtain ⟨predicate, hpredicate, hbuilt⟩ := bind_eq_ok.mp hbuilt
        obtain rfl := Except.ok.inj hbuilt
        have hbelow := below_buildExpression h.scope having predicate hpredicate
        exact ⟨⟨h.scope, h.columns, all_filter h.node (h.columns ▸ hbelow)⟩, rfl⟩

theorem valid_buildOrderBy (h : Valid (node, scope))
    {orderBy : List (Ast.Expression × Ast.Direction)}
    (hbuilt : buildOrderBy scope node orderBy = .ok next) :
    Valid (next, scope) ∧ next.columns = node.columns := by
  unfold buildOrderBy at hbuilt
  split_ifs at hbuilt
  · obtain rfl := Except.ok.inj hbuilt
    exact ⟨h, rfl⟩
  · obtain ⟨key, hkey, hbuilt⟩ := bind_eq_ok.mp hbuilt
    obtain rfl := Except.ok.inj hbuilt
    refine ⟨⟨h.scope, h.columns, Node.all_iff.mpr ⟨⟨?_, trivial⟩, ?_⟩⟩, rfl⟩
    · intro entry hentry
      obtain ⟨item, -, hitem⟩ := exists_of_mem_mapM hkey hentry
      obtain ⟨e, he, hitem⟩ := bind_eq_ok.mp hitem
      cases hitem
      rw [← h.columns]
      exact below_buildExpression h.scope item.1 e he
    · intro source hsource
      obtain rfl := List.mem_singleton.mp hsource
      exact h.node

theorem valid_buildOffset {fn : Builtins} (h : Valid (node, scope))
    {offset : Option Ast.Expression} (hbuilt : buildOffset fn node offset = .ok next) :
    Valid (next, scope) ∧ next.columns = node.columns := by
  cases offset with
  | none =>
      obtain rfl := Except.ok.inj hbuilt
      exact ⟨h, rfl⟩
  | some offset =>
      obtain ⟨n, -, hbuilt⟩ := bind_eq_ok.mp hbuilt
      obtain rfl := Except.ok.inj hbuilt
      refine ⟨⟨h.scope, h.columns, Node.all_iff.mpr ⟨⟨trivial, trivial⟩, ?_⟩⟩, rfl⟩
      intro source hsource
      obtain rfl := List.mem_singleton.mp hsource
      exact h.node

theorem valid_buildLimit {fn : Builtins} (h : Valid (node, scope))
    {limit : Option Ast.Expression} (hbuilt : buildLimit fn node limit = .ok next) :
    Valid (next, scope) ∧ next.columns = node.columns := by
  cases limit with
  | none =>
      obtain rfl := Except.ok.inj hbuilt
      exact ⟨h, rfl⟩
  | some limit =>
      obtain ⟨n, -, hbuilt⟩ := bind_eq_ok.mp hbuilt
      obtain rfl := Except.ok.inj hbuilt
      refine ⟨⟨h.scope, h.columns, Node.all_iff.mpr ⟨⟨trivial, trivial⟩, ?_⟩⟩, rfl⟩
      intro source hsource
      obtain rfl := List.mem_singleton.mp hsource
      exact h.node

end

/-- The columns that are not hidden are numbered from zero, in their order. -/
theorem filterMap_targetsWithout (hidden : List ℕ) (columns : List Label) (oldIndex index : ℕ) :
    ∃ n, (Scope.targetsWithout hidden columns oldIndex index).filterMap id =
      List.range' index n := by
  induction columns generalizing oldIndex index with
  | nil => exact ⟨0, rfl⟩
  | cons label columns ih =>
      unfold Scope.targetsWithout
      split_ifs
      · exact ih (oldIndex + 1) index
      · obtain ⟨n, hn⟩ := ih (oldIndex + 1) (index + 1)
        exact ⟨n + 1, by rw [List.filterMap_cons, hn]; rfl⟩

theorem length_targetsWithout (hidden : List ℕ) (columns : List Label) (oldIndex index : ℕ) :
    (Scope.targetsWithout hidden columns oldIndex index).length = columns.length := by
  induction columns generalizing oldIndex index with
  | nil => rfl
  | cons label columns ih =>
      unfold Scope.targetsWithout
      split_ifs <;> rw [List.length_cons, ih, List.length_cons]

theorem all_removeHidden {node : Node} {scope : Scope} (h : Valid (node, scope)) :
    (removeHidden scope node).All Pushable := by
  unfold removeHidden Scope.remapHidden
  split_ifs
  · exact h.node
  · obtain ⟨n, hn⟩ := filterMap_targetsWithout scope.hidden scope.columns 0 0
    refine Node.all_iff.mpr ⟨⟨⟨?_, Node.fills_of_perm (n := n) ?_⟩, trivial⟩, ?_⟩
    · rw [length_targetsWithout, h.columns]
    · rw [hn, List.range_eq_range']
    · intro source hsource
      obtain rfl := List.mem_singleton.mp hsource
      exact h.node

/-- What is built of a SELECT up to its projection. -/
structure SelectClause.Valid (clause : SelectClause) : Prop where
  from' : clause.from'.scope.Plain clause.from'.labels
  labels : clause.from'.labels.length = clause.from'.node.columns
  source : Planner.Valid clause.source
  hidden : clause.source.2.hidden = []
  projection : if clause.select = [(.all, none)] then clause.projection = clause.source
    else Projects clause.select.length clause.projection

theorem valid_buildSelectClause {catalog : Catalog} {statement : Ast.Select}
    {clause : SelectClause} (h : buildSelectClause catalog statement = .ok clause) :
    clause.Valid := by
  unfold buildSelectClause at h
  obtain ⟨source, hsource, h⟩ := bind_eq_ok.mp h
  obtain ⟨hscope, hlabels, hnodes⟩ : source.scope.Plain source.labels ∧
      source.labels.length = source.node.columns ∧ source.node.All Pushable := by
    unfold buildSource at hsource
    split_ifs at hsource
    · obtain rfl := Except.ok.inj hsource
      exact ⟨Scope.plain_new, rfl, all_emptyRow⟩
    · have hfrom := valid_buildFromClause hsource
      exact ⟨hfrom.scope, hfrom.labels, hfrom.node⟩
  obtain ⟨select, hselect, h⟩ := bind_eq_ok.mp h
  obtain ⟨node, hnode, h⟩ := bind_eq_ok.mp h
  obtain ⟨groups, hgroups, h⟩ := bind_eq_ok.mp h
  obtain ⟨projection, hprojection, h⟩ := bind_eq_ok.mp h
  obtain rfl := Except.ok.inj h
  have hfrom : Valid (source.node, source.scope) :=
    ⟨hscope.valid, by rw [hscope.columns, hlabels], hnodes⟩
  have hwhere := valid_buildWhere hfrom hnode
  obtain ⟨hvalid, hhidden⟩ := valid_buildGroups hwhere hscope.hidden hgroups
  refine ⟨hscope, hlabels, hvalid, hhidden, ?_⟩
  unfold buildProjection at hprojection
  dsimp only
  split_ifs at hprojection ⊢
  · exact (Except.ok.inj hprojection).symm
  · exact projects_buildItems hvalid hprojection

theorem SelectClause.Valid.stage {clause : SelectClause} (h : clause.Valid) :
    Planner.Valid clause.projection := by
  have hprojection := h.projection
  split_ifs at hprojection
  · rw [hprojection]
    exact h.source
  · exact hprojection.toValid

theorem all_buildSelect {fn : Builtins} {catalog : Catalog} {statement : Ast.Select}
    {node : Node} (h : buildSelect fn catalog statement = .ok node) : node.All Pushable := by
  unfold buildSelect at h
  obtain ⟨clause, hclause, h⟩ := bind_eq_ok.mp h
  obtain ⟨having, hhaving, h⟩ := bind_eq_ok.mp h
  obtain ⟨order, horder, h⟩ := bind_eq_ok.mp h
  obtain ⟨offset, hoffset, h⟩ := bind_eq_ok.mp h
  obtain ⟨limit, hlimit, h⟩ := bind_eq_ok.mp h
  obtain rfl := Except.ok.inj h
  have hprojection := (valid_buildSelectClause hclause).stage
  have h₁ := (valid_buildHaving hprojection hhaving).1
  have h₂ := (valid_buildOrderBy h₁ horder).1
  have h₃ := (valid_buildOffset h₂ hoffset).1
  exact all_removeHidden (valid_buildLimit h₃ hlimit).1

/-! ## Other statements -/

theorem wellScoped_scan {table : Table} {predicate : Option Expression}
    (h : ∀ e ∈ predicate, e.Below table.columns.length) :
    (Node.scan table predicate).WellScoped := by
  refine Node.all_iff.mpr ⟨h, ?_⟩
  intro source hsource
  cases hsource

theorem fromTable_valid {table : Table} {scope : Scope} (h : Scope.fromTable table = .ok scope) :
    scope.Valid ∧ scope.columns.length = table.columns.length := by
  have hplain := Scope.plain_new.addTable h
  refine ⟨hplain.valid, ?_⟩
  rw [hplain.columns, List.nil_append, List.length_map]

theorem wellScoped_buildDelete {catalog : Catalog} {table : String}
    {where' : Option Ast.Expression} {plan : Plan}
    (h : buildDelete catalog table where' = .ok plan) : plan.WellScoped := by
  obtain ⟨schema, -, h⟩ := bind_eq_ok.mp h
  obtain ⟨scope, hscope, h⟩ := bind_eq_ok.mp h
  obtain ⟨predicate, hpredicate, h⟩ := bind_eq_ok.mp h
  obtain rfl := Except.ok.inj h
  obtain ⟨hvalid, hlength⟩ := fromTable_valid hscope
  exact wellScoped_scan (hlength ▸ below_buildOption hvalid hpredicate)

theorem wellScoped_buildInsert {catalog : Catalog} {table : String}
    {columns : Option (List String)} {values : List (List Ast.Expression)} {plan : Plan}
    (h : buildInsert catalog table columns values = .ok plan) : plan.WellScoped := by
  obtain ⟨schema, -, h⟩ := bind_eq_ok.mp h
  obtain ⟨columnMap, -, h⟩ := bind_eq_ok.mp h
  obtain ⟨rows, hrows, h⟩ := bind_eq_ok.mp h
  obtain rfl := Except.ok.inj h
  refine Node.all_iff.mpr ⟨?_, ?_⟩
  · intro row hrow
    obtain ⟨exprs, -, hexprs⟩ := exists_of_mem_mapM hrows hrow
    exact below_mapM Scope.valid_new hexprs
  · intro source hsource
    cases hsource

theorem below_buildSet {table : Table} {scope : Scope} (hscope : scope.Valid) {column : String}
    {expr : Option Ast.Expression} {entry : ℕ × Expression}
    (h : buildSet table scope column expr = .ok entry) :
    entry.1 < scope.columns.length ∧ entry.2.Below scope.columns.length := by
  obtain ⟨index, hindex, h⟩ := bind_eq_ok.mp h
  have hlt := lookupColumn_lt hscope hindex
  cases expr with
  | some expr =>
      obtain ⟨e, he, h⟩ := bind_eq_ok.mp h
      obtain rfl := Except.ok.inj h
      exact ⟨hlt, below_buildExpression hscope expr e he⟩
  | none =>
      dsimp only at h
      split at h
      · cases h
      · obtain rfl := Except.ok.inj h
        exact ⟨hlt, below_constant _⟩
      · cases h

theorem wellScoped_buildUpdate {catalog : Catalog} {table : String}
    {set : List (String × Option Ast.Expression)} {where' : Option Ast.Expression} {plan : Plan}
    (h : buildUpdate catalog table set where' = .ok plan) : plan.WellScoped := by
  obtain ⟨schema, -, h⟩ := bind_eq_ok.mp h
  obtain ⟨scope, hscope, h⟩ := bind_eq_ok.mp h
  obtain ⟨predicate, hpredicate, h⟩ := bind_eq_ok.mp h
  obtain ⟨expressions, hexpressions, h⟩ := bind_eq_ok.mp h
  obtain rfl := Except.ok.inj h
  obtain ⟨hvalid, hlength⟩ := fromTable_valid hscope
  refine ⟨wellScoped_scan (hlength ▸ below_buildOption hvalid hpredicate), ?_⟩
  intro entry hentry
  obtain ⟨item, -, hitem⟩ := exists_of_mem_mapM hexpressions hentry
  have hbelow := below_buildSet hvalid hitem
  rw [hlength] at hbelow
  exact hbelow

/-- The planner only builds well-scoped plans. -/
theorem wellScoped_build {fn : Builtins} {catalog : Catalog} {statement : Ast.Statement}
    {plan : Plan} (h : build fn catalog statement = .ok plan) : plan.WellScoped := by
  cases statement with
  | createTable name columns =>
      unfold build buildCreateTable at h
      dsimp only at h
      split at h
      · cases h
      · split_ifs at h
        · cases h
        · obtain ⟨columns, -, h⟩ := bind_eq_ok.mp h
          obtain rfl := Except.ok.inj h
          trivial
  | dropTable name ifExists =>
      obtain rfl := Except.ok.inj h
      trivial
  | delete table where' => exact wellScoped_buildDelete h
  | insert table columns values => exact wellScoped_buildInsert h
  | update table set where' => exact wellScoped_buildUpdate h
  | select select =>
      obtain ⟨node, hnode, h⟩ := bind_eq_ok.mp h
      obtain rfl := Except.ok.inj h
      exact fun n hn => (all_buildSelect hnode n hn).1

/-! ## A right join with a hidden column -/

def people : Table where
  name := "people"
  primaryKey := 0
  columns := [⟨"id", .integer, false, none, true, false, none⟩,
    ⟨"name", .string, true, some .null, false, false, none⟩]

def peopleCatalog : Catalog := fun name => .ok (if name = "people" then some people else none)

/-- `SELECT p.name FROM people p RIGHT JOIN people q ON p.id = q.id ORDER BY q.name` -/
def namesByPartner : Ast.Statement := .select {
  select := [(.column (some "p") "name", none)]
  from' := [.join (.table "people" (some "p")) (.table "people" (some "q")) .right
    (some (.binary .equal (.column (some "p") "id") (.column (some "q") "id")))]
  where' := none
  groupBy := []
  having := none
  orderBy := [(.column (some "q") "name", .ascending)]
  offset := none
  limit := none }

def namesByPartnerPlan : Plan := .select
  (.remap
    (.order
      (.projection
        (.remap
          (.nestedLoopJoin (.scan people none) (.scan people none)
            (some (.equal (.column 2) (.column 0))) true)
          [some 2, some 3, some 0, some 1])
        [.column 1, .column 3] [.none, .none])
      [(.column 1, .ascending)])
    [some 0, none])

theorem build_namesByPartner :
    build .unused peopleCatalog namesByPartner = .ok namesByPartnerPlan := rfl

theorem wellScoped_namesByPartner : namesByPartnerPlan.WellScoped :=
  wellScoped_build build_namesByPartner

end Planner
end ToyDB.Sql
