import ToyDB.Sql.Execution.Width
import ToyDB.Sql.Planner.Optimizer
import ToyDB.Sql.Planner.Planner
import ToyDB.Sql.Types.Predicate

/-!
# Well-scoped plans

An expression is well scoped if its columns are columns of the rows on which it is evaluated.
The scopes of the planner have as many columns as the nodes that they are about, and their
maps only hold columns that they have, so what is built in a scope is well scoped for its
node.
-/
namespace ToyDB.Sql

/-- The columns of the expression are below a number of columns. -/
def Expression.Below (columns : ℕ) (e : Expression) : Prop := ∀ i ∈ e.columns, i < columns

namespace Node

/-- The targets have every position below the highest one once. -/
def Fills (targets : List (Option ℕ)) : Prop :=
  ∀ i < remapSize targets, targets.count (some i) = 1

/-- The expressions of a node refer to columns of the rows that they are evaluated on, and a
remapping has a target for each column of its source. -/
def Scoped : Node → Prop
  | .aggregate source groupBy aggregates =>
      (∀ e ∈ groupBy, e.Below source.columns) ∧ ∀ a ∈ aggregates, a.expr.Below source.columns
  | .filter source predicate => predicate.Below source.columns
  | .hashJoin left leftColumn right rightColumn _ =>
      leftColumn < left.columns ∧ rightColumn < right.columns
  | .indexLookup table column _ => column < table.columns.length
  | .nestedLoopJoin left right predicate _ =>
      ∀ e ∈ predicate, e.Below (left.columns + right.columns)
  | .order source key => ∀ entry ∈ key, entry.1.Below source.columns
  | .projection source expressions _ => ∀ e ∈ expressions, e.Below source.columns
  | .remap source targets => targets.length = source.columns ∧ Fills targets
  | .scan table predicate => ∀ e ∈ predicate, e.Below table.columns.length
  | .values rows => ∀ row ∈ rows, ∀ e ∈ row, e.Below 0
  | .keyLookup _ _ | .limit _ _ | .nothing _ | .offset _ _ => True

/-- A property of all nodes of a plan. -/
def All (P : Node → Prop) (plan : Node) : Prop := ∀ node, plan.Within node → P node

/-- All nodes of a plan are well scoped. -/
abbrev WellScoped (plan : Node) : Prop := plan.All Scoped

/-- The nodes of a plan are its top and those of its sources. -/
theorem within_iff {plan node : Node} :
    plan.Within node ↔ node = plan ∨ ∃ source ∈ plan.sources, source.Within node := by
  constructor
  · intro h
    induction h with
    | top => exact .inl rfl
    | source hnode hs ih =>
        obtain rfl | ⟨source, hsource, hwithin⟩ := ih
        · exact .inr ⟨_, hs, .top⟩
        · exact .inr ⟨source, hsource, hwithin.source hs⟩
  · rintro (rfl | ⟨source, hsource, hwithin⟩)
    · exact .top
    · exact (Within.top.source hsource).trans hwithin

theorem all_iff {P : Node → Prop} {plan : Node} :
    plan.All P ↔ P plan ∧ ∀ source ∈ plan.sources, source.All P := by
  constructor
  · intro h
    refine ⟨h plan .top, ?_⟩
    intro source hsource node hnode
    exact h node (within_iff.mpr (.inr ⟨source, hsource, hnode⟩))
  · rintro ⟨hplan, hsources⟩ node hnode
    obtain rfl | ⟨source, hsource, hwithin⟩ := within_iff.mp hnode
    · exact hplan
    · exact hsources source hsource node hwithin

def isRemap : Node → Bool
  | .remap _ _ => true
  | _ => false

end Node

/-- The sources of a join take predicates, unless they are remapped. -/
def FilterPushdown.Takes : Node → Prop
  | .nestedLoopJoin left right _ _ =>
      (takes left = true ∨ left.isRemap = true) ∧ (takes right = true ∨ right.isRemap = true)
  | _ => True

/-- What filter pushdown relies on. -/
def Pushable (node : Node) : Prop := node.Scoped ∧ FilterPushdown.Takes node

/-- The expressions of a plan refer to columns of the rows that they are evaluated on. -/
def Plan.WellScoped : Plan → Prop
  | createTable _ | dropTable _ _ => True
  | delete _ _ source | insert _ _ source => source.WellScoped
  | update table _ source expressions =>
      source.WellScoped ∧
        ∀ entry ∈ expressions, entry.1 < table.columns.length ∧ entry.2.Below source.columns
  | select node => node.WellScoped

/-! ## Remapping -/

namespace Node
variable {targets : List (Option ℕ)}

theorem count_some (targets : List (Option ℕ)) (i : ℕ) :
    targets.count (some i) = (targets.filterMap id).count i := by
  induction targets with
  | nil => rfl
  | cons target targets ih => cases target <;> simp [List.count_cons, ih]

theorem remapSize_eq_foldr (targets : List (Option ℕ)) :
    remapSize targets = ((targets.filterMap id).map (· + 1)).foldr max 0 := by
  induction targets with
  | nil => rfl
  | cons target targets ih =>
      unfold remapSize at ih ⊢
      cases target <;> simp [ih]

theorem foldr_max_of_perm {l l' : List ℕ} (h : l.Perm l') : l.foldr max 0 = l'.foldr max 0 := by
  induction h with
  | nil => rfl
  | cons a _ ih => simp [ih]
  | swap a b l => simp [Nat.max_left_comm]
  | trans _ _ ih ih' => exact ih.trans ih'

theorem foldr_max_range (n : ℕ) : ((List.range n).map (· + 1)).foldr max 0 = n := by
  have hle : ∀ (l : List ℕ) (m : ℕ), l.foldr max m = max (l.foldr max 0) m := by
    intro l m
    induction l with
    | nil => simp
    | cons a l ih => rw [List.foldr_cons, ih, List.foldr_cons, Nat.max_assoc]
  induction n with
  | zero => rfl
  | succ n ih =>
      rw [List.range_succ, List.map_append, List.foldr_append, hle, ih]
      simp

/-- Targets that are the positions of a range, in some order. -/
theorem remapSize_of_perm {n : ℕ} (h : (targets.filterMap id).Perm (List.range n)) :
    remapSize targets = n := by
  rw [remapSize_eq_foldr, foldr_max_of_perm (h.map _), foldr_max_range]

theorem fills_of_perm {n : ℕ} (h : (targets.filterMap id).Perm (List.range n)) :
    Fills targets := by
  intro i hi
  rw [remapSize_of_perm h] at hi
  rw [count_some, h.count_eq]
  exact List.count_eq_one_of_mem List.nodup_range (List.mem_range.mpr hi)

end Node

namespace Planner

theorem perm_swapTargets (left right : ℕ) :
    ((swapTargets left right).filterMap id).Perm (List.range (left + right)) := by
  have hleft : (List.range left).map (fun i => (i + right) % (left + right)) =
      (List.range left).map (right + ·) := by
    apply List.map_congr_left
    intro i hi
    rw [Nat.mod_eq_of_lt (by have := List.mem_range.mp hi; omega), Nat.add_comm]
  have hright : (List.range right).map (fun i => (left + i + right) % (left + right)) =
      List.range right := by
    rw [List.map_congr_left (g := id), List.map_id]
    intro i hi
    have := List.mem_range.mp hi
    rw [show left + i + right = i + (left + right) by omega, Nat.add_mod_right]
    exact Nat.mod_eq_of_lt (by omega)
  have hmap : (swapTargets left right).filterMap id =
      (List.range (left + right)).map fun i => (i + right) % (left + right) := by
    simp [swapTargets, List.filterMap_map]
  have hswapped : (List.range (left + right)).map (fun i => (i + right) % (left + right)) =
      (List.range left).map (right + ·) ++ List.range right := by
    rw [List.range_add, List.map_append, List.map_map, hleft]
    exact congrArg _ hright
  rw [hmap, hswapped, Nat.add_comm left right, List.range_add]
  exact List.perm_append_comm

end Planner

/-! ## Scopes -/

theorem mem_of_lookup {α β : Type} [BEq α] [LawfulBEq α] {a : α} {b : β} {l : List (α × β)}
    (h : l.lookup a = some b) : (a, b) ∈ l := by
  induction l with
  | nil => cases h
  | cons entry l ih =>
      rw [List.lookup_cons] at h
      cases hkey : a == entry.1 with
      | true =>
          rw [hkey] at h
          obtain rfl := Option.some.inj h
          rw [eq_of_beq hkey]
          exact List.mem_cons_self
      | false =>
          rw [hkey] at h
          exact List.mem_cons_of_mem _ (ih h)

theorem mem_of_mem_insertEntry {α β : Type} [DecidableEq α] {key : α} {value : β}
    {entries : List (α × β)} {entry : α × β} (h : entry ∈ insertEntry key value entries) :
    entry = (key, value) ∨ entry ∈ entries := by
  obtain rfl | h := List.mem_cons.mp h
  · exact .inl rfl
  · exact .inr (List.mem_filter.mp h).1

theorem mem_of_mem_orInsert {α β : Type} [DecidableEq α] {key : α} {value : β}
    {entries : List (α × β)} {entry : α × β} (h : entry ∈ orInsert key value entries) :
    entry = (key, value) ∨ entry ∈ entries := by
  unfold orInsert at h
  split at h
  · exact .inr h
  · exact List.mem_cons.mp h

namespace Scope

/-- The maps only hold columns of the scope. -/
structure Valid (scope : Scope) : Prop where
  qualified : ∀ entry ∈ scope.qualified, entry.2 < scope.columns.length
  unqualified : ∀ entry ∈ scope.unqualified, ∀ i ∈ entry.2, i < scope.columns.length
  aggregates : ∀ entry ∈ scope.aggregates, entry.2 < scope.columns.length

variable {self scope parent : Scope}

theorem valid_new : Valid new := by constructor <;> intro entry h <;> cases h

theorem valid_spawn (self : Scope) : self.spawn.Valid := by
  constructor <;> intro entry h <;> cases h

@[simp] theorem columns_addColumn (self : Scope) (label : Label) :
    (self.addColumn label).columns = self.columns ++ [label] := by
  cases label <;> rfl

@[simp] theorem aggregates_addColumn (self : Scope) (label : Label) :
    (self.addColumn label).aggregates = self.aggregates := by
  cases label <;> rfl

@[simp] theorem hidden_addColumn (self : Scope) (label : Label) :
    (self.addColumn label).hidden = self.hidden := by
  cases label <;> rfl

@[simp] theorem tables_addColumn (self : Scope) (label : Label) :
    (self.addColumn label).tables = self.tables := by
  cases label <;> rfl

/-- The map that names the next column. -/
theorem Valid.unqualified_insert (h : self.Valid) (name : String) :
    ∀ entry ∈ insertEntry name ((self.unqualified.lookup name).getD [] ++ [self.columns.length])
      self.unqualified, ∀ i ∈ entry.2, i < self.columns.length + 1 := by
  intro entry hentry i hi
  obtain rfl | hentry := mem_of_mem_insertEntry hentry
  · obtain hi | hi := List.mem_append.mp hi
    · cases hlookup : self.unqualified.lookup name with
      | none => simp [hlookup] at hi
      | some indexes =>
          rw [hlookup] at hi
          exact Nat.lt_succ_of_lt (h.unqualified _ (mem_of_lookup hlookup) i hi)
    · rw [List.mem_singleton.mp hi]
      exact Nat.lt_succ_self _
  · exact Nat.lt_succ_of_lt (h.unqualified entry hentry i hi)

theorem Valid.addColumn (h : self.Valid) (label : Label) : (self.addColumn label).Valid := by
  have hlength : (self.addColumn label).columns.length = self.columns.length + 1 := by simp
  constructor
  · rw [hlength]
    intro entry hentry
    cases label with
    | none | unqualified => exact Nat.lt_succ_of_lt (h.qualified entry hentry)
    | qualified table name =>
        obtain rfl | hentry := mem_of_mem_insertEntry hentry
        · exact Nat.lt_succ_self _
        · exact Nat.lt_succ_of_lt (h.qualified entry hentry)
  · rw [hlength]
    cases label with
    | none => exact fun entry hentry i hi => Nat.lt_succ_of_lt (h.unqualified entry hentry i hi)
    | unqualified name | qualified _ name => exact h.unqualified_insert name
  · rw [hlength, aggregates_addColumn]
    exact fun entry hentry => Nat.lt_succ_of_lt (h.aggregates entry hentry)

theorem Valid.addColumns (h : self.Valid) (labels : List Label) :
    (labels.foldl Scope.addColumn self).Valid := by
  induction labels generalizing self with
  | nil => exact h
  | cons label labels ih => exact ih (h.addColumn label)

@[simp] theorem columns_addColumns (self : Scope) (labels : List Label) :
    (labels.foldl addColumn self).columns = self.columns ++ labels := by
  induction labels generalizing self with
  | nil => simp
  | cons label labels ih => rw [List.foldl_cons, ih, columns_addColumn, List.append_assoc]; rfl

@[simp] theorem aggregates_addColumns (self : Scope) (labels : List Label) :
    (labels.foldl addColumn self).aggregates = self.aggregates := by
  induction labels generalizing self with
  | nil => rfl
  | cons label labels ih => rw [List.foldl_cons, ih, aggregates_addColumn]

@[simp] theorem hidden_addColumns (self : Scope) (labels : List Label) :
    (labels.foldl addColumn self).hidden = self.hidden := by
  induction labels generalizing self with
  | nil => rfl
  | cons label labels ih => rw [List.foldl_cons, ih, hidden_addColumn]

/-- A scope with these columns, without aggregates and hidden columns. -/
structure Plain (scope : Scope) (labels : List Label) : Prop where
  valid : scope.Valid
  columns : scope.columns = labels
  aggregates : scope.aggregates = []
  hidden : scope.hidden = []

theorem plain_new : Plain new [] := ⟨valid_new, rfl, rfl, rfl⟩

theorem plain_spawn (self : Scope) : Plain self.spawn [] := ⟨valid_spawn self, rfl, rfl, rfl⟩

variable {labels labels' : List Label}

theorem Plain.addColumns (h : self.Plain labels) (labels' : List Label) :
    Plain (labels'.foldl Scope.addColumn self) (labels ++ labels') :=
  ⟨h.valid.addColumns labels', by rw [columns_addColumns, h.columns],
    by rw [aggregates_addColumns, h.aggregates], by rw [hidden_addColumns, h.hidden]⟩

theorem Plain.setTables (h : self.Plain labels) (tables : List String) :
    Plain { self with tables := tables } labels :=
  ⟨⟨h.valid.qualified, h.valid.unqualified, h.valid.aggregates⟩, h.columns, h.aggregates, h.hidden⟩

theorem Plain.addTable {table : Table} {alias' : Option String} (h : self.Plain labels)
    (hadd : self.addTable table alias' = .ok scope) :
    Plain scope (labels ++
      table.columns.map fun column => .qualified (alias'.getD table.name) column.name) := by
  unfold Scope.addTable at hadd
  dsimp only at hadd
  split_ifs at hadd
  · cases hadd
  · have hcolumns := h.addColumns
      (table.columns.map fun column => .qualified (alias'.getD table.name) column.name)
    obtain rfl := Except.ok.inj hadd
    rw [List.foldl_map] at hcolumns
    exact hcolumns.setTables _

theorem Plain.mergeTables {tables : List String} (h : self.Plain labels)
    (hmerge : self.mergeTables tables = .ok scope) : Plain scope labels := by
  induction tables generalizing self with
  | nil =>
      obtain rfl := Except.ok.inj hmerge
      exact h
  | cons table tables ih =>
      unfold Scope.mergeTables at hmerge
      split_ifs at hmerge
      · cases hmerge
      · exact ih (h.setTables _) hmerge

theorem Plain.merge {result : Scope} (h : self.Plain labels) (h' : scope.Plain labels')
    (hmerge : self.merge scope = .ok result) : Plain result (labels ++ labels') := by
  obtain ⟨merged, hmerged, hresult⟩ := bind_eq_ok.mp hmerge
  have hcolumns := (h.mergeTables hmerged).addColumns scope.columns
  obtain rfl := Except.ok.inj hresult
  rw [h'.columns] at hcolumns ⊢
  refine ⟨⟨hcolumns.valid.qualified, hcolumns.valid.unqualified, ?_⟩, hcolumns.columns, ?_, ?_⟩
  · simp [h'.aggregates, hcolumns.aggregates]
  · simp [h'.aggregates, hcolumns.aggregates]
  · simp [h'.hidden, hcolumns.hidden]

theorem Plain.addPassthrough (h : self.Plain labels) (h' : parent.Plain labels') (index : ℕ) :
    Plain (self.addPassthrough parent index false) (labels ++ [labels'.getD index .none]) := by
  have hcolumn := h.addColumns [labels'.getD index .none]
  rw [List.foldl_cons, List.foldl_nil] at hcolumn
  unfold Scope.addPassthrough
  rw [h'.columns, h'.aggregates, h'.hidden]
  exact ⟨⟨hcolumn.valid.qualified, hcolumn.valid.unqualified, by simp [h.aggregates]⟩,
    hcolumn.columns, hcolumn.aggregates, by simp [h.hidden]⟩

theorem Plain.addSources (h : self.Plain labels) (h' : parent.Plain labels')
    (sources : List (Option ℕ)) :
    Plain (sources.foldl (fun child source =>
      match source with
      | some index => child.addPassthrough parent index false
      | none => child) self)
      (labels ++ (sources.filterMap id).map fun index => labels'.getD index .none) := by
  induction sources generalizing self labels with
  | nil => simpa using h
  | cons source sources ih =>
      cases source with
      | none => simpa using ih h
      | some index => simpa using ih (h.addPassthrough h' index)

/-! ### Inverted targets -/

/-- Sets the source of a target. -/
def setSource (i : ℕ) (sources : List (Option ℕ)) : Option ℕ → List (Option ℕ)
  | some target => sources.set target (some i)
  | none => sources

/-- Sets the sources of targets, from a position on. -/
def setSources : List (Option ℕ) → ℕ → List (Option ℕ) → List (Option ℕ)
  | [], _, sources => sources
  | target :: targets, i, sources => setSources targets (i + 1) (setSource i sources target)

variable {targets : List (Option ℕ)}

theorem foldl_setSource (targets : List (Option ℕ)) (i : ℕ) (sources : List (Option ℕ)) :
    (targets.zipIdx i).foldl (fun sources entry => setSource entry.2 sources entry.1) sources =
      setSources targets i sources := by
  induction targets generalizing i sources with
  | nil => rfl
  | cons target targets ih =>
      rw [List.zipIdx_cons, List.foldl_cons, ih]
      rfl

theorem invertRemap_eq_setSources (targets : List (Option ℕ)) :
    invertRemap targets =
      setSources targets 0 (List.replicate (Node.remapSize targets) none) := by
  rw [← foldl_setSource]
  unfold invertRemap
  congr 1

theorem length_setSources (targets : List (Option ℕ)) (i : ℕ) (sources : List (Option ℕ)) :
    (setSources targets i sources).length = sources.length := by
  induction targets generalizing i sources with
  | nil => rfl
  | cons target targets ih =>
      rw [setSources, ih]
      cases target <;> simp [setSource]

/-- A target that is there once has its position as its source. -/
theorem getElem?_setSources {j : ℕ} (h : targets.count (some j) ≤ 1) (i : ℕ)
    (sources : List (Option ℕ)) (hj : j < sources.length) :
    (setSources targets i sources)[j]? =
      if some j ∈ targets then some (some (i + targets.idxOf (some j))) else sources[j]? := by
  induction targets generalizing i sources with
  | nil => simp [setSources]
  | cons target targets ih =>
      rw [setSources]
      have hlength : j < (setSource i sources target).length := by
        cases target <;> simpa [setSource] using hj
      by_cases heq : target = some j
      · subst heq
        rw [List.count_cons_self] at h
        have hnone : some j ∉ targets := fun hmem => by
          have hpos := List.count_pos_iff.mpr hmem
          omega
        rw [ih (by omega) _ _ hlength, if_neg hnone, if_pos List.mem_cons_self,
          List.idxOf_cons_self, setSource, List.getElem?_set_self hj, Nat.add_zero]
      · rw [List.count_cons_of_ne heq] at h
        have hset : (setSource i sources target)[j]? = sources[j]? := by
          cases target with
          | none => rfl
          | some k => exact List.getElem?_set_ne fun hk => heq (congrArg some hk)
        rw [ih h _ _ hlength, hset, List.idxOf_cons_ne _ heq]
        simp only [List.mem_cons, Ne.symm heq, false_or]
        split_ifs
        · rw [Nat.add_right_comm, Nat.add_assoc]
        · rfl

/-- Where the targets fill every position, it has the index of its target as its source. -/
theorem invertRemap_eq (h : Node.Fills targets) :
    invertRemap targets =
      (List.range (Node.remapSize targets)).map fun j => some (targets.idxOf (some j)) := by
  rw [invertRemap_eq_setSources]
  apply List.ext_getElem?
  intro j
  by_cases hj : j < Node.remapSize targets
  · have hmem : some j ∈ targets := List.count_pos_iff.mp (by rw [h j hj]; exact one_pos)
    rw [getElem?_setSources (h j hj).le _ _ (by simpa using hj), if_pos hmem, Nat.zero_add]
    simp [hj]
  · rw [List.getElem?_eq_none, List.getElem?_eq_none]
    · simpa using hj
    · rw [length_setSources]
      simpa using hj

theorem idxOf?_of_mem {α : Type} [BEq α] [LawfulBEq α] {a : α} {l : List α} (h : a ∈ l) :
    l.idxOf? a = some (l.idxOf a) := by
  induction l with
  | nil => cases h
  | cons b l ih =>
      rw [List.idxOf?_cons]
      by_cases heq : b = a
      · simp [heq]
      · obtain rfl | h := List.mem_cons.mp h
        · exact absurd rfl heq
        · simp [heq, ih h, List.idxOf_cons_ne _ heq]

theorem Plain.remap (h : self.Plain labels) (hfills : Node.Fills targets) :
    Plain (self.remap targets) (Planner.remapLabels targets labels) := by
  have hsources := (plain_spawn self).addSources h (invertRemap targets)
  have hlabels : ((invertRemap targets).filterMap id).map (fun index => labels.getD index .none) =
      Planner.remapLabels targets labels := by
    rw [invertRemap_eq hfills, List.filterMap_map]
    unfold Planner.remapLabels
    show List.map _ (List.filterMap (some ∘ fun j => targets.idxOf (some j)) _) = _
    rw [List.filterMap_eq_map, List.map_map]
    apply List.map_congr_left
    intro j hj
    have hmem : some j ∈ targets := List.count_pos_iff.mp (by
      rw [hfills j (List.mem_range.mp hj)]
      exact one_pos)
    rw [idxOf?_of_mem hmem]
    rfl
  rw [List.nil_append, hlabels] at hsources
  exact hsources

end Scope

/-! ## Expressions -/

namespace Expression
variable {n : ℕ} {l r e : Expression}

theorem below_column {i : ℕ} (h : i < n) : (column i).Below n := by
  intro j hj
  rw [List.mem_singleton.mp hj]
  exact h

theorem below_constant (v : Value) : (constant v).Below n := fun i hi => by cases hi

theorem below_binary {op : BinaryOperator} :
    (binary op l r).Below n ↔ l.Below n ∧ r.Below n := List.forall_mem_append

theorem below_unary {op : UnaryOperator} : (unary op e).Below n ↔ e.Below n := Iff.rfl

theorem below_is {v : Value} : (is e v).Below n ↔ e.Below n := Iff.rfl

end Expression

namespace Planner
open Expression
variable {scope : Scope}

theorem lookupAggregate_lt (h : scope.Valid) {expr : Ast.Expression} {index : ℕ}
    (hlookup : scope.lookupAggregate expr = some index) : index < scope.columns.length :=
  h.aggregates _ (mem_of_lookup hlookup)

theorem findColumn_of_lookupColumn {table : Option String} {name : String} {index : ℕ}
    (h : scope.lookupColumn table name = .ok index) :
    scope.findColumn table name = .ok (some index) := by
  unfold Scope.lookupColumn at h
  by_cases hempty : scope.columns.isEmpty = true
  · rw [if_pos hempty] at h
    cases h
  · rw [if_neg hempty] at h
    cases hfind : scope.findColumn table name with
    | error e =>
        rw [hfind] at h
        cases h
    | ok found =>
        rw [hfind] at h
        cases found with
        | none =>
            dsimp only at h
            split_ifs at h <;> cases h
        | some i =>
            cases h
            rfl

theorem lookup_of_findColumn {name : String} {index : ℕ}
    (h : scope.findColumn none name = .ok (some index)) :
    scope.unqualified.lookup name = some [index] := by
  unfold Scope.findColumn at h
  dsimp only at h
  cases hname : scope.unqualified.lookup name with
  | none =>
      rw [hname] at h
      cases h
  | some indexes =>
      rw [hname] at h
      obtain _ | ⟨first, _ | ⟨second, rest⟩⟩ := indexes <;> cases h
      rfl

theorem lookup_of_findColumn_some {table name : String} {index : ℕ}
    (h : scope.findColumn (some table) name = .ok (some index)) :
    scope.qualified.lookup (table, name) = some index := by
  unfold Scope.findColumn at h
  dsimp only at h
  split_ifs at h
  · exact Except.ok.inj h
  · cases h

theorem lookupColumn_lt (h : scope.Valid) {table : Option String} {name : String} {index : ℕ}
    (hlookup : scope.lookupColumn table name = .ok index) : index < scope.columns.length := by
  have hfind := findColumn_of_lookupColumn hlookup
  cases table with
  | some table => exact h.qualified _ (mem_of_lookup (lookup_of_findColumn_some hfind))
  | none =>
      exact h.unqualified _ (mem_of_lookup (lookup_of_findColumn hfind)) index List.mem_cons_self

/-- An expression that is not in the scope is built from its parts. -/
def buildParts (scope : Scope) : Ast.Expression → Except Failure Expression
  | .all => invalid "unsupported use of *"
  | .literal value => .ok (.constant value.toValue)
  | .column table name => do return .column (← scope.lookupColumn table name)
  | .function name args =>
      if name = "sqrt" ∧ args.length = 1 then
        return .unary .squareRoot (← buildFirst scope args)
      else invalid s!"unknown function {name} with {args.length} arguments"
  | .binary op lhs rhs => do
      let lhs ← buildExpression scope lhs
      let rhs ← buildExpression scope rhs
      return binaryExpression op lhs rhs
  | .unary op expr => do return unaryExpression op (← buildExpression scope expr)
  | .is expr value => do
      let expr ← buildExpression scope expr
      return .is expr (← isValue value)

/-- An aggregate or GROUP BY expression is its column. -/
theorem buildExpression_of_lookup {expr : Ast.Expression} {index : ℕ}
    (h : scope.lookupAggregate expr = some index) :
    buildExpression scope expr = .ok (.column index) := by
  cases expr <;> simp [buildExpression, h]

theorem buildExpression_of_none {expr : Ast.Expression} (h : scope.lookupAggregate expr = none) :
    buildExpression scope expr = buildParts scope expr := by
  cases expr <;> simp [buildExpression, h, buildParts]

theorem below_binaryExpression {n : ℕ} {l r : Expression} (hl : l.Below n) (hr : r.Below n)
    (op : Ast.BinaryOperator) : (binaryExpression op l r).Below n := by
  cases op <;> simp only [binaryExpression, below_binary, below_unary, hl, hr, and_self]

theorem below_unaryExpression {n : ℕ} {e : Expression} (h : e.Below n) (op : Ast.UnaryOperator) :
    (unaryExpression op e).Below n := by
  cases op <;> exact h

theorem below_buildExpression_of_parts (h : scope.Valid) {expr : Ast.Expression}
    (hparts : ∀ built, buildParts scope expr = .ok built → built.Below scope.columns.length)
    {built : Expression} (hbuilt : buildExpression scope expr = .ok built) :
    built.Below scope.columns.length := by
  cases hlookup : scope.lookupAggregate expr with
  | some index =>
      rw [buildExpression_of_lookup hlookup] at hbuilt
      obtain rfl := Except.ok.inj hbuilt
      exact below_column (lookupAggregate_lt h hlookup)
  | none => exact hparts built (buildExpression_of_none hlookup ▸ hbuilt)

mutual

/-- What is built in a scope refers to columns of the scope. -/
theorem below_buildExpression (h : scope.Valid) : ∀ (expr : Ast.Expression) (built : Expression),
    buildExpression scope expr = .ok built → built.Below scope.columns.length
  | .all, _, hbuilt => by
      refine below_buildExpression_of_parts h ?_ hbuilt
      intro built hparts
      cases hparts
  | .literal value, _, hbuilt => by
      refine below_buildExpression_of_parts h ?_ hbuilt
      intro built hparts
      cases hparts
      exact below_constant _
  | .column table name, _, hbuilt => by
      refine below_buildExpression_of_parts h ?_ hbuilt
      intro built hparts
      obtain ⟨index, hindex, hparts⟩ := bind_eq_ok.mp hparts
      cases hparts
      exact below_column (lookupColumn_lt h hindex)
  | .function name args, _, hbuilt => by
      refine below_buildExpression_of_parts h ?_ hbuilt
      intro built hparts
      unfold buildParts at hparts
      dsimp only at hparts
      split_ifs at hparts
      · obtain ⟨first, hfirst, hparts⟩ := bind_eq_ok.mp hparts
        cases hparts
        exact below_buildFirst h args first hfirst
      · cases hparts
  | .binary op lhs rhs, _, hbuilt => by
      refine below_buildExpression_of_parts h ?_ hbuilt
      intro built hparts
      obtain ⟨l, hl, hparts⟩ := bind_eq_ok.mp hparts
      obtain ⟨r, hr, hparts⟩ := bind_eq_ok.mp hparts
      cases hparts
      exact below_binaryExpression (below_buildExpression h lhs l hl)
        (below_buildExpression h rhs r hr) op
  | .unary op expr, _, hbuilt => by
      refine below_buildExpression_of_parts h ?_ hbuilt
      intro built hparts
      obtain ⟨e, he, hparts⟩ := bind_eq_ok.mp hparts
      cases hparts
      exact below_unaryExpression (below_buildExpression h expr e he) op
  | .is expr value, _, hbuilt => by
      refine below_buildExpression_of_parts h ?_ hbuilt
      intro built hparts
      obtain ⟨e, he, hparts⟩ := bind_eq_ok.mp hparts
      obtain ⟨v, hv, hparts⟩ := bind_eq_ok.mp hparts
      cases hparts
      exact below_is.mpr (below_buildExpression h expr e he)

theorem below_buildFirst (h : scope.Valid) : ∀ (args : Ast.Arguments) (built : Expression),
    buildFirst scope args = .ok built → built.Below scope.columns.length
  | .nil, _, hbuilt => by
      unfold buildFirst at hbuilt
      cases hbuilt
  | .cons arg _, built, hbuilt => by
      unfold buildFirst at hbuilt
      exact below_buildExpression h arg built hbuilt

end

theorem below_buildOption (h : scope.Valid) {expr : Option Ast.Expression}
    {built : Option Expression} (hbuilt : buildOption scope expr = .ok built) :
    ∀ e ∈ built, e.Below scope.columns.length := by
  intro e he
  cases expr with
  | none =>
      cases hbuilt
      cases he
  | some expr =>
      obtain ⟨e', he', hbuilt⟩ := bind_eq_ok.mp hbuilt
      cases hbuilt
      cases he
      exact below_buildExpression h expr e he'

theorem below_mapM (h : scope.Valid) {exprs : List Ast.Expression} {built : List Expression}
    (hbuilt : exprs.mapM (buildExpression scope) = .ok built) :
    ∀ e ∈ built, e.Below scope.columns.length := by
  intro e he
  obtain ⟨expr, -, hexpr⟩ := exists_of_mem_mapM hbuilt he
  exact below_buildExpression h expr e hexpr

end Planner
end ToyDB.Sql
