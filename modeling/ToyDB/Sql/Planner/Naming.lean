import ToyDB.Sql.Engine.Concurrency
import ToyDB.Sql.Planner.Lookups
import ToyDB.Sql.Planner.Scoping

/-!
# Column names

Rows and plans address columns by position; index entries, scopes and lookups address them
by name. Schemas are validated without comparing the names of their columns, and the two
ways agree just for the tables whose column names are distinct.
-/
namespace ToyDB.Sql
open ToyDB.Collections ToyDB.Mvcc

/-! ## Scopes -/

theorem lookup_insertEntry {α β : Type} [BEq α] [LawfulBEq α] [DecidableEq α] {key k : α}
    {value : β} {entries : List (α × β)} :
    (insertEntry key value entries).lookup k = if k = key then some value else entries.lookup k := by
  have hfilter : ∀ l : List (α × β), k ≠ key → (l.filter (·.1 ≠ key)).lookup k = l.lookup k := by
    intro l hk
    induction l with
    | nil => rfl
    | cons e l ih =>
        obtain ⟨a, b⟩ := e
        by_cases ha : a = key
        · have hka : (k == a) = false := beq_eq_false_iff_ne.mpr (ha ▸ hk)
          rw [List.filter_cons_of_neg (by simp [ha]), ih, List.lookup_cons, hka]
        · rw [List.filter_cons_of_pos (by simp [ha]), List.lookup_cons, List.lookup_cons, ih]
  unfold insertEntry
  split_ifs with hk
  · rw [List.lookup_cons, hk, beq_self_eq_true]
  · have hk' : (k == key) = false := beq_eq_false_iff_ne.mpr hk
    rw [List.lookup_cons, hk', hfilter entries hk]

namespace Scope
variable {scope scope' : Scope} {label : Label} {labels : List Label} {t n : String}

/-- A qualified name is looked up where it stands. -/
def Resolves (scope : Scope) : Prop := ∀ i t n, scope.columns[i]? = some (.qualified t n) →
  scope.qualified.lookup (t, n) = some i

/-- The qualified names are unique, and name tables of the scope. -/
structure Unique (scope : Scope) : Prop where
  resolves : scope.Resolves
  known {t n : String} : .qualified t n ∈ scope.columns → t ∈ scope.tables

theorem unique_new : Unique new := ⟨fun _ _ _ h => (nomatch h), fun h => (nomatch h)⟩

theorem Resolves.addColumn (h : scope.Resolves)
    (hnew : ∀ t n, label = .qualified t n → label ∉ scope.columns) :
    (scope.addColumn label).Resolves := by
  intro i t n hi
  rw [columns_addColumn, List.getElem?_append] at hi
  split_ifs at hi with hlt
  · have hold := h i t n hi
    cases label with
    | none | unqualified => exact hold
    | qualified t' n' =>
        have hne : (t, n) ≠ (t', n') := by
          intro heq
          obtain ⟨rfl, rfl⟩ := Prod.mk.inj heq
          exact hnew _ _ rfl (List.mem_of_getElem? hi)
        exact lookup_insertEntry.trans ((if_neg hne).trans hold)
  · obtain ⟨hz, hlabel⟩ := List.getElem?_eq_some_iff.mp hi
    have hi' : i = scope.columns.length := by
      rw [List.length_singleton] at hz
      omega
    rw [List.getElem_singleton] at hlabel
    rw [hlabel, hi']
    exact lookup_insertEntry.trans (if_pos rfl)

/-- Columns whose qualified names are new and differ from each other. -/
theorem Resolves.addColumns (h : scope.Resolves)
    (hnew : ∀ t n, .qualified t n ∈ labels → .qualified t n ∉ scope.columns)
    (hdistinct : labels.Pairwise fun a b => ∀ t n, a = .qualified t n → b ≠ a) :
    (labels.foldl Scope.addColumn scope).Resolves := by
  induction labels generalizing scope with
  | nil => exact h
  | cons label labels ih =>
      obtain ⟨hhead, hdistinct⟩ := List.pairwise_cons.mp hdistinct
      refine ih (h.addColumn ?_) ?_ hdistinct
      · rintro t n rfl
        exact hnew t n List.mem_cons_self
      · intro t n hmem
        rw [columns_addColumn, List.mem_append, List.mem_singleton, not_or]
        refine ⟨hnew t n (List.mem_cons_of_mem _ hmem), ?_⟩
        rintro rfl
        exact hhead _ hmem t n rfl rfl

theorem Resolves.pairwise (h : scope.Resolves) :
    scope.columns.Pairwise fun a b => ∀ t n, a = .qualified t n → b ≠ a := by
  rw [List.pairwise_iff_getElem]
  intro i j hi hj hij t n ha hb
  have hfirst := h i t n (by rw [List.getElem?_eq_getElem hi, ha])
  have hsecond := h j t n (by rw [List.getElem?_eq_getElem hj, hb, ha])
  rw [hfirst] at hsecond
  exact hij.ne (Option.some.inj hsecond)

@[simp] theorem tables_addColumns : (labels.foldl addColumn scope).tables = scope.tables := by
  induction labels generalizing scope with
  | nil => rfl
  | cons label labels ih => rw [List.foldl_cons, ih, tables_addColumn]

/-- The scopes of tables whose column names are distinct. -/
theorem Unique.addTable {table : Table} {alias' : Option String} (h : scope.Unique)
    (hadd : scope.addTable table alias' = .ok scope') : scope'.Unique ↔ table.Distinct := by
  unfold Scope.addTable at hadd
  dsimp only at hadd
  split_ifs at hadd with hknown
  · cases hadd
  obtain rfl := Except.ok.inj hadd
  have hfold : table.columns.foldl (fun self column =>
      self.addColumn (.qualified (alias'.getD table.name) column.name)) scope =
      (table.columns.map fun c => Label.qualified (alias'.getD table.name) c.name).foldl
        addColumn scope := List.foldl_map.symm
  have hunknown : ∀ n, .qualified (alias'.getD table.name) n ∉ scope.columns := by
    intro n hmem
    exact hknown (List.contains_iff_mem.mpr (h.known hmem))
  constructor
  · intro hunique
    have hresolves : Resolves ((table.columns.map fun c =>
        Label.qualified (alias'.getD table.name) c.name).foldl addColumn scope) :=
      hfold ▸ hunique.resolves
    have hpairwise := hresolves.pairwise
    rw [columns_addColumns] at hpairwise
    have hlabels := (List.pairwise_append.mp hpairwise).2.1
    rw [List.pairwise_map] at hlabels
    unfold Table.Distinct
    rw [List.Nodup, List.pairwise_map]
    exact hlabels.imp fun hne heq => hne _ _ rfl (by rw [heq])
  · intro hdistinct
    refine ⟨?_, ?_⟩
    · show Resolves (table.columns.foldl _ scope)
      rw [hfold]
      refine h.resolves.addColumns ?_ ?_
      · intro t n hmem
        obtain ⟨c, -, hc⟩ := List.mem_map.mp hmem
        obtain ⟨rfl, rfl⟩ := Label.qualified.inj hc
        exact hunknown _
      · rw [List.pairwise_map]
        have hnames := hdistinct
        unfold Table.Distinct at hnames
        rw [List.Nodup, List.pairwise_map] at hnames
        refine hnames.imp fun hne t n _ heq => hne ?_
        exact (Label.qualified.inj heq).2.symm
    · intro t n hmem
      have hmem : .qualified t n ∈ (table.columns.foldl (fun self column =>
          self.addColumn (.qualified (alias'.getD table.name) column.name)) scope).columns := hmem
      rw [hfold, columns_addColumns] at hmem
      have htables : ∀ s : Scope, (s.tables = scope.tables) →
          t ∈ alias'.getD table.name :: scope.tables → t ∈ alias'.getD table.name :: s.tables :=
        fun s hs ht => hs ▸ ht
      refine htables _ (by rw [hfold, tables_addColumns]) ?_
      obtain hmem | hmem := List.mem_append.mp hmem
      · exact List.mem_cons_of_mem _ (h.known hmem)
      · obtain ⟨c, -, hc⟩ := List.mem_map.mp hmem
        rw [(Label.qualified.inj hc).1]
        exact List.mem_cons_self

theorem mergeTables_spec {tables : List String} (h : scope.mergeTables tables = .ok scope') :
    scope'.columns = scope.columns ∧ scope'.qualified = scope.qualified ∧
      (∀ t ∈ tables, t ∉ scope.tables) ∧ ∀ t, t ∈ scope'.tables ↔ t ∈ tables ∨ t ∈ scope.tables := by
  induction tables generalizing scope with
  | nil =>
      obtain rfl := Except.ok.inj h
      simp
  | cons table tables ih =>
      unfold mergeTables at h
      split_ifs at h with hknown
      · cases h
      obtain ⟨hcolumns, hqualified, hnew, htables⟩ := ih h
      refine ⟨hcolumns, hqualified, ?_, ?_⟩
      · intro t ht
        obtain rfl | ht := List.mem_cons.mp ht
        · exact fun hmem => hknown (List.contains_iff_mem.mpr hmem)
        · exact fun hmem => hnew t ht (List.mem_cons_of_mem _ hmem)
      · intro t
        rw [htables, List.mem_cons, List.mem_cons]
        tauto

/-- The scope of a join. -/
theorem Unique.merge (h : scope.Unique) {other : Scope} (hother : other.Unique)
    (hmerge : scope.merge other = .ok scope') : scope'.Unique := by
  obtain ⟨merged, htables, hmerge⟩ := bind_eq_ok.mp hmerge
  obtain rfl := Except.ok.inj hmerge
  obtain ⟨hcolumns, hqualified, hnew, hmem⟩ := mergeTables_spec htables
  have hresolves : merged.Resolves := by
    intro i t n hi
    rw [hqualified]
    exact h.resolves i t n (hcolumns ▸ hi)
  refine ⟨?_, ?_⟩
  · refine Resolves.addColumns hresolves ?_ hother.resolves.pairwise
    intro t n hlabel hold
    rw [hcolumns] at hold
    exact hnew t (hother.known hlabel) (h.known hold)
  · intro t n hlabel
    have hlabel : .qualified t n ∈ (other.columns.foldl addColumn merged).columns := hlabel
    show t ∈ (other.columns.foldl addColumn merged).tables
    rw [columns_addColumns, hcolumns] at hlabel
    rw [tables_addColumns, hmem]
    obtain hlabel | hlabel := List.mem_append.mp hlabel
    · exact Or.inr (h.known hlabel)
    · exact Or.inl (hother.known hlabel)

end Scope

/-! ## Lookups by name -/

/-- What lookups need of a table holds of intact entries. -/
theorem Housed.contents {db : Entries} {table : Table} (h : Housed (fun _ => True) db.get table)
    (hdistinct : table.Distinct) : Contents table db := by
  constructor
  · intro id datum hget
    obtain ⟨row, rfl, hfits⟩ := h.row hget
    exact ⟨hfits.id_stored, row, rfl, hfits.key, hfits.length⟩
  · intro id id' datum datum' hget hget'
    obtain ⟨row, -, hfits⟩ := h.row hget
    obtain ⟨row', -, hfits'⟩ := h.row hget'
    rw [hfits.datatype, hfits'.datatype]
  · intro c column hc hindex value
    have hmem : ∀ id, id ∈ Snapshot.idsAt db.get table.name column.name value.stored ↔
        ∃ row, Snapshot.rowAt db.get table.name id = some row ∧ row[c]? = some value.stored :=
      h.linked.mem hdistinct (Table.mem_indexes.mpr ⟨hc, hindex⟩) trivial
    refine ⟨Snapshot.idsAt db.get table.name column.name value.stored, ?_, ?_⟩
    · unfold Snapshot.idsAt
      cases hget : db.get (.index table.name column.name value.stored) with
      | none => exact Or.inr ⟨hget, rfl⟩
      | some datum =>
          obtain ⟨_, _, set, _, _, rfl, _⟩ := h.linked.entry hget
          exact Or.inl hget
    · intro id
      rw [hmem id]
      constructor
      · rintro ⟨row, hrow, hvalue⟩
        refine ⟨row, Snapshot.rowAt_eq_some.mp hrow, ?_⟩
        rw [hvalue, Option.map_some, Value.stored_stored]
      · rintro ⟨row, hrow, hvalue⟩
        obtain ⟨_, hdatum, hfits⟩ := h.row hrow
        obtain rfl := Datum.row.inj hdatum
        refine ⟨row, Snapshot.rowAt_eq_some.mpr hrow, ?_⟩
        rwa [← Row.getElem?_stored, hfits.stored] at hvalue

/-- The names of the columns stand for the columns, in the index, in scopes and in lookups. -/
structure Identified (table : Table) (db : Entries) : Prop where
  names {i j : ℕ} {column column' : Column} : table.columns[i]? = some column →
    table.columns[j]? = some column' → i ≠ j → column.name ≠ column'.name
  keys {i j : ℕ} {column column' : Column} : table.columns[i]? = some column →
    table.columns[j]? = some column' → i ≠ j →
    ∀ v w, Key.ofIndex table.name column.name v ≠ Key.ofIndex table.name column'.name w
  scopes {scope scope' : Scope} {alias' : Option String} : scope.Unique →
    scope.addTable table alias' = .ok scope' → scope'.Unique
  lookups {i : ℕ} {column : Column} : table.columns[i]? = some column → column.index = true →
    ∀ v, ∃ ids, (Local.lookupIndex table.name column.name [v]).eval db = .ok ids ∧ ids.Nodup ∧
      ∀ id, id ∈ ids ↔
        ∃ row, db.get (.row table.name id) = some (.row row) ∧ row[i]? = some v.stored

theorem identified_iff {db : Entries} {table : Table}
    (h : Housed (fun _ => True) db.get table) : Identified table db ↔ table.Distinct := by
  constructor
  · intro hidentified
    unfold Table.Distinct
    rw [List.Nodup, List.pairwise_map, List.pairwise_iff_getElem]
    intro i j hi hj hij
    exact hidentified.names (List.getElem?_eq_getElem hi) (List.getElem?_eq_getElem hj) hij.ne
  · intro hdistinct
    have hnames : ∀ {i j : ℕ} {column column' : Column}, table.columns[i]? = some column →
        table.columns[j]? = some column' → i ≠ j → column.name ≠ column'.name :=
      fun hi hj hij hname => hij (hdistinct.unique hi hj hname)
    refine ⟨hnames, ?_, fun hscope hadd => (hscope.addTable hadd).mpr hdistinct, ?_⟩
    · intro i j column column' hi hj hij v w hkey
      exact hnames hi hj hij (Key.index.inj hkey).2.1
    · intro i column hi hindex v
      have hdb := h.contents hdistinct
      obtain ⟨ids, hexec, hnodup, hmem⟩ := exec_lookupIndex hdb hi hindex [v]
      refine ⟨ids, congrArg Prod.fst hexec, hnodup, ?_⟩
      intro id
      rw [hmem]
      constructor
      · rintro ⟨v', hv', row, hrow, hvalue⟩
        obtain rfl := List.mem_singleton.mp hv'
        obtain ⟨_, hdatum, hfits⟩ := h.row hrow
        obtain rfl := Datum.row.inj hdatum
        rw [← Row.getElem?_stored, hfits.stored] at hvalue
        exact ⟨row, hrow, hvalue⟩
      · rintro ⟨row, hrow, hvalue⟩
        refine ⟨v, List.mem_singleton_self v, row, hrow, ?_⟩
        rw [hvalue, Option.map_some, Value.stored_stored]

/-- In what every idle transaction with no failed statement sees, the names of a table's columns
stand for the columns just if they are distinct. -/
theorem names_identify {s : Sessions Key Datum} {i : ℕ} {handle : Handle Key Datum} {t : String}
    {table : Table}
    (h : Sessions.Reachable (integrity fun _ => True).Permits Sessions.empty s)
    (hi : s.store.handles[i]? = some handle) (hidle : s.phases[i]? = some (.idle false))
    (htable : (handle.state.viewMap s.store.engine).get (.table t) = some (.table table)) :
    Identified table (handle.state.viewMap s.store.engine) ↔ table.Distinct :=
  identified_iff ((whole_of_idle h hi hidle).present htable).2

/-- A schema with these names for two indexed columns. -/
def indexedPair (first second : String) : Table where
  name := "t"
  primaryKey := 0
  columns := [⟨"id", .integer, false, none, true, false, none⟩,
    ⟨first, .integer, false, none, false, true, none⟩,
    ⟨second, .integer, false, none, false, true, none⟩]

/-- A transaction creates the table and inserts a row. -/
def insertPair (table : Table) : Option (Sessions Key Datum) :=
  Sessions.empty.run ([.begin, .start 0 (Operation.createTable table).script] ++
    List.replicate 3 (.advance 0) ++
    [.start 0 (Operation.insert "t" [[.integer 1, .integer 5, .integer 6]]).script] ++
    List.replicate 8 (.advance 0))

theorem insertPair_reachable {table : Table} {s : Sessions Key Datum} (h : insertPair table = some s) :
    Sessions.Reachable (integrity fun _ => True).Permits Sessions.empty s := by
  refine Sessions.Reachable.start.run ?_ h
  intro move hmove s
  simp only [List.mem_append, List.mem_cons, List.mem_replicate, List.not_mem_nil, or_false] at hmove
  obtain (((rfl | rfl) | ⟨-, rfl⟩) | rfl) | ⟨-, rfl⟩ := hmove
  · trivial
  · exact fun handle _ => ⟨_, rfl, trivial⟩
  · trivial
  · exact fun handle _ => ⟨_, rfl, trivial⟩
  · trivial

theorem names_identify_pair : ∃ s handle, insertPair (indexedPair "a" "b") = some s ∧
    s.store.handles[0]? = some handle ∧
    Identified (indexedPair "a" "b") (handle.state.viewMap s.store.engine) := by
  have htable : ((insertPair (indexedPair "a" "b")).bind fun s => (Sessions.seen s 0).bind fun db =>
      db.get (.table "t")) = some (.table (indexedPair "a" "b")) := by decide +kernel
  obtain ⟨s, hs, h⟩ := Option.bind_eq_some_iff.mp htable
  obtain ⟨db, hdb, h⟩ := Option.bind_eq_some_iff.mp h
  obtain ⟨handle, hi, hidle, rfl⟩ := Sessions.seen_spec hdb
  exact ⟨s, handle, hs, hi, (names_identify (insertPair_reachable hs) hi hidle h).mpr (by decide)⟩

/-- Two columns of one name share their index entries: the lookup of 6 finds a row with 5 in
the first of them. -/
theorem not_names_identify : ∃ s handle,
    Sessions.Reachable (integrity fun _ => True).Permits Sessions.empty s ∧
    s.store.handles[0]? = some handle ∧ s.phases[0]? = some (.idle false) ∧
    (handle.state.viewMap s.store.engine).get (.table "t") = some (.table (indexedPair "a" "a")) ∧
    (Local.lookupIndex "t" "a" [.integer 6]).eval (handle.state.viewMap s.store.engine) =
      .ok [.integer 1] ∧
    (handle.state.viewMap s.store.engine).get (.row "t" (.integer 1)) =
      some (.row [.integer 1, .integer 5, .integer 6]) ∧
    ¬ Identified (indexedPair "a" "a") (handle.state.viewMap s.store.engine) := by
  have hrun : ((insertPair (indexedPair "a" "a")).bind fun s => (Sessions.seen s 0).map fun db =>
      (db.get (.table "t"), (Local.lookupIndex "t" "a" [.integer 6]).eval db,
        db.get (.row "t" (.integer 1)))) =
      some (some (.table (indexedPair "a" "a")), .ok [.integer 1],
        some (.row [.integer 1, .integer 5, .integer 6])) := by decide +kernel
  obtain ⟨s, hs, h⟩ := Option.bind_eq_some_iff.mp hrun
  obtain ⟨db, hdb, h⟩ := Option.map_eq_some_iff.mp h
  obtain ⟨handle, hi, hidle, rfl⟩ := Sessions.seen_spec hdb
  obtain ⟨htable, hfound⟩ := Prod.mk.inj h
  obtain ⟨hlookup, hrow⟩ := Prod.mk.inj hfound
  refine ⟨s, handle, insertPair_reachable hs, hi, hidle, htable, hlookup, hrow, fun h => ?_⟩
  exact h.names (i := 1) (j := 2) rfl rfl (by decide) rfl

end ToyDB.Sql
