import ToyDB.Sql.Engine.Reading

/-!
# Integrity of rows and index entries

Every row and index entry belongs to a table with a schema, rows fit the schema and stand
under their primary keys, and an index entry lists just the rows that hold its value. Index
keys name their columns, so the last holds for tables with distinct column names. It holds
for the values that `exact` selects.
-/
namespace ToyDB.Sql
open ToyDB.Collections ToyDB.Mvcc

/-- The entries of the engine that a reader sees. -/
abbrev Snapshot := Key → Option Datum

/-- The table that an entry belongs to. -/
def Key.owner : Key → String
  | table t | index t _ _ | row t _ => t

@[simp] theorem Row.stored_stored (row : Row) : row.stored.stored = row.stored := by
  simp [Row.stored]

@[simp] theorem Row.length_stored (row : Row) : row.stored.length = row.length :=
  List.length_map _

theorem Row.getElem?_stored (row : Row) (i : ℕ) :
    row.stored[i]? = row[i]?.map Value.stored := List.getElem?_map

/-- A value that the column can hold. -/
structure Column.Admits (column : Column) (value : Value) : Prop where
  datatype {t : DataType} : value.datatype = some t → t = column.datatype
  nullable : value = .null → column.nullable = true

/-- Equal values that a column can hold have one type. -/
theorem Column.Admits.datatype_eq {column : Column} {v w : Value} (hv : column.Admits v)
    (hw : column.Admits w) (h : v.eq w = true) : v.datatype = w.datatype := by
  have hnull : v.datatype = none ↔ w.datatype = none := by
    cases v <;> cases w <;>
      first | exact absurd h Bool.false_ne_true | simp only [Value.datatype, reduceCtorEq]
  cases hvt : v.datatype with
  | none => exact (hnull.mp hvt).symm
  | some t =>
      cases hwt : w.datatype with
      | none =>
          rw [hnull.mpr hwt] at hvt
          cases hvt
      | some u => rw [hv.datatype hvt, hw.datatype hwt]

theorem Column.Admits.stored {column : Column} {value : Value} (h : column.Admits value) :
    column.Admits value.stored := by
  constructor
  · intro t ht
    rw [Value.datatype_stored] at ht
    exact h.datatype ht
  · intro hnull
    exact h.nullable (Value.stored_eq_null.mp hnull)

theorem Column.Admits.of_stored {column : Column} {value : Value}
    (h : column.Admits value.stored) : column.Admits value := by
  constructor
  · intro t ht
    exact h.datatype ((Value.datatype_stored value).trans ht)
  · intro hnull
    exact h.nullable (Value.stored_eq_null.mpr hnull)

namespace Table

/-- The column names are distinct. -/
def Distinct (table : Table) : Prop := (table.columns.map Column.name).Nodup

instance (table : Table) : Decidable table.Distinct := inferInstanceAs (Decidable (List.Nodup _))

/-- The type of primary keys. -/
def keyType (table : Table) : Option DataType :=
  table.columns[table.primaryKey]?.map Column.datatype

/-- A stored row under a primary key. -/
structure Fits (table : Table) (id : Value) (row : Row) : Prop where
  length : row.length = table.columns.length
  key : row[table.primaryKey]? = some id
  defined : id.isUndefined = false
  stored : row.stored = row
  admits {i : ℕ} {column : Column} {value : Value} : table.columns[i]? = some column →
    row[i]? = some value → column.Admits value

variable {table : Table} {id : Value} {row : Row} {i j : ℕ} {column column' : Column}

theorem mem_indexes : (i, column) ∈ table.indexes ↔
    table.columns[i]? = some column ∧ column.index = true := by
  simp only [indexes, List.mem_filter, List.mem_map, Prod.exists, Prod.mk.injEq]
  refine and_congr_left fun _ => ?_
  constructor
  · rintro ⟨c, n, hmem, rfl, rfl⟩
    exact List.mem_zipIdx_iff_getElem?.mp hmem
  · intro h
    exact ⟨column, i, List.mem_zipIdx_iff_getElem?.mpr h, rfl, rfl⟩

theorem indexes_nodup (table : Table) : (table.indexes.map Prod.fst).Nodup := by
  have hall : (table.columns.zipIdx.map fun e => (e.2, e.1)).map Prod.fst =
      List.range table.columns.length := by
    rw [List.map_map, List.range_eq_range', ← List.zipIdx_map_snd 0 table.columns]
    rfl
  refine List.Nodup.sublist ((List.filter_sublist).map Prod.fst) ?_
  rw [hall]
  exact List.nodup_range

/-- A name stands for one column. -/
theorem Distinct.unique (h : table.Distinct) (hi : table.columns[i]? = some column)
    (hj : table.columns[j]? = some column') (hname : column.name = column'.name) : i = j := by
  have hlt := (List.getElem?_eq_some_iff.mp hi).1
  refine (List.getElem?_inj (by simpa using hlt) h).mp ?_
  rw [List.getElem?_map, List.getElem?_map, hi, hj, Option.map_some, Option.map_some, hname]

theorem Fits.id_stored (h : table.Fits id row) : id.stored = id := by
  have hkey := h.key
  rw [← h.stored, Row.getElem?_stored, h.key] at hkey
  exact Option.some.inj hkey

theorem Fits.value_stored (h : table.Fits id row) {value : Value} (hi : row[i]? = some value) :
    value.stored = value := by
  have hvalue := hi
  rw [← h.stored, Row.getElem?_stored, hi] at hvalue
  exact Option.some.inj hvalue

theorem Fits.columnAt (h : table.Fits id row) {value : Value} (hi : row[i]? = some value) :
    ∃ column, table.columns[i]? = some column := by
  have hlt := (List.getElem?_eq_some_iff.mp hi).1
  exact ⟨_, List.getElem?_eq_getElem (h.length ▸ hlt)⟩

theorem Fits.datatype (h : table.Fits id row) : id.datatype = table.keyType := by
  obtain ⟨column, hcolumn⟩ := h.columnAt h.key
  have hadmits := h.admits hcolumn h.key
  rw [keyType, hcolumn]
  cases hid : id.datatype with
  | none =>
      cases id with
      | null => exact absurd h.defined (by simp [Value.isUndefined])
      | _ => cases hid
  | some t => rw [hadmits.datatype hid, Option.map_some]

end Table

namespace Snapshot

/-- The row with a primary key. -/
def rowAt (S : Snapshot) (table : String) (id : Value) : Option Row :=
  match S (.row table id) with
  | some (.row row) => some row
  | _ => none

/-- The primary keys that an index entry lists. -/
def idsAt (S : Snapshot) (table column : String) (value : Value) : ValueSet :=
  match S (.index table column value) with
  | some (.ids set) => set
  | _ => []

variable {S S' : Snapshot} {t c : String} {id value : Value} {row : Row} {set : ValueSet}

theorem rowAt_eq_some : S.rowAt t id = some row ↔ S (.row t id) = some (.row row) := by
  unfold rowAt
  split
  · next row' h => rw [h, Option.some.injEq, Option.some.injEq, Datum.row.injEq]
  · next h =>
      constructor
      · intro hrow
        cases hrow
      · intro hrow
        exact absurd hrow (h row)

/-- What a read of an index entry finds. -/
def Finds (S : Snapshot) (key : Key) (set : ValueSet) : Prop :=
  S key = some (.ids set) ∨ S key = none ∧ set = []

theorem Finds.idsAt_eq (h : S.Finds (.index t c value) set) : S.idsAt t c value = set := by
  unfold idsAt
  obtain h | ⟨h, rfl⟩ := h
  · rw [h]
  · rw [h]

end Snapshot

/-- Index entries belong to indexed columns and are not empty, and list the rows. The rows
may differ from column to column while a statement is at work. -/
structure Linked (exact : Value → Prop) (table : Table) (rows : ℕ → Value → Option Row)
    (S : Snapshot) : Prop where
  entry {c : String} {value : Value} {datum : Datum} : S (.index table.name c value) = some datum →
    ∃ i column set, (i, column) ∈ table.indexes ∧ column.name = c ∧ datum = .ids set ∧ set ≠ [] ∧
      ValueSet.Uniform table.keyType set ∧ ∀ id ∈ set, id.stored = id
  mem {i : ℕ} {column : Column} {value : Value} : table.Distinct → (i, column) ∈ table.indexes →
    exact value → ∀ id, id ∈ S.idsAt table.name column.name value ↔
      ∃ row, rows i id = some row ∧ row[i]? = some value

/-- The rows and index entries of a table. -/
structure Housed (exact : Value → Prop) (S : Snapshot) (table : Table) : Prop where
  row {id : Value} {datum : Datum} : S (.row table.name id) = some datum →
    ∃ row, datum = .row row ∧ table.Fits id row
  linked : Linked exact table (fun _ => S.rowAt table.name) S

/-- The entries of a table name. -/
inductive Intact (exact : Value → Prop) (S : Snapshot) (t : String) : Prop where
  | absent (h : ∀ key : Key, key.owner = t → S key = none) : Intact exact S t
  | present (table : Table) (hname : table.name = t)
      (htable : S (.table t) = some (.table table)) (h : Housed exact S table) : Intact exact S t

section Changes
variable {exact : Value → Prop} {table : Table} {rows rows' : ℕ → Value → Option Row}
  {S S' : Snapshot} {i : ℕ} {column : Column} {id value : Value} {row : Row} {set : ValueSet}
  {t : String}

theorem Linked.congr (h : Linked exact table rows S)
    (hrows : ∀ i ∈ table.indexes.map Prod.fst, ∀ id, rows' i id = rows i id)
    (hS : ∀ c v, S' (.index table.name c v) = S (.index table.name c v)) :
    Linked exact table rows' S' := by
  constructor
  · intro c v datum hget
    exact h.entry (hS c v ▸ hget)
  · intro i column v hdistinct hindex hv id
    rw [hrows i (List.mem_map_of_mem (f := Prod.fst) hindex) id, Snapshot.idsAt, hS]
    exact h.mem hdistinct hindex hv id

theorem Housed.congr (h : Housed exact S table)
    (hS : ∀ key : Key, key.owner = table.name → key ≠ .table table.name → S' key = S key) :
    Housed exact S' table := by
  have hrow : ∀ id, S' (.row table.name id) = S (.row table.name id) :=
    fun id => hS _ rfl (by simp)
  constructor
  · intro id datum hget
    exact h.row (hrow id ▸ hget)
  · refine h.linked.congr ?_ fun c v => hS _ rfl (by simp)
    intro i hi id
    rw [Snapshot.rowAt, hrow, Snapshot.rowAt]

theorem Intact.congr (h : Intact exact S t) (hS : ∀ key : Key, key.owner = t → S' key = S key) :
    Intact exact S' t := by
  cases h with
  | absent h =>
      refine .absent fun key hkey => ?_
      rw [hS key hkey]
      exact h key hkey
  | present table hname htable h =>
      refine .present table hname ((hS _ rfl).trans htable) (h.congr fun key hkey _ => ?_)
      exact hS key (hkey.trans hname)

theorem Linked.of_finds (h : Linked exact table rows S) {c : String}
    (hset : S.Finds (.index table.name c value) set) :
    ValueSet.Uniform table.keyType set ∧ ∀ id ∈ set, id.stored = id := by
  obtain hset | ⟨-, rfl⟩ := hset
  · obtain ⟨i, column, set', -, -, hdatum, -, huniform, hstored⟩ := h.entry hset
    obtain rfl := Datum.ids.inj hdatum
    exact ⟨huniform, hstored⟩
  · exact ⟨ValueSet.uniform_nil, fun id hid => absurd hid List.not_mem_nil⟩

/-- The entry after it is stored again. -/
theorem mem_stored_set (hset : ValueSet.Uniform table.keyType set) (hstored : ∀ id ∈ set, id.stored = id) :
    id ∈ set.stored ↔ id ∈ set := by
  rw [(ValueSet.stored_spec fun v hv => hset.datatype hv).1]
  constructor
  · rintro ⟨v, hv, rfl⟩
    rw [hstored v hv]
    exact hv
  · intro hid
    exact ⟨id, hid, hstored id hid⟩

/-- The row appears in the column's index. -/
theorem Linked.link (h : Linked exact table rows S) (hindex : (i, column) ∈ table.indexes)
    (hid : id.datatype = table.keyType)
    (hset : S.Finds (.ofIndex table.name column.name value) set)
    (hnone : rows i id.stored = none) (hsome : rows' i id.stored = some row)
    (hvalue : row[i]? = some value.stored)
    (hother : ∀ j id', j ≠ i ∨ id' ≠ id.stored → rows' j id' = rows j id') :
    Linked exact table rows' (Function.update S (.ofIndex table.name column.name value)
      (some (.ids (ValueSet.insert id set).stored))) := by
  obtain ⟨huniform, hstored⟩ := h.of_finds hset
  have hinsert := huniform.insert hid
  obtain ⟨hmem, huniform'⟩ := ValueSet.stored_spec fun v hv => hinsert.datatype hv
  have hids : ∀ x, x ∈ (ValueSet.insert id set).stored ↔ x = id.stored ∨ x ∈ set := by
    intro x
    rw [hmem]
    constructor
    · rintro ⟨v, hv, rfl⟩
      obtain rfl | hv := (ValueSet.mem_insert hid huniform).mp hv
      · exact Or.inl rfl
      · rw [hstored v hv]
        exact Or.inr hv
    · rintro (rfl | hx)
      · exact ⟨id, (ValueSet.mem_insert hid huniform).mpr (Or.inl rfl), rfl⟩
      · exact ⟨x, (ValueSet.mem_insert hid huniform).mpr (Or.inr hx), hstored x hx⟩
  constructor
  · intro c v datum hget
    rw [Function.update_apply] at hget
    split_ifs at hget with hkey
    · obtain ⟨-, rfl, -⟩ := Key.index.inj hkey
      obtain rfl := Option.some.inj hget
      refine ⟨i, column, _, hindex, rfl, rfl, ?_, huniform', ?_⟩
      · exact List.ne_nil_of_mem ((hids id.stored).mpr (Or.inl rfl))
      · intro x hx
        obtain rfl | hx := (hids x).mp hx
        · exact Value.stored_stored id
        · exact hstored x hx
    · exact h.entry hget
  · intro j column' v hdistinct hindex' hv x
    by_cases hkey : Key.index table.name column'.name v = .ofIndex table.name column.name value
    · obtain ⟨-, hname, rfl⟩ := Key.index.inj hkey
      obtain ⟨hj, -⟩ := Table.mem_indexes.mp hindex'
      obtain ⟨hi, -⟩ := Table.mem_indexes.mp hindex
      obtain rfl := hdistinct.unique hj hi hname
      have hentry : Snapshot.idsAt (Function.update S (.ofIndex table.name column.name value)
          (some (.ids (ValueSet.insert id set).stored))) table.name column'.name value.stored =
            (ValueSet.insert id set).stored := by
        rw [Snapshot.idsAt, hkey, Function.update_self]
      have hold := h.mem hdistinct hindex' hv x
      rw [Snapshot.Finds.idsAt_eq (hkey ▸ hset)] at hold
      rw [hentry, hids]
      by_cases hx : x = id.stored
      · refine iff_of_true (Or.inl hx) ⟨row, ?_, hvalue⟩
        rw [hx, hsome]
      · rw [hother j x (Or.inr hx), ← hold]
        exact or_iff_right hx
    · have hentry : Snapshot.idsAt (Function.update S (.ofIndex table.name column.name value)
          (some (.ids (ValueSet.insert id set).stored))) table.name column'.name v =
            S.idsAt table.name column'.name v := by
        rw [Snapshot.idsAt, Function.update_of_ne hkey, Snapshot.idsAt]
      have hold := h.mem hdistinct hindex' hv x
      rw [hentry, hold]
      by_cases hx : j = i ∧ x = id.stored
      · obtain ⟨rfl, rfl⟩ := hx
        rw [hnone, hsome]
        refine iff_of_false ?_ ?_
        · rintro ⟨_, hrow, -⟩
          cases hrow
        · rintro ⟨_, hrow, hv'⟩
          obtain rfl := Option.some.inj hrow
          obtain ⟨hj, -⟩ := Table.mem_indexes.mp hindex'
          obtain ⟨hi, -⟩ := Table.mem_indexes.mp hindex
          obtain rfl := Option.some.inj (hj.symm.trans hi)
          rw [hvalue] at hv'
          exact hkey (by rw [← Option.some.inj hv']; rfl)
      · rw [hother j x (by tauto)]

/-- The row disappears from the column's index. -/
theorem Linked.unlink (h : Linked exact table rows S) (hindex : (i, column) ∈ table.indexes)
    (hid : id.datatype = table.keyType)
    (hset : S.Finds (.ofIndex table.name column.name value) set)
    (hsome : rows i id = some row) (hvalue : row[i]? = some value) (hstored : value.stored = value)
    (hnone : rows' i id = none) (hother : ∀ j id', j ≠ i ∨ id' ≠ id → rows' j id' = rows j id') :
    Linked exact table rows' (Function.update S (.ofIndex table.name column.name value)
      (if ValueSet.remove id set = [] then none
        else some (.ids (ValueSet.remove id set).stored))) := by
  obtain ⟨huniform, hmembers⟩ := h.of_finds hset
  have hremove : ValueSet.Uniform table.keyType (ValueSet.remove id set) := huniform.remove
  have hmembers' : ∀ x ∈ ValueSet.remove id set, x.stored = x :=
    fun x hx => hmembers x (ValueSet.remove_sublist.subset hx)
  have hids : ∀ x, x ∈ (ValueSet.remove id set).stored ↔ x ∈ set ∧ x ≠ id := by
    intro x
    rw [mem_stored_set hremove hmembers', ValueSet.mem_remove huniform hid]
  constructor
  · intro c v datum hget
    rw [Function.update_apply] at hget
    split_ifs at hget with hkey hempty
    · obtain ⟨-, rfl, -⟩ := Key.index.inj hkey
      obtain rfl := Option.some.inj hget
      refine ⟨i, column, _, hindex, rfl, rfl, ?_, ?_, ?_⟩
      · obtain ⟨x, hx⟩ := List.exists_mem_of_ne_nil _ hempty
        exact List.ne_nil_of_mem ((mem_stored_set hremove hmembers').mpr hx)
      · exact (ValueSet.stored_spec fun v hv => hremove.datatype hv).2
      · exact fun x hx => hmembers x ((hids x).mp hx).1
    · exact h.entry hget
  · intro j column' v hdistinct hindex' hv x
    have hold := h.mem hdistinct hindex' hv x
    by_cases hkey : Key.index table.name column'.name v = .ofIndex table.name column.name value
    · obtain ⟨-, hname, hv'⟩ := Key.index.inj hkey
      obtain ⟨hj, -⟩ := Table.mem_indexes.mp hindex'
      obtain ⟨hi, -⟩ := Table.mem_indexes.mp hindex
      obtain rfl := hdistinct.unique hj hi hname
      rw [Snapshot.Finds.idsAt_eq (hkey ▸ hset)] at hold
      have hentry : x ∈ Snapshot.idsAt (Function.update S (.ofIndex table.name column.name value)
          (if ValueSet.remove id set = [] then none
            else some (.ids (ValueSet.remove id set).stored))) table.name column'.name v ↔
            x ∈ set ∧ x ≠ id := by
        rw [Snapshot.idsAt, hkey, Function.update_self]
        split_ifs with hempty
        · rw [← ValueSet.mem_remove huniform hid, hempty]
        · exact hids x
      rw [hentry, hold]
      by_cases hx : x = id
      · subst hx
        rw [hnone]
        simp
      · rw [hother j x (Or.inr hx)]
        exact and_iff_left hx
    · have hentry : Snapshot.idsAt (Function.update S (.ofIndex table.name column.name value)
          (if ValueSet.remove id set = [] then none
            else some (.ids (ValueSet.remove id set).stored))) table.name column'.name v =
            S.idsAt table.name column'.name v := by
        rw [Snapshot.idsAt, Function.update_of_ne hkey, Snapshot.idsAt]
      rw [hentry, hold]
      by_cases hx : j = i ∧ x = id
      · obtain ⟨rfl, rfl⟩ := hx
        rw [hnone, hsome]
        refine iff_of_false ?_ ?_
        · rintro ⟨_, hrow, hv'⟩
          obtain rfl := Option.some.inj hrow
          obtain ⟨hj, -⟩ := Table.mem_indexes.mp hindex'
          obtain ⟨hi, -⟩ := Table.mem_indexes.mp hindex
          obtain rfl := Option.some.inj (hj.symm.trans hi)
          rw [hvalue] at hv'
          exact hkey (by rw [Key.ofIndex, hstored, Option.some.inj hv'])
        · rintro ⟨_, hrow, -⟩
          cases hrow
      · rw [hother j x (by tauto)]

end Changes
end ToyDB.Sql
