import ToyDB.Sql.Engine.Validation

/-!
# What deletions check

A deletion looks for rows of any table that reference a deleted row: in a primary key
column by the rows themselves, in other columns by the index.
-/
namespace ToyDB.Sql
open ToyDB.Collections ToyDB.Mvcc ToyDB.Mvcc.Script

/-- The primary keys that a check finds for the rows that reference given rows in a column. -/
structure Referencing (S : Snapshot) (source : Table) (i : ℕ) (ids keys : List Value) : Prop where
  key : i = source.primaryKey → ∀ x, x ∈ keys ↔
    ∃ row, row[i]? = some x ∧ ∃ id ∈ ids, S (.ofRow source.name id) = some (.row row)
  index : i ≠ source.primaryKey → ∃ column, source.columns[i]? = some column ∧ ∀ x, x ∈ keys ↔
    ∃ id ∈ ids, ∃ set, S (.ofIndex source.name column.name id) = some (.ids set) ∧ x ∈ set

/-- The found keys that do not belong to deleted rows. -/
def remaining (table : Table) (ids : List Value) (source : Table) (keys : List Value) : ValueSet :=
  if source.name = table.name then
    ids.foldl (fun set id => ValueSet.remove id set) (ValueSet.ofList keys)
  else ValueSet.ofList keys

/-- The check of a deletion finds no row that references a deleted one. -/
def Unreferenced (S : Snapshot) (table : Table) (ids : List Value) : Prop :=
  ∀ t source, S (.table t) = some (.table source) → ∀ i ∈ source.referencesTo table.name,
    ∃ keys, Referencing S source i ids keys ∧ remaining table ids source keys = []

namespace Local
variable {table source : Table} {ids : List Value} {i : ℕ}

/-- The values of a column of rows. -/
theorem reads_columnOf {rows : List Row} : Reads (rows.mapM fun row =>
      match row[i]? with
      | some id => (pure id : Statement Value)
      | none => panicked "short row")
    fun _ keys => ∀ x, x ∈ keys ↔ ∃ row ∈ rows, row[i]? = some x := by
  induction rows with
  | nil => exact reads_pure fun _ x => by simp
  | cons row rows ih =>
      rw [List.mapM_cons]
      have hrow : Reads (match row[i]? with
          | some id => (pure id : Statement Value)
          | none => panicked "short row") fun _ id => row[i]? = some id := by
        cases row[i]? with
        | none => exact reads_panicked
        | some id => exact reads_pure fun _ => rfl
      refine hrow.bind fun id => ih.bind fun keys => reads_pure fun _ hkeys hid x => ?_
      rw [List.mem_cons, hkeys x, List.exists_mem_cons_iff, hid, Option.some.injEq, eq_comm]

theorem reads_referencing : Reads (referencing source i ids)
    fun db set => ∃ keys, Referencing db.get source i ids keys ∧ set = ValueSet.ofList keys := by
  unfold referencing
  split_ifs with hi
  · refine reads_get.bind fun rows => reads_columnOf.bind fun keys => reads_pure fun db hkeys hrows => ?_
    refine ⟨keys, ⟨fun _ x => ?_, fun hne => absurd hi hne⟩, rfl⟩
    rw [hkeys]
    constructor
    · rintro ⟨row, hrow, hx⟩
      exact ⟨row, hx, (hrows row).mp hrow⟩
    · rintro ⟨row, hx, hrow⟩
      exact ⟨row, (hrows row).mpr hrow, hx⟩
  · refine reads_nth.bind fun column => reads_lookupIndex.mono fun db set hset hcolumn => ?_
    obtain ⟨keys, rfl, hkeys⟩ := hset
    exact ⟨keys, ⟨fun h => absurd h hi, fun _ => ⟨column, hcolumn, hkeys⟩⟩, rfl⟩

theorem reads_checkReference : Reads (checkReference table ids source i) fun db _ =>
    ∃ keys, Referencing db.get source i ids keys ∧ remaining table ids source keys = [] := by
  unfold checkReference
  refine reads_referencing.bind fun found => ?_
  extract_lets found'
  have hfound : ∀ keys, found = ValueSet.ofList keys → found' = remaining table ids source keys := by
    rintro keys rfl
    rfl
  generalize found' = set at hfound
  cases set with
  | nil =>
      refine reads_pure fun db h => ?_
      obtain ⟨keys, hkeys, heq⟩ := h
      exact ⟨keys, hkeys, (hfound keys heq).symm⟩
  | cons sourceId rest => exact reads_nth.bind fun column => reads_errinput

/-- All checks of a deletion. -/
theorem reads_unreferenced : Reads (do
      let references ← tableReferences table.name
      references.forM fun (source, refs) => refs.forM fun i => checkReference table ids source i)
    fun db _ => Unreferenced db.get table ids := by
  refine reads_tableReferences.bind fun references => ?_
  refine (reads_forM (R := fun db b => ∀ i ∈ b.2, ∃ keys, Referencing db.get b.1 i ids keys ∧
    remaining table ids b.1 keys = []) fun b _ => reads_forM fun i _ => reads_checkReference).mono ?_
  intro db _ h hreferences t source htable i hi
  refine h (source, source.referencesTo table.name) ?_ i hi
  exact (hreferences _ _).mpr ⟨⟨t, htable⟩, rfl, List.ne_nil_of_mem hi⟩

end Local
end ToyDB.Sql
