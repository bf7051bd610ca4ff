import ToyDB.Sql.Engine.Integrity

/-!
# What the validation of rows checks

Validation only reads; each check is stated as what it says about the entries that the
transaction sees.
-/
namespace ToyDB.Sql
open ToyDB.Collections ToyDB.Mvcc ToyDB.Mvcc.Script

/-- The index lists no other row for the value. -/
def Unclaimed (S : Snapshot) (table : Table) (update : Bool) (id : Value) (column : Column)
    (value : Value) : Prop :=
  ∃ found, (∀ x, x ∈ found ↔ ∃ set,
      S (.ofIndex table.name column.name value) = some (.ids set) ∧ x ∈ set) ∧
    (if update then ValueSet.remove id (ValueSet.ofList found) else ValueSet.ofList found) = []

/-- What is checked of the value of a column in the row with a primary key. -/
structure Checked (S : Snapshot) (table : Table) (update : Bool) (id : Value) (i : ℕ)
    (column : Column) (value : Value) : Prop where
  admits : column.Admits value
  reference {target : String} : column.references = some target → value = .null ∨
    (target = table.name ∧ value.eq id = true) ∨ ∃ row, S (.ofRow target value) = some (.row row)
  unique : column.unique = true → i ≠ table.primaryKey → value.isUndefined = false →
    Unclaimed S table update id column value

/-- What is checked of a row. -/
structure Validated (S : Snapshot) (table : Table) (update : Bool) (id : Value) (row : Row) :
    Prop where
  length : row.length = table.columns.length
  key : row[table.primaryKey]? = some id
  defined : id.isUndefined = false
  fresh : update = false → ∀ row, S (.ofRow table.name id) ≠ some (.row row)
  columns {i : ℕ} {column : Column} {value : Value} : table.columns[i]? = some column →
    row[i]? = some value → Checked S table update id i column value

theorem Validated.fits {S : Snapshot} {table : Table} {update : Bool} {id : Value} {row : Row}
    (h : Validated S table update id row) : table.Fits id.stored row.stored := by
  constructor
  · rw [Row.length_stored, h.length]
  · rw [Row.getElem?_stored, h.key, Option.map_some]
  · rw [Value.isUndefined_stored, h.defined]
  · exact Row.stored_stored row
  · intro i column value hcolumn hvalue
    rw [Row.getElem?_stored] at hvalue
    obtain ⟨v, hv, rfl⟩ := Option.map_eq_some_iff.mp hvalue
    exact (h.columns hcolumn hv).admits.stored

namespace Local
variable {table : Table} {update : Bool} {id value : Value} {i : ℕ} {column : Column} {row : Row}

theorem reads_validateColumn : Reads (validateColumn table update id i column value)
    fun db _ => Checked db.get table update id i column value := by
  unfold validateColumn
  extract_lets unique reference nullable
  have hunique : ∀ u, Reads (unique u) fun db _ => column.unique = true → i ≠ table.primaryKey →
      value.isUndefined = false → Unclaimed db.get table update id column value := by
    intro u
    unfold unique
    by_cases hchecked : (column.unique && decide (i ≠ table.primaryKey) && !value.isUndefined) = true
    · rw [if_pos hchecked]
      refine reads_lookupIndex.bind fun set => ?_
      extract_lets index
      by_cases hindex : index = []
      · rw [if_neg (not_not.mpr hindex)]
        refine reads_pure fun db hset _ _ _ => ?_
        obtain ⟨found, rfl, hfound⟩ := hset
        exact ⟨found, fun x => (hfound x).trans (by simp), hindex⟩
      · rw [if_pos hindex]
        exact reads_errinput
    · rw [if_neg hchecked]
      refine reads_pure fun db => ?_
      intro hcolumn hi hvalue
      simp [hcolumn, hi, hvalue] at hchecked
  have hreference : ∀ u, Reads (reference u) fun db _ =>
      (∀ target, column.references = some target → value = .null ∨
        (target = table.name ∧ value.eq id = true) ∨
          ∃ row, db.get (.ofRow target value) = some (.row row)) ∧
      (column.unique = true → i ≠ table.primaryKey → value.isUndefined = false →
        Unclaimed db.get table update id column value) := by
    intro u
    unfold reference
    split
    · next hnone =>
        exact (hunique ()).mono fun db _ h => ⟨fun target htarget => by simp [hnone] at htarget, h⟩
    · next target hsome =>
        split_ifs with hnull hself
        · exact (hunique ()).mono fun db _ h => ⟨fun _ _ => Or.inl hnull, h⟩
        · refine (hunique ()).mono fun db _ h => ⟨fun target' h' => Or.inr (Or.inl ?_), h⟩
          rwa [← Option.some.inj (hsome.symm.trans h')]
        · refine reads_get.bind fun rows => ?_
          split_ifs with hrows
          · exact reads_errinput
          · refine (hunique ()).mono fun db _ h hmem => ⟨fun target' h' => Or.inr (Or.inr ?_), h⟩
            obtain ⟨found, hfound⟩ := List.exists_mem_of_ne_nil _ hrows
            obtain ⟨v, hv, hget⟩ := (hmem found).mp hfound
            obtain rfl := List.mem_singleton.mp hv
            obtain rfl := Option.some.inj (hsome.symm.trans h')
            exact ⟨found, hget⟩
  have hadmits : (∀ t, value.datatype = some t → t = column.datatype) →
      Reads (nullable ()) fun db _ => Checked db.get table update id i column value := by
    intro htype
    unfold nullable
    split_ifs with hnull
    · exact reads_errinput
    · have hadmits : column.Admits value := by
        constructor
        · exact fun ht => htype _ ht
        · intro hvalue
          cases hcolumn : column.nullable with
          | true => rfl
          | false => exact absurd (by rw [hvalue, hcolumn]; rfl) hnull
      exact (hreference ()).mono fun db _ h => ⟨hadmits, fun ht => h.1 _ ht, h.2⟩
  split
  · next vtype htype =>
      split_ifs with hne
      · exact reads_errinput
      · refine hadmits fun t ht => ?_
        rw [← Option.some.inj (htype.symm.trans ht)]
        exact not_not.mp hne
  · next hnone => exact hadmits fun t ht => by simp [hnone] at ht

theorem reads_validateColumns {columns : List Column} {row : Row} :
    Reads (validateColumns table update id i columns row) fun db _ => ∀ j column value,
      columns[j]? = some column → row[j]? = some value →
        Checked db.get table update id (i + j) column value := by
  induction columns generalizing i row with
  | nil => exact reads_pure fun _ j column value h => by simp at h
  | cons column columns ih =>
      cases row with
      | nil => exact reads_pure fun _ j column value _ h => by simp at h
      | cons value row =>
          refine reads_validateColumn.bind fun _ => ih.mono fun db _ hrest hfirst => ?_
          intro j column' value' hcolumn hvalue
          cases j with
          | zero =>
              obtain rfl := Option.some.inj hcolumn
              obtain rfl := Option.some.inj hvalue
              exact hfirst
          | succ j =>
              have hrest := hrest j column' value' hcolumn hvalue
              rwa [show i + 1 + j = i + (j + 1) by omega] at hrest

theorem reads_validateRow : Reads (validateRow table row update)
    fun db _ => ∃ id, Validated db.get table update id row := by
  unfold validateRow
  extract_lets checked
  have hchecked : row.length = table.columns.length →
      Reads (checked ()) fun db _ => ∃ id, Validated db.get table update id row := by
    intro hlength
    unfold checked
    refine reads_nth.bind fun id => ?_
    extract_lets columns fresh
    have hcolumns : ∀ u, Reads (columns u) fun db _ => ∀ i column value,
        table.columns[i]? = some column → row[i]? = some value →
          Checked db.get table update id i column value := by
      intro u
      refine reads_validateColumns.mono fun db _ h i column value hcolumn hvalue => ?_
      rw [← Nat.zero_add i]
      exact h i column value hcolumn hvalue
    split_ifs with hdefined
    · exact reads_errinput
    · have hdefined : id.isUndefined = false := by simpa using hdefined
      unfold fresh
      split_ifs with hupdate
      · refine reads_get.bind fun rows => ?_
        split_ifs with hrows
        · exact reads_errinput
        · refine (hcolumns ()).mono fun db _ h hmem hkey =>
            ⟨id, hlength, hkey, hdefined, fun _ row' hrow' => ?_, h _ _ _⟩
          have hrow' := (hmem row').mpr ⟨id, List.mem_singleton_self id, hrow'⟩
          rw [not_not.mp hrows] at hrow'
          cases hrow'
      · exact (hcolumns ()).mono fun db _ h hkey =>
          ⟨id, hlength, hkey, hdefined, fun h => absurd h hupdate, h _ _ _⟩
  split_ifs with hlength
  · exact reads_errinput
  · exact hchecked (not_not.mp hlength)

end Local
end ToyDB.Sql
