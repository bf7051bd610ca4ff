import ToyDB.Sql.Engine.FixedCatalog

/-!
# Uniqueness under concurrency

A row is validated against the index entry of its value, which every row with that value is
listed in. Two transactions that write rows with one value write one index entry, so one of
them conflicts.
-/
namespace ToyDB.Sql
open ToyDB.Collections ToyDB.Mvcc ToyDB.Mvcc.Script

/-- No two rows hold the same value in a unique column. -/
def UniqueRows (S : Snapshot) : Prop :=
  ∀ {table : Table} {c : ℕ} {column : Column}, S (.table table.name) = some (.table table) →
    table.Distinct → (c, column) ∈ table.indexes → column.unique = true → c ≠ table.primaryKey →
    ∀ {v : Value}, v.Defined → ∀ {id id' : Value} {row row' : Row},
      S.rowAt table.name id = some row → S.rowAt table.name id' = some row' →
      row[c]? = some v → row'[c]? = some v → id = id'

section Unclaimed
variable {S S' : Snapshot} {table : Table} {update : Bool} {id value : Value} {row : Row} {c : ℕ}
  {column : Column}

/-- A row with the value that is to be written is the row itself. -/
theorem Unclaimed.eq_of_row (h : Unclaimed S table update id column value)
    (hS : Housed Value.Defined S table) (hdistinct : table.Distinct)
    (hindex : (c, column) ∈ table.indexes) (hvalue : value.stored.Defined)
    (htype : id.datatype = table.keyType) {id' : Value} {row' : Row}
    (hrow : S.rowAt table.name id' = some row') (hc : row'[c]? = some value.stored) :
    update = true ∧ id' = id := by
  obtain ⟨found, hfound, hremaining⟩ := h
  have hlisted := (hS.linked.mem hdistinct hindex hvalue id').mpr ⟨row', hrow, hc⟩
  have htypes : ∀ x ∈ found, x.datatype = table.keyType := by
    intro x hx
    obtain ⟨set, hset, hx⟩ := (hfound x).mp hx
    exact (hS.linked.of_finds (Or.inl hset)).1.datatype hx
  have hmem : id' ∈ ValueSet.ofList found := by
    rw [(ValueSet.ofList_spec htypes).1, hfound]
    unfold Snapshot.idsAt at hlisted
    split at hlisted
    · next set hset => exact ⟨set, hset, hlisted⟩
    · exact absurd hlisted List.not_mem_nil
  cases update with
  | false =>
      have hempty : ValueSet.ofList found = [] := hremaining
      rw [hempty] at hmem
      exact absurd hmem List.not_mem_nil
  | true =>
      refine ⟨rfl, ?_⟩
      by_contra hne
      have hleft := (ValueSet.mem_remove (ValueSet.ofList_spec htypes).2 htype).mpr ⟨hmem, hne⟩
      have hempty : ValueSet.remove id (ValueSet.ofList found) = [] := hremaining
      rw [hempty] at hleft
      exact absurd hleft List.not_mem_nil

/-- One row more, with values of its own. -/
theorem UniqueRows.wrote {exact : Value → Prop} (h : UniqueRows S)
    (htable : S (.table table.name) = some (.table table))
    (hw : Wrote exact table (Function.update (S.rowAt table.name) id (some row)) S S')
    (hfresh : ∀ {c : ℕ} {column : Column} {v id' : Value} {row' : Row}, table.Distinct →
      (c, column) ∈ table.indexes → column.unique = true → c ≠ table.primaryKey → v.Defined →
      row[c]? = some v → S.rowAt table.name id' = some row' → row'[c]? = some v → id' = id) :
    UniqueRows S' := by
  intro table' c column htable' hdistinct hindex hunique hc v hv id₁ id₂ row₁ row₂ h₁ h₂ hv₁ hv₂
  rw [hw.table_eq] at htable'
  by_cases hname : table'.name = table.name
  · rw [hname, htable] at htable'
    obtain rfl := Datum.table.inj (Option.some.inj htable')
    rw [hw.rows, Function.update_apply] at h₁ h₂
    split_ifs at h₁ h₂ with hid₁ hid₂ hid₂
    · rw [hid₁, hid₂]
    · obtain rfl := Option.some.inj h₁
      rw [hid₁, hfresh hdistinct hindex hunique hc hv hv₁ h₂ hv₂]
    · obtain rfl := Option.some.inj h₂
      rw [hid₂, hfresh hdistinct hindex hunique hc hv hv₂ h₁ hv₁]
    · exact h htable hdistinct hindex hunique hc hv h₁ h₂ hv₁ hv₂
  · have hrows : S'.rowAt table'.name = S.rowAt table'.name := by
      funext id'
      rw [Snapshot.rowAt, hw.frame (.row table'.name id') (Or.inl hname), Snapshot.rowAt]
    rw [hrows] at h₁ h₂
    exact h htable' hdistinct hindex hunique hc hv h₁ h₂ hv₁ hv₂

end Unclaimed

theorem keepsRows_unique : KeepsRows Value.Defined (fun _ _ => True) UniqueRows := by
  constructor
  · intro S S' table ids _ hS _ _ _ hw table' c column htable' hdistinct hindex hunique hc v hv
      id₁ id₂ row₁ row₂ h₁ h₂
    have hfewer : ∀ {id row}, S'.rowAt table'.name id = some row →
        S.rowAt table'.name id = some row := by
      intro id row hrow
      by_cases hname : table'.name = table.name
      · rw [hname, hw.rows] at hrow
        unfold without at hrow
        split_ifs at hrow
        rw [hname, hrow]
      · rwa [Snapshot.rowAt, hw.frame (.row table'.name id) (Or.inl hname)] at hrow
    rw [hw.table_eq] at htable'
    exact hS htable' hdistinct hindex hunique hc hv (hfewer h₁) (hfewer h₂)
  · intro S S' table id row hwhole hS htable hvalid hw
    refine hS.wrote htable hw ?_
    intro c column v id' row' hdistinct hindex hunique hc hv hvalue hrow' hvalue'
    rw [Row.getElem?_stored] at hvalue
    obtain ⟨value, hraw, rfl⟩ := Option.map_eq_some_iff.mp hvalue
    have hchecked := hvalid.columns (Table.mem_indexes.mp hindex).1 hraw
    have htype : id.datatype = table.keyType := by
      rw [← Value.datatype_stored, hvalid.fits.datatype]
    have hself := (hchecked.unique hunique hc (by rwa [← Value.isUndefined_stored])).eq_of_row
      (hwhole.present htable).2 hdistinct hindex hv htype hrow' hvalue'
    cases hself.1
  · intro S S' table id key row hwhole hS htable hvalid hfits hw
    refine hS.wrote htable hw ?_
    intro c column v id' row' hdistinct hindex hunique hc hv hvalue hrow' hvalue'
    rw [Row.getElem?_stored] at hvalue
    obtain ⟨value, hraw, rfl⟩ := Option.map_eq_some_iff.mp hvalue
    have hchecked := hvalid.columns (Table.mem_indexes.mp hindex).1 hraw
    have htype : key.datatype = table.keyType := by
      rw [← Value.datatype_stored, hvalid.fits.datatype]
    obtain ⟨-, rfl⟩ := (hchecked.unique hunique hc (by rwa [← Value.isUndefined_stored])).eq_of_row
      (hwhole.present htable).2 hdistinct hindex hv htype hrow' hvalue'
    have hstored : id'.stored = id' := by
      obtain ⟨_, -, hfits'⟩ := (hwhole.present htable).2.row (Snapshot.rowAt_eq_some.mp hrow')
      exact hfits'.id_stored
    have hkey := hfits.key
    rw [Row.getElem?_stored, hvalid.key, Option.map_some, hstored] at hkey
    exact Option.some.inj hkey

/-- Two rows with one value stand in one index entry, which one transaction wrote last. -/
theorem UniqueRows.merge {tables : String → Option Datum} {C S : Snapshot}
    {W : Key → Option (Option Datum)} (hC : Good Value.Defined UniqueRows tables C)
    (hW : Good Value.Defined UniqueRows tables (overlay S W))
    (hwhole : Whole Value.Defined (overlay C W)) : UniqueRows (overlay C W) := by
  intro table c column htable hdistinct hindex hunique hc v hv id₁ id₂ row₁ row₂ h₁ h₂ hv₁ hv₂
  have htables : tables table.name = some (.table table) := by
    by_cases hwritten : (W (.table table.name)).isSome = true
    · rw [← hW.tables, ← htable, overlay_of_written hwritten (T := C)]
    · rw [← hC.tables, ← htable, overlay_of_not_written hwritten]
  have hlinked := (hwhole.present htable).2.linked.mem hdistinct hindex hv
  have hlisted₁ := (hlinked id₁).mpr ⟨row₁, h₁, hv₁⟩
  have hlisted₂ := (hlinked id₂).mpr ⟨row₂, h₂, hv₂⟩
  -- the state that the index entry comes from
  have hentry : ∀ T : Snapshot, Good Value.Defined UniqueRows tables T →
      T (.index table.name column.name v) = overlay C W (.index table.name column.name v) →
      id₁ = id₂ := by
    intro T hT heq
    have hpresent := (hT.tables table.name).trans htables
    have hlinked := (hT.whole.present hpresent).2.linked.mem hdistinct hindex hv
    have hids : T.idsAt table.name column.name v =
        Snapshot.idsAt (overlay C W) table.name column.name v := by
      rw [Snapshot.idsAt, heq, Snapshot.idsAt]
    rw [← hids] at hlisted₁ hlisted₂
    obtain ⟨row, hrow, hvalue⟩ := (hlinked id₁).mp hlisted₁
    obtain ⟨row', hrow', hvalue'⟩ := (hlinked id₂).mp hlisted₂
    exact hT.holds hpresent hdistinct hindex hunique hc hv hrow hrow' hvalue hvalue'
  by_cases hwritten : (W (.index table.name column.name v)).isSome = true
  · exact hentry _ hW (overlay_of_written hwritten)
  · exact hentry _ hC (overlay_of_not_written hwritten).symm

end ToyDB.Sql
