import ToyDB.Sql.Engine.Concurrency

/-!
# Referential integrity

A referencing value names a row of the referenced table. Insertions check that it does, and
deletions that nothing else references the deleted rows. Writers of the referencing and of
the referenced table do not conflict, so one of them must not commit while the other one is
at work.
-/
namespace ToyDB.Sql
open ToyDB.Collections ToyDB.Mvcc ToyDB.Mvcc.Script

/-- Column `i` of the table references a table. -/
def Table.References (table : Table) (i : ℕ) (target : String) : Prop :=
  ∃ column, table.columns[i]? = some column ∧ column.references = some target

/-- Referencing columns are indexed, those that reference their own table have the type of its
primary key, and a value in one of them names a row. -/
structure Referential (S : Snapshot) : Prop where
  indexed {t : String} {source : Table} {i : ℕ} {column : Column} :
    S (.table t) = some (.table source) → source.columns[i]? = some column →
    column.references.isSome = true → column.index = true ∨ i = source.primaryKey
  selfTyped {t : String} {source : Table} {i : ℕ} {column : Column} :
    S (.table t) = some (.table source) → source.columns[i]? = some column →
    column.references = some source.name → source.keyType = some column.datatype
  names {source : Table} {i : ℕ} {target : String} {id v : Value} {row : Row} :
    S (.table source.name) = some (.table source) → source.Distinct → source.References i target →
    S.rowAt source.name id = some row → row[i]? = some v → v ≠ .null →
    (S.rowAt target v).isSome = true

theorem referential_empty : Referential fun _ => none := by
  refine ⟨?_, ?_, ?_⟩
  · intro t source i column h
    cases h
  · intro t source i column h
    cases h
  · intro source i target id v row h
    cases h

theorem mem_referencesTo {table : Table} {i : ℕ} {target : String} :
    i ∈ table.referencesTo target ↔ table.References i target := by
  rw [Table.referencesTo, List.mem_filter, List.mem_range, Table.References]
  constructor
  · rintro ⟨hlt, hany⟩
    rw [List.getElem?_eq_getElem hlt, Option.any_some, decide_eq_true_eq] at hany
    exact ⟨_, List.getElem?_eq_getElem hlt, hany⟩
  · rintro ⟨column, hcolumn, hreferences⟩
    refine ⟨(List.getElem?_eq_some_iff.mp hcolumn).1, ?_⟩
    rw [hcolumn, Option.any_some, hreferences, decide_eq_true_eq]

/-- Removing several values from a set. -/
theorem ValueSet.mem_foldl_remove {t : Option DataType} {ids : List Value} {x : Value}
    (hids : ∀ id ∈ ids, id.datatype = t) {set : ValueSet} (hset : ValueSet.Uniform t set) :
    x ∈ ids.foldl (fun set id => ValueSet.remove id set) set ↔ x ∈ set ∧ x ∉ ids := by
  induction ids generalizing set with
  | nil => simp
  | cons id ids ih =>
      obtain ⟨hid, hids⟩ := List.forall_mem_cons.mp hids
      rw [List.foldl_cons, ih hids hset.remove, ValueSet.mem_remove hset hid, List.mem_cons]
      tauto

section Rows
variable {S S' : Snapshot} {table source : Table} {rows : Value → Option Row} {i : ℕ}
  {id v : Value} {row : Row} {ids : List Value}

theorem Wrote.rowAt_of_ne {exact : Value → Prop} (hw : Wrote exact table rows S S') {t : String}
    (ht : t ≠ table.name) : S'.rowAt t = S.rowAt t := by
  funext id
  rw [Snapshot.rowAt, hw.frame (.row t id) (Or.inl ht), Snapshot.rowAt]

theorem Housed.fits {exact : Value → Prop} (h : Housed exact S table)
    (hrow : S.rowAt table.name id = some row) : table.Fits id row := by
  obtain ⟨_, hdatum, hfits⟩ := h.row (Snapshot.rowAt_eq_some.mp hrow)
  obtain rfl := Datum.row.inj hdatum
  exact hfits

/-- The rows that a table name stands for are those of its schema. -/
theorem Whole.fits {exact : Value → Prop} (h : Whole exact S) {t : String}
    (hrow : (S.rowAt t id).isSome = true) : ∃ table row, S (.table t) = some (.table table) ∧
      table.name = t ∧ S.rowAt t id = some row ∧ table.Fits id row := by
  obtain ⟨row, hrow⟩ := Option.isSome_iff_exists.mp hrow
  cases h t with
  | absent h =>
      rw [Snapshot.rowAt, h _ rfl] at hrow
      cases hrow
  | present table hname htable h =>
      subst hname
      exact ⟨table, row, htable, rfl, hrow, h.fits hrow⟩

/-- A row that references a row finds it by the value that is stored. -/
theorem Whole.stored_of_isSome {exact : Value → Prop} (h : Whole exact S) {t : String}
    (hrow : (S.rowAt t id).isSome = true) : id.stored = id ∧ id.Defined := by
  obtain ⟨table, row, -, -, -, hfits⟩ := h.fits hrow
  exact ⟨hfits.id_stored, hfits.defined⟩

/-- What is left of the rows that reference deleted ones. -/
theorem mem_remaining {keys : List Value} {x : Value} (hx : x ∈ keys)
    (hkeys : ∀ k ∈ keys, k.datatype = source.keyType)
    (hids : source.name = table.name → ∀ id ∈ ids, id.datatype = source.keyType)
    (hkept : source.name = table.name → x ∉ ids) : x ∈ remaining table ids source keys := by
  obtain ⟨hmem, huniform⟩ := ValueSet.ofList_spec hkeys
  unfold remaining
  split_ifs with hname
  · rw [ValueSet.mem_foldl_remove (hids hname) huniform, hmem]
    exact ⟨hx, hkept hname⟩
  · exact (hmem x).mpr hx

/-- No row that stays references a deleted one. -/
theorem Unreferenced.not_mem (h : Unreferenced S table ids) (hwhole : Whole Value.Defined S)
    (hS : Referential S) (htable : S (.table table.name) = some (.table table))
    (hsource : S (.table source.name) = some (.table source)) (hdistinct : source.Distinct)
    (hids : ∀ id ∈ ids, id.datatype = table.keyType) (hreferences : source.References i table.name)
    (hrow : S.rowAt source.name id = some row) (hv : row[i]? = some v) (hnull : v ≠ .null)
    (hkept : source.name = table.name → id ∉ ids) : v ∉ ids := by
  intro hdeleted
  obtain ⟨keys, hkeys, hempty⟩ := h source.name source hsource i (mem_referencesTo.mpr hreferences)
  have hhoused := (hwhole.present hsource).2
  have hfits := hhoused.fits hrow
  have htypes : source.name = table.name → ∀ id ∈ ids, id.datatype = source.keyType := by
    intro hname
    obtain rfl : source = table := by
      rw [hname, htable] at hsource
      exact (Datum.table.inj (Option.some.inj hsource)).symm
    exact hids
  by_cases hkey : i = source.primaryKey
  · obtain rfl : id = v := by
      rw [hkey, hfits.key] at hv
      exact Option.some.inj hv
    have hmem : id ∈ keys := by
      refine (hkeys.key hkey id).mpr ⟨row, hv, id, hdeleted, ?_⟩
      rw [Key.ofRow, hfits.id_stored]
      exact Snapshot.rowAt_eq_some.mp hrow
    have hdatatype : ∀ k ∈ keys, k.datatype = source.keyType := by
      intro k hk
      obtain ⟨row', hk, id', -, hrow'⟩ := (hkeys.key hkey k).mp hk
      have hfits' := hhoused.fits (Snapshot.rowAt_eq_some.mpr hrow')
      rw [hkey, hfits'.key] at hk
      rw [← Option.some.inj hk]
      exact hfits'.datatype
    have hleft := mem_remaining hmem hdatatype htypes hkept
    rw [hempty] at hleft
    exact List.not_mem_nil hleft
  · obtain ⟨column, hcolumn, hfound⟩ := hkeys.index hkey
    obtain ⟨column', hcolumn', hreference⟩ := hreferences
    obtain rfl := Option.some.inj (hcolumn.symm.trans hcolumn')
    have hindex : column.index = true :=
      (hS.indexed hsource hcolumn (by rw [hreference]; rfl)).resolve_right hkey
    obtain ⟨-, hdefined⟩ := hwhole.stored_of_isSome
      (hS.names hsource hdistinct ⟨column, hcolumn, hreference⟩ hrow hv hnull)
    have hlisted := (hhoused.linked.mem hdistinct (Table.mem_indexes.mpr ⟨hcolumn, hindex⟩)
      hdefined id).mpr ⟨row, hrow, hv⟩
    have hmem : id ∈ keys := by
      unfold Snapshot.idsAt at hlisted
      split at hlisted
      · next set hset =>
          refine (hfound id).mpr ⟨v, hdeleted, set, ?_, hlisted⟩
          rw [Key.ofIndex, hfits.value_stored hv]
          exact hset
      · exact absurd hlisted List.not_mem_nil
    have hdatatype : ∀ k ∈ keys, k.datatype = source.keyType := by
      intro k hk
      obtain ⟨id', -, set, hset, hk⟩ := (hfound k).mp hk
      exact (hhoused.linked.of_finds (Or.inl hset)).1.datatype hk
    have hleft := mem_remaining hmem hdatatype htypes hkept
    rw [hempty] at hleft
    exact List.not_mem_nil hleft

/-- Rows that stay are still there to be referenced. -/
theorem Wrote.isSome {exact : Value → Prop}
    (hw : Wrote exact table (Function.update (S.rowAt table.name) id (some row)) S S') {t : String}
    (hrow : (S.rowAt t v).isSome = true) : (S'.rowAt t v).isSome = true := by
  by_cases ht : t = table.name
  · rw [ht, hw.rows, Function.update_apply]
    split_ifs
    · rfl
    · exact ht ▸ hrow
  · rwa [hw.rowAt_of_ne ht]

/-- A reference of a new row. -/
theorem Validated.names {update : Bool} {key value : Value} {column : Column} {target : String}
    (hvalid : Validated S table update key row) (hS : Referential S)
    (htable : S (.table table.name) = some (.table table)) (hcolumn : table.columns[i]? = some column)
    (hreference : column.references = some target) (hvalue : row[i]? = some value)
    (hnull : value.stored ≠ .null) :
    target = table.name ∧ value.stored = key.stored ∨ (S.rowAt target value.stored).isSome = true := by
  have hchecked := hvalid.columns hcolumn hvalue
  obtain rfl | ⟨rfl, heq⟩ | ⟨row', hrow'⟩ := hchecked.reference hreference
  · exact absurd rfl hnull
  · refine Or.inl ⟨rfl, ?_⟩
    obtain ⟨keyColumn, hkeyColumn⟩ : ∃ c, table.columns[table.primaryKey]? = some c := by
      have hlt := (List.getElem?_eq_some_iff.mp hvalid.key).1
      exact ⟨_, List.getElem?_eq_getElem (hvalid.length ▸ hlt)⟩
    have hkey : keyColumn.Admits key := (hvalid.columns hkeyColumn hvalid.key).admits
    have hsame : column.datatype = keyColumn.datatype := by
      have htyped := hS.selfTyped htable hcolumn hreference
      rw [Table.keyType, hkeyColumn] at htyped
      exact (Option.some.inj htyped).symm
    have hadmits : keyColumn.Admits value := by
      constructor
      · exact fun ht => (hchecked.admits.datatype ht).trans hsame
      · rintro rfl
        exact absurd rfl hnull
    have htypes := hadmits.datatype_eq hkey heq
    refine Value.stored_of_eq heq htypes ?_
    rw [Value.isUndefined_of_eq heq htypes, hvalid.defined]
  · exact Or.inr (Option.isSome_iff_exists.mpr ⟨row', Snapshot.rowAt_eq_some.mpr hrow'⟩)

/-- A validated row is written. -/
theorem Referential.wrote {exact : Value → Prop} {update : Bool} {key : Value} (hS : Referential S)
    (htable : S (.table table.name) = some (.table table))
    (hvalid : Validated S table update key row) (hid : key.stored = id)
    (hw : Wrote exact table (Function.update (S.rowAt table.name) id (some row.stored)) S S') :
    Referential S' := by
  constructor
  · intro t source i column hsource
    rw [hw.table_eq] at hsource
    exact hS.indexed hsource
  · intro t source i column hsource
    rw [hw.table_eq] at hsource
    exact hS.selfTyped hsource
  · intro source i target id' v row' hsource hdistinct hreferences hrow' hv hnull
    rw [hw.table_eq] at hsource
    have hold : S.rowAt source.name id' = some row' → (S'.rowAt target v).isSome = true :=
      fun hrow' => hw.isSome (hS.names hsource hdistinct hreferences hrow' hv hnull)
    by_cases hname : source.name = table.name
    · obtain rfl : source = table := by
        rw [hname, htable] at hsource
        exact (Datum.table.inj (Option.some.inj hsource)).symm
      have hupdated := hrow'
      rw [hw.rows, Function.update_apply] at hupdated
      split_ifs at hupdated with hself
      · obtain rfl := Option.some.inj hupdated
        rw [Row.getElem?_stored] at hv
        obtain ⟨value, hvalue, rfl⟩ := Option.map_eq_some_iff.mp hv
        obtain ⟨column, hcolumn, hreference⟩ := hreferences
        obtain ⟨rfl, heq⟩ | hsome :=
          hvalid.names hS htable hcolumn hreference hvalue hnull
        · rw [heq, hid, ← hself, hrow']
          rfl
        · exact hw.isSome hsome
      · exact hold hupdated
    · exact hold (by rwa [hw.rowAt_of_ne hname] at hrow')

end Rows

theorem keepsRows_referential : KeepsRows Value.Defined
    (fun table id => id.datatype = table.keyType) Referential := by
  constructor
  · intro S S' table ids hwhole hS htable hids hunreferenced hw
    constructor
    · intro t source i column hsource
      rw [hw.table_eq] at hsource
      exact hS.indexed hsource
    · intro t source i column hsource
      rw [hw.table_eq] at hsource
      exact hS.selfTyped hsource
    · intro source i target id v row hsource hdistinct hreferences hrow hv hnull
      rw [hw.table_eq] at hsource
      obtain ⟨hkept, hold⟩ : (source.name = table.name → id ∉ ids) ∧
          S.rowAt source.name id = some row := by
        by_cases hname : source.name = table.name
        · rw [hname, hw.rows] at hrow
          unfold without at hrow
          split_ifs at hrow with hid
          exact ⟨fun _ => hid, hname ▸ hrow⟩
        · rw [hw.rowAt_of_ne hname] at hrow
          exact ⟨fun h => absurd h hname, hrow⟩
      have htarget := hS.names hsource hdistinct hreferences hold hv hnull
      by_cases hname : target = table.name
      · subst hname
        have hstays := hunreferenced.not_mem hwhole hS htable hsource hdistinct hids hreferences
          hold hv hnull hkept
        rw [hw.rows]
        unfold without
        rwa [if_neg hstays]
      · rwa [hw.rowAt_of_ne hname]
  · intro S S' table id row _ hS htable hvalid hw
    exact hS.wrote htable hvalid rfl hw
  · intro S S' table id key row _ hS htable hvalid hfits hw
    refine hS.wrote htable hvalid ?_ hw
    have hkey := hfits.key
    rw [Row.getElem?_stored, hvalid.key, Option.map_some] at hkey
    exact Option.some.inj hkey

section Tables
variable {S S' : Snapshot} {table : Table}

theorem getElem?_stored_columns {i : ℕ} {column : Column}
    (h : table.stored.columns[i]? = some column) : ∃ column', table.columns[i]? = some column' ∧
      column.references = column'.references ∧ column.index = column'.index ∧
      column.datatype = column'.datatype := by
  rw [Table.stored, List.getElem?_map] at h
  obtain ⟨column', hcolumn', rfl⟩ := Option.map_eq_some_iff.mp h
  exact ⟨column', hcolumn', rfl, rfl, rfl⟩

theorem keyType_stored : table.stored.keyType = table.keyType := by
  simp only [Table.keyType, Table.stored, List.getElem?_map, Option.map_map]
  rfl

end Tables

theorem keepsTables_referential {exact : Value → Prop} : KeepsTables exact Referential := by
  constructor
  · intro S S' table hwhole hS hnone haccepted hS'
    have hrows : ∀ t, S'.rowAt t = S.rowAt t := by
      intro t
      funext id
      rw [Snapshot.rowAt, hS', Function.update_of_ne (by simp), Snapshot.rowAt]
    have hother : ∀ t source, S' (.table t) = some (.table source) →
        t = table.name ∧ source = table.stored ∨ S (.table t) = some (.table source) := by
      intro t source hsource
      rw [hS', Function.update_apply] at hsource
      split_ifs at hsource with ht
      · exact Or.inl ⟨Key.table.inj ht, (Datum.table.inj (Option.some.inj hsource)).symm⟩
      · exact Or.inr hsource
    constructor
    · intro t source i column hsource hcolumn hreference
      obtain ⟨-, rfl⟩ | hold := hother t source hsource
      · obtain ⟨column', hcolumn', hreferences, hindex, -⟩ := getElem?_stored_columns hcolumn
        rw [hreferences] at hreference
        obtain ⟨reference, hreference⟩ := Option.isSome_iff_exists.mp hreference
        rw [hindex]
        exact (haccepted.columns hcolumn').index hreference
      · exact hS.indexed hold hcolumn hreference
    · intro t source i column hsource hcolumn hreference
      obtain ⟨-, rfl⟩ | hold := hother t source hsource
      · obtain ⟨column', hcolumn', hreferences, -, hdatatype⟩ := getElem?_stored_columns hcolumn
        rw [hreferences] at hreference
        obtain ⟨target, htarget, htype⟩ := (haccepted.columns hcolumn').reference hreference
        obtain ⟨rfl, -⟩ | ⟨hne, -⟩ := htarget
        · rw [keyType_stored, hdatatype]
          exact htype
        · exact absurd rfl hne
      · exact hS.selfTyped hold hcolumn hreference
    · intro source i target id v row hsource hdistinct hreferences hrow hv hnull
      rw [hrows] at hrow ⊢
      obtain ⟨hname, rfl⟩ | hold := hother _ source hsource
      · obtain ⟨found, -, hfound, -⟩ := hwhole.fits (Option.isSome_iff_exists.mpr ⟨row, hrow⟩)
        rw [hname, hnone] at hfound
        cases hfound
      · exact hS.names hold hdistinct hreferences hrow hv hnull
  · intro S S' table hwhole hS htable hreferences hS'
    have hkept : ∀ key datum, S' key = some datum → key.owner ≠ table.name ∧ S key = some datum := by
      intro key datum hget
      rw [hS'] at hget
      dsimp only at hget
      split_ifs at hget with hname
      exact ⟨hname, hget⟩
    constructor
    · intro t source i column hsource
      exact hS.indexed (hkept _ _ hsource).2
    · intro t source i column hsource
      exact hS.selfTyped (hkept _ _ hsource).2
    · intro source i target id v row hsource hdistinct hreference hrow hv hnull
      obtain ⟨hname, hsource⟩ := hkept _ _ hsource
      obtain ⟨-, hrow⟩ := hkept _ _ (Snapshot.rowAt_eq_some.mp hrow)
      have htarget : target ≠ table.name := by
        rintro rfl
        have hmem := mem_referencesTo.mpr hreference
        rw [hreferences source.name source hsource hname] at hmem
        exact List.not_mem_nil hmem
      have hnamed := hS.names hsource hdistinct hreference (Snapshot.rowAt_eq_some.mpr hrow) hv hnull
      have hentry : S' (.row target v) = S (.row target v) := by
        rw [hS']
        exact if_neg htarget
      rwa [Snapshot.rowAt, hentry]

/-! ## Concurrency -/

/-- A table that the snapshot sees references a table. -/
def Snapshot.Refers (S : Snapshot) (t target : String) : Prop :=
  ∃ source i, S (.table t) = some (.table source) ∧ source.References i target

/-- While the transaction was at work, nobody changed a table that references, or is
referenced by, one that it wrote to. -/
def Apart (C S : Snapshot) (W : Key → Option (Option Datum)) : Prop :=
  ∀ key : Key, (W key).isSome = true → ∀ t,
    Snapshot.Refers (overlay C W) key.owner t ∨ Snapshot.Refers (overlay C W) t key.owner →
      ∀ key' : Key, key'.owner = t → C key' = S key'

section Merge
variable {C S : Snapshot} {W : Key → Option (Option Datum)}

/-- The schema that the transaction leaves, or the one that it found. -/
theorem Compatible.schema_cases (hc : Compatible C S W) (t : String) :
    (overlay C W (.table t) = overlay S W (.table t) ∧ ∀ key : Key, key.owner = t → C key = S key) ∨
      overlay C W (.table t) = C (.table t) := by
  by_cases hwritten : (W (.table t)).isSome = true
  · by_cases hsame : overlay S W (.table t) = S (.table t)
    · refine Or.inr ?_
      rw [overlay_of_written hwritten (T := S), hsame]
      exact (hc.schema _ hwritten).symm
    · exact Or.inl ⟨overlay_of_written hwritten, hc.rows t hsame⟩
  · exact Or.inr (overlay_of_not_written hwritten)

theorem Referential.merge (hC : Referential C) (hW : Referential (overlay S W))
    (hc : Compatible C S W) (hapart : Apart C S W) : Referential (overlay C W) := by
  have hschema : ∀ {t : String} {source : Table},
      overlay C W (.table t) = some (.table source) →
      overlay S W (.table t) = some (.table source) ∨ C (.table t) = some (.table source) := by
    intro t source hsource
    obtain ⟨heq, -⟩ | heq := hc.schema_cases t
    · exact Or.inl (heq ▸ hsource)
    · exact Or.inr (heq ▸ hsource)
  constructor
  · intro t source i column hsource
    exact (hschema hsource).elim hW.indexed hC.indexed
  · intro t source i column hsource
    exact (hschema hsource).elim hW.selfTyped hC.selfTyped
  · intro source i target id v row hsource hdistinct hreferences hrow hv hnull
    have hrefers : Snapshot.Refers (overlay C W) source.name target := ⟨source, i, hsource, hreferences⟩
    have hget := Snapshot.rowAt_eq_some.mp hrow
    -- what the transaction sees of the target is what is committed
    have hseen : overlay S W (.table source.name) = some (.table source) →
        overlay S W (.row source.name id) = some (.row row) →
        ((W (.row target v)).isSome ≠ true → C (.row target v) = S (.row target v)) →
        (Snapshot.rowAt (overlay C W) target v).isSome = true := by
      intro hsource hrow hsame
      have hnamed := hW.names hsource hdistinct hreferences (Snapshot.rowAt_eq_some.mpr hrow) hv hnull
      have hentry : overlay C W (.row target v) = overlay S W (.row target v) := by
        by_cases hwritten : (W (.row target v)).isSome = true
        · exact overlay_of_written hwritten
        · rw [overlay_of_not_written hwritten, overlay_of_not_written hwritten, hsame hwritten]
      rwa [Snapshot.rowAt, hentry]
    -- a schema that is not written is the committed one
    have hfound : ∀ {key : Key}, key.owner = source.name →
        (∀ key' : Key, key'.owner = source.name → C key' = S key') →
        overlay C W key = overlay S W key := by
      intro key hkey hsame
      by_cases hwritten : (W key).isSome = true
      · exact overlay_of_written hwritten
      · rw [overlay_of_not_written hwritten, overlay_of_not_written hwritten, hsame key hkey]
    by_cases hown : (W (.row source.name id)).isSome = true
    · refine hseen ?_ ((overlay_of_written hown).symm.trans hget) fun _ =>
        hapart _ hown target (Or.inl hrefers) _ rfl
      by_cases hwritten : (W (.table source.name)).isSome = true
      · exact (overlay_of_written hwritten).symm.trans hsource
      · rw [overlay_of_not_written hwritten] at hsource
        rw [overlay_of_not_written hwritten, ← hsource]
        exact (hc.schema _ hown).symm
    · obtain ⟨heq, hsame⟩ | heq := hc.schema_cases source.name
      · by_cases hwritten : (W (.table source.name)).isSome = true
        · exact hseen (heq ▸ hsource) ((hfound rfl hsame).symm.trans hget) fun _ =>
            hapart _ hwritten target (Or.inl hrefers) _ rfl
        · by_cases htarget : (W (.row target v)).isSome = true
          · exact hseen (heq ▸ hsource) ((hfound rfl hsame).symm.trans hget) fun h => absurd htarget h
          · rw [overlay_of_not_written hwritten] at hsource
            rw [overlay_of_not_written hown] at hget
            have hnamed := hC.names hsource hdistinct hreferences
              (Snapshot.rowAt_eq_some.mpr hget) hv hnull
            rwa [Snapshot.rowAt, overlay_of_not_written htarget]
      · by_cases htarget : (W (.row target v)).isSome = true
        · have hsame := hapart _ htarget source.name (Or.inr hrefers)
          exact hseen ((hfound rfl hsame).symm.trans hsource) ((hfound rfl hsame).symm.trans hget)
            fun h => absurd htarget h
        · rw [overlay_of_not_written hown] at hget
          have hnamed := hC.names (heq ▸ hsource) hdistinct hreferences
            (Snapshot.rowAt_eq_some.mpr hget) hv hnull
          rwa [Snapshot.rowAt, overlay_of_not_written htarget]

end Merge

/-- The listed primary keys have the type of the table's. -/
abbrev KeyTyped (table : Table) (id : Value) : Prop := id.datatype = table.keyType

/-- Sessions whose statements list primary keys of the table's type, and whose commits race
with no changes of related tables. -/
abbrev relatedMoves := (tableIntegrity Value.Defined KeyTyped Referential Apart).Permits

theorem relatedMoves_lawful :
    (tableIntegrity Value.Defined KeyTyped Referential Apart).Lawful :=
  tableIntegrity_lawful keepsRows_referential keepsTables_referential
    fun _ hC _ _ hW hc hapart => hC.merge hW hc hapart

/-- What every idle transaction with no failed statement sees is intact, and references of rows
name rows. -/
theorem referential_of_idle {s : Sessions Key Datum} {i : ℕ} {handle : Handle Key Datum}
    (h : Sessions.Reachable relatedMoves Sessions.empty s)
    (hi : s.store.handles[i]? = some handle) (hidle : s.phases[i]? = some (.idle false)) :
    Whole Value.Defined (handle.state.viewMap s.store.engine).get ∧
      Referential (handle.state.viewMap s.store.engine).get :=
  holds_of_idle relatedMoves_lawful referential_empty h hi hidle

/-- A schema with a column that references its own table. -/
def people : Table where
  name := "people"
  primaryKey := 0
  columns := [⟨"id", .integer, false, none, true, false, none⟩,
    ⟨"boss", .integer, true, some .null, false, true, some "people"⟩]

def hire (id boss : Int64) : Script Key Datum Unit :=
  (Operation.insert "people" [[.integer id, .integer boss]]).script

/-- A transaction creates the table and inserts a row that references itself. -/
def founding : List (Move Key Datum) :=
  [.begin, .start 0 (Operation.createTable people).script] ++ List.replicate 3 (.advance 0) ++
    [.start 0 (hire 1 1)] ++ List.replicate 6 (.advance 0)

/-- Two transactions insert rows at the same time. -/
def hiring : List (Move Key Datum) :=
  [.begin, .begin, .start 1 (hire 2 1), .start 2 (hire 3 3)] ++
    (List.replicate 6 [.advance 1, .advance 2]).flatten ++ [.advance 1]

/-- The first of them commits while the second one is open, and a new one begins. -/
def hired : Option (Sessions Key Datum) :=
  Sessions.empty.run (founding ++ (.commit 0 :: hiring) ++ [.commit 1, .begin])

theorem founding_permitted : ∀ move ∈ founding, ∀ s, relatedMoves s move := by
  intro move hmove s
  simp only [founding, List.mem_append, List.mem_cons, List.mem_replicate, List.not_mem_nil,
    or_false] at hmove
  obtain (((rfl | rfl) | ⟨-, rfl⟩) | rfl) | ⟨-, rfl⟩ := hmove
  · trivial
  · exact fun handle _ => ⟨_, rfl, trivial, trivial⟩
  · trivial
  · exact fun handle _ => ⟨_, rfl, trivial, trivial⟩
  · trivial

theorem hiring_permitted : ∀ move ∈ hiring, ∀ s, relatedMoves s move := by
  intro move hmove s
  simp only [hiring, List.mem_append, List.mem_flatten, List.mem_cons, List.mem_replicate,
    List.not_mem_nil, or_false] at hmove
  obtain ((rfl | rfl | rfl | rfl) | ⟨_, ⟨-, rfl⟩, hmove⟩) | rfl := hmove
  · trivial
  · trivial
  · exact fun handle _ => ⟨_, rfl, trivial, trivial⟩
  · exact fun handle _ => ⟨_, rfl, trivial, trivial⟩
  · simp only [List.mem_cons, List.not_mem_nil, or_false] at hmove
    obtain rfl | rfl := hmove <;> trivial
  · trivial

theorem hired_reachable {s : Sessions Key Datum} (h : hired = some s) :
    Sessions.Reachable relatedMoves Sessions.empty s := by
  have hself : ∀ S W, (tableIntegrity Value.Defined KeyTyped Referential Apart).Compatible S S W :=
    fun S W => ⟨⟨fun _ _ => rfl, fun _ _ _ _ => rfl⟩, fun _ _ _ _ _ _ => rfl⟩
  have hpermits : ∀ {s : Sessions Key Datum} {i n : ℕ},
      Sessions.Reachable relatedMoves Sessions.empty s → s.undisturbed i n = true →
      relatedMoves s (.commit i) := fun hs h => (relatedMoves_lawful.sound
    (Constraint.sound_empty ⟨whole_empty, referential_empty⟩) hs).permits_commit hself h
  have hquiet : (Sessions.empty.run founding).all (·.undisturbed 0 5) = true ∧
      (Sessions.empty.run (founding ++ (.commit 0 :: hiring))).all (·.undisturbed 1 6) = true := by
    constructor <;> decide +kernel
  -- up to the second commit
  obtain ⟨s₃, hrun₃, hlast⟩ := Sessions.run_append h
  obtain ⟨s₁, hfounded, hrest⟩ := Sessions.run_append hrun₃
  obtain ⟨s₂, hcommit, hhired⟩ := Option.bind_eq_some_iff.mp hrest
  obtain ⟨s₄, hcommit', hbegin⟩ := Option.bind_eq_some_iff.mp hlast
  have hreach₁ := Sessions.Reachable.start.run founding_permitted hfounded
  have hreach₂ := hreach₁.step
    (hpermits hreach₁ ((Option.all_eq_true _ _).mp hquiet.1 s₁ hfounded)) hcommit
  have hreach₃ := hreach₂.run hiring_permitted hhired
  have hreach₄ := hreach₃.step
    (hpermits hreach₃ ((Option.all_eq_true _ _).mp hquiet.2 s₃ hrun₃)) hcommit'
  have hnew : ∀ move ∈ [Move.begin], ∀ s, relatedMoves s move := by
    intro move hmove s
    obtain rfl := List.mem_singleton.mp hmove
    trivial
  exact hreach₄.run hnew hbegin

/-- The transaction that is still open sees its own row, and the new one sees the row that was
committed. -/
theorem referential_of_idle_hired : ∃ s later new, hired = some s ∧
    s.store.handles[2]? = some later ∧ s.store.handles[3]? = some new ∧
    (later.state.viewMap s.store.engine).get (.row "people" (.integer 3)) =
      some (.row [.integer 3, .integer 3]) ∧
    (new.state.viewMap s.store.engine).get (.row "people" (.integer 2)) =
      some (.row [.integer 2, .integer 1]) ∧
    Referential (later.state.viewMap s.store.engine).get ∧
    Referential (new.state.viewMap s.store.engine).get := by
  have hrun : (hired.bind fun s => (Sessions.seen s 2).bind fun db => (Sessions.seen s 3).map
      fun db' => (db.get (.row "people" (.integer 3)), db'.get (.row "people" (.integer 2)))) =
      some (some (.row [.integer 3, .integer 3]), some (.row [.integer 2, .integer 1])) := by
    decide +kernel
  obtain ⟨s, hs, h⟩ := Option.bind_eq_some_iff.mp hrun
  obtain ⟨db, hdb, h⟩ := Option.bind_eq_some_iff.mp h
  obtain ⟨db', hdb', h⟩ := Option.map_eq_some_iff.mp h
  obtain ⟨later, hi, hidle, rfl⟩ := Sessions.seen_spec hdb
  obtain ⟨new, hi', hidle', rfl⟩ := Sessions.seen_spec hdb'
  obtain ⟨hrow, hrow'⟩ := Prod.mk.inj h
  exact ⟨s, later, new, hs, hi, hi', hrow, hrow',
    (referential_of_idle (hired_reachable hs) hi hidle).2,
    (referential_of_idle (hired_reachable hs) hi' hidle').2⟩

end ToyDB.Sql
