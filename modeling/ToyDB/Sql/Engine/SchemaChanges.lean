import ToyDB.Sql.Engine.Preservation

/-!
# What schema changes preserve

A new table has no entries, and a dropped table leaves none behind, as far as the
transaction sees.
-/
namespace ToyDB.Sql
open ToyDB.Collections ToyDB.Mvcc ToyDB.Mvcc.Script

/-- What is checked of a column of a new table. -/
structure ColumnAccepted (S : Snapshot) (table : Table) (i : ℕ) (column : Column) : Prop where
  name : column.name ≠ ""
  key : i = table.primaryKey →
    column.nullable = false ∧ column.unique = true ∧ column.index = false
  optional : column.nullable = true → column.default.isSome = true
  default {value : Value} : column.default = some value → column.Admits value
  unique : column.unique = true → column.index = true ∨ i = table.primaryKey
  index {reference : String} : column.references = some reference →
    column.index = true ∨ i = table.primaryKey
  reference {reference : String} : column.references = some reference → ∃ target,
    (target = table ∧ reference = table.name ∨
      reference ≠ table.name ∧ S (.table reference) = some (.table target)) ∧
    target.keyType = some column.datatype

/-- What is checked of a new table. -/
structure Accepted (S : Snapshot) (table : Table) : Prop where
  name : table.name ≠ ""
  key : ∃ column, table.columns[table.primaryKey]? = some column
  columns {i : ℕ} {column : Column} : table.columns[i]? = some column →
    ColumnAccepted S table i column

namespace Local
variable {table : Table} {i : ℕ} {column : Column} {reference t : String} {S : Snapshot}
  {α : Type}

theorem reads_referencedType : Reads (referencedType table column reference) fun db datatype =>
    ∃ target, (target = table ∧ reference = table.name ∨
      reference ≠ table.name ∧ db.get (.table reference) = some (.table target)) ∧
    target.keyType = some datatype := by
  unfold referencedType
  by_cases hself : reference = table.name
  · rw [if_pos hself]
    refine reads_nth.bind fun c => reads_pure fun db hc => ⟨table, Or.inl ⟨rfl, hself⟩, ?_⟩
    rw [Table.keyType, hc]
    rfl
  · rw [if_neg hself]
    refine reads_getTable.bind fun target => ?_
    cases target with
    | none => exact reads_errinput
    | some target =>
        refine reads_nth.bind fun c => reads_pure fun db hc htarget => ?_
        refine ⟨target, Or.inr ⟨hself, htarget⟩, ?_⟩
        rw [Table.keyType, hc]
        rfl

theorem reads_validateDefault : Reads (validateDefault column) fun _ _ =>
    (column.nullable = true → column.default.isSome = true) ∧
      ∀ value, column.default = some value → column.Admits value := by
  unfold validateDefault
  cases hdefault : column.default with
  | none =>
      simp only [Option.map_none]
      split_ifs with hnullable
      · exact reads_errinput
      · exact reads_pure fun _ => ⟨fun h => absurd h hnullable, fun value h => nomatch h⟩
  | some value =>
      have hvalue : ∀ v, some value = some v → v = value := fun v h => (Option.some.inj h).symm
      cases htype : value.datatype with
      | none =>
          simp only [Option.map_some, htype]
          split_ifs with hnullable
          · refine reads_pure fun _ => ⟨fun _ => rfl, fun v hv => ?_⟩
            rw [hvalue v hv]
            exact ⟨fun ht => by simp [htype] at ht, fun _ => hnullable⟩
          · exact reads_errinput
      | some vtype =>
          simp only [Option.map_some, htype]
          split_ifs with hne
          · exact reads_errinput
          · refine reads_pure fun _ => ⟨fun _ => rfl, fun v hv => ?_⟩
            rw [hvalue v hv]
            refine ⟨fun ht => ?_, fun hnull => by simp [hnull, Value.datatype] at htype⟩
            rw [← Option.some.inj (htype.symm.trans ht)]
            exact not_not.mp hne

theorem reads_validateSchemaColumn : Reads (validateSchemaColumn table i column)
    fun db _ => ColumnAccepted db.get table i column := by
  unfold validateSchemaColumn
  extract_lets references unique index unique' key
  have hreferences : ∀ u, Reads (references u) fun db _ => ∀ reference,
      column.references = some reference → (column.index = true ∨ i = table.primaryKey) ∧ ∃ target,
        (target = table ∧ reference = table.name ∨
          reference ≠ table.name ∧ db.get (.table reference) = some (.table target)) ∧
        target.keyType = some column.datatype := by
    intro u
    unfold references
    split
    · next hnone => exact reads_pure fun _ reference h => by simp [hnone] at h
    · next reference hreference =>
        rw [hreference]
        extract_lets target
        have htarget : (column.index = true ∨ i = table.primaryKey) → Reads (target ())
            fun db _ => ∀ reference', some reference = some reference' →
              (column.index = true ∨ i = table.primaryKey) ∧ ∃ target,
                (target = table ∧ reference' = table.name ∨
                  reference' ≠ table.name ∧ db.get (.table reference') = some (.table target)) ∧
                target.keyType = some column.datatype := by
          intro hindex
          refine reads_referencedType.bind fun reftype => ?_
          split_ifs with hne
          · exact reads_errinput
          · refine reads_pure fun db h reference' heq => ⟨hindex, ?_⟩
            rw [← Option.some.inj heq, not_not.mp hne]
            exact h
        split_ifs with hindex
        · exact reads_errinput
        · exact htarget (by simpa [or_iff_not_imp_left] using hindex)
  have hunique : ∀ u, column.name ≠ "" → (i = table.primaryKey →
      column.nullable = false ∧ column.unique = true ∧ column.index = false) →
      Reads (unique u) fun db _ => ColumnAccepted db.get table i column := by
    intro u hname hkey
    refine reads_validateDefault.bind fun _ => ?_
    split_ifs with hindexed
    · exact reads_errinput
    · refine (hreferences ()).mono fun db _ h hdefault => ?_
      refine ⟨hname, hkey, hdefault.1, fun hv => hdefault.2 _ hv, fun hu => ?_,
        fun hr => (h _ hr).1, fun hr => (h _ hr).2⟩
      simp only [hu, Bool.true_and] at hindexed
      simpa [or_iff_not_imp_left] using hindexed
  split_ifs with hname
  · exact reads_errinput
  · unfold key
    split_ifs with hkey hnullable
    · exact reads_errinput
    · unfold unique'
      split_ifs with hnotUnique
      · exact reads_errinput
      · unfold index
        split_ifs with hindex
        · exact reads_errinput
        · refine hunique () hname fun _ => ⟨?_, ?_, ?_⟩
          · simpa using hnullable
          · simpa using hnotUnique
          · simpa using hindex
    · exact hunique () hname fun h => absurd h hkey

theorem reads_validate : Reads (Local.validate table) fun db _ => Accepted db.get table := by
  unfold Local.validate
  extract_lets columns key empty
  split_ifs with hname
  · exact reads_errinput
  · unfold empty
    split_ifs with hempty
    · exact reads_errinput
    · unfold key
      split_ifs with hkey
      · exact reads_errinput
      · refine (reads_forM (R := fun db b => ColumnAccepted db.get table b.2 b.1)
          fun b _ => reads_validateSchemaColumn).mono fun db _ h => ?_
        refine ⟨hname, Option.ne_none_iff_exists'.mp hkey, fun {i column} hcolumn => ?_⟩
        exact h (column, i) (List.mem_zipIdx_iff_getElem?.mpr hcolumn)

end Local

/-- A property that schema changes preserve. -/
structure KeepsTables (exact : Value → Prop) (I : Snapshot → Prop) : Prop where
  created {S S' : Snapshot} {table : Table} : Whole exact S → I S → S (.table table.name) = none →
    Accepted S table →
    S' = Function.update S (.table table.name) (some (.table table.stored)) → I S'
  dropped {S S' : Snapshot} {table : Table} : Whole exact S → I S →
    S (.table table.name) = some (.table table) →
    (∀ t source, S (.table t) = some (.table source) → source.name ≠ table.name →
      source.referencesTo table.name = []) →
    S' = (fun key => if key.owner = table.name then none else S key) → I S'

section Changes
variable {exact : Value → Prop} {S S' : Snapshot} {table : Table}

theorem Whole.created (h : Whole exact S) (hnone : S (.table table.name) = none)
    (hS' : S' = Function.update S (.table table.name) (some (.table table.stored))) :
    Whole exact S' := by
  have hkey : ∀ key : Key, key ≠ .table table.name → S' key = S key := by
    intro key hne
    rw [hS', Function.update_of_ne hne]
  intro t
  by_cases ht : table.name = t
  · have habsent : ∀ key : Key, key.owner = t → S key = none := by
      cases h t with
      | absent h => exact h
      | present table' hname htable' _ =>
          rw [ht, htable'] at hnone
          cases hnone
    have hrow : ∀ id, S' (.row table.name id) = none := by
      intro id
      rw [hkey _ (by simp)]
      exact habsent _ ht
    have hindex : ∀ c v, S' (.index table.name c v) = none := by
      intro c v
      rw [hkey _ (by simp)]
      exact habsent _ ht
    refine .present table.stored ht ?_ ⟨?_, ?_, ?_⟩
    · rw [hS', ← ht, Function.update_self]
    · intro id datum hget
      rw [show table.stored.name = table.name from rfl, hrow] at hget
      cases hget
    · intro c v datum hget
      rw [show table.stored.name = table.name from rfl, hindex] at hget
      cases hget
    · intro i column v _ _ _ id
      rw [show table.stored.name = table.name from rfl, Snapshot.idsAt, hindex]
      refine iff_of_false List.not_mem_nil ?_
      rintro ⟨row, hrow', -⟩
      rw [Snapshot.rowAt, hrow] at hrow'
      cases hrow'
  · refine (h t).congr fun key hkey' => hkey key ?_
    rintro rfl
    exact ht hkey'

theorem Whole.dropped (h : Whole exact S)
    (hS' : S' = fun key => if key.owner = table.name then none else S key) : Whole exact S' := by
  intro t
  by_cases ht : t = table.name
  · refine .absent fun key hkey => ?_
    rw [hS']
    exact if_pos (hkey.trans ht)
  · refine (h t).congr fun key hkey => ?_
    rw [hS']
    exact if_neg (hkey ▸ ht)

end Changes

namespace Local
variable {exact : Value → Prop} {I : Snapshot → Prop} {S : Snapshot} {table : Table} {t : String}

theorem ensures_createTable (hI : KeepsTables exact I) :
    Ensures (fun d => Whole exact d.view.get ∧ I d.view.get) (createTable table)
      fun _ d => Whole exact d.view.get ∧ I d.view.get := by
  rintro d ⟨hd, hholds⟩
  refine after_bind (after_mono (reads_getTable d) ?_)
  rintro found d' ⟨rfl, hfound⟩
  cases found with
  | some found => trivial
  | none =>
      refine after_bind (after_mono (reads_validate d') ?_)
      rintro - d' ⟨rfl, haccepted⟩
      have hput : (d'.put (.table table.name) (some (.table table.stored))).view.get =
          Function.update d'.view.get (.table table.name) (some (.table table.stored)) :=
        get_put_eq rfl
      exact ⟨hd.created hfound hput, hI.created hd hholds hfound haccepted hput⟩

theorem ensures_deleteKey {key : Key} : Ensures (fun d => d.view.get = S) (Script.delete key)
    fun _ d => d.view.get = Function.update S key none := fun _ hd => get_put_eq hd

theorem ensures_deleteAll {found : List (Key × Datum)} : Ensures (fun d => d.view.get = S)
    (found.forM fun e => Script.delete e.1)
    fun _ d => d.view.get = fun key => if key ∈ found.map Prod.fst then none else S key := by
  induction found generalizing S with
  | nil =>
      intro d hd
      show d.view.get = _
      rw [hd]
      rfl
  | cons e found ih =>
      refine ensures_deleteKey.bind fun _ d hd => ?_
      refine after_mono (ih d hd) fun _ d' hd' => ?_
      rw [hd']
      funext key
      rw [Function.update_apply]
      by_cases hkey : key = e.1
      · simp [hkey]
      · have hmem : key ∈ (e :: found).map Prod.fst ↔ key ∈ found.map Prod.fst := by simp [hkey]
        by_cases hfound : key ∈ found.map Prod.fst
        · rw [if_pos hfound, if_pos (hmem.mpr hfound)]
        · rw [if_neg hfound, if_neg (hmem.not.mpr hfound), if_neg hkey]

theorem ensures_deleteEntries {range : Key → Bool} : Ensures (fun d => d.view.get = S)
    (deleteEntries range) fun _ d => d.view.get = fun key => if range key then none else S key := by
  intro d hd
  apply after_bind
  change ((d.view.scan range).forM fun e => Script.delete e.1).after _ d
  refine after_mono (ensures_deleteAll d hd) fun _ d' hd' => ?_
  rw [hd']
  funext key
  have hmem : key ∈ (d.view.scan range).map Prod.fst ↔ (S key).isSome = true ∧ range key = true := by
    rw [← hd, List.mem_map, Option.isSome_iff_exists]
    constructor
    · rintro ⟨⟨k, datum⟩, he, rfl⟩
      obtain ⟨hget, hrange⟩ := OrderedMap.mem_scan.mp he
      exact ⟨⟨datum, hget⟩, hrange⟩
    · rintro ⟨⟨datum, hget⟩, hrange⟩
      exact ⟨(key, datum), OrderedMap.mem_scan.mpr ⟨hget, hrange⟩, rfl⟩
  cases hS : S key with
  | none => simp
  | some datum => simp only [hmem, hS, Option.isSome_some, true_and]

/-- The tables that reference the table are the table itself. -/
theorem reads_checkReferences : Reads (checkReferences table) fun db _ =>
    ∀ t source, db.get (.table t) = some (.table source) → source.name ≠ table.name →
      source.referencesTo table.name = [] := by
  refine reads_tableReferences.bind fun found => ?_
  split
  · next hnone =>
      refine reads_pure fun db h t source htable hne => ?_
      by_contra hrefs
      have hfound := (h source _).mpr ⟨⟨t, htable⟩, rfl, hrefs⟩
      have := List.find?_eq_none.mp hnone _ hfound
      simp [hne] at this
  · exact reads_nth.bind fun _ => reads_nth.bind fun _ => reads_errinput

/-- The index entries of columns. -/
theorem ensures_deleteIndexes {columns : List Column} : Ensures (fun d => d.view.get = S)
    (columns.forM fun column => deleteEntries (Key.isIndexOf t column.name))
    fun _ d => d.view.get = fun key =>
      if ∃ column ∈ columns, Key.isIndexOf t column.name key then none else S key := by
  induction columns generalizing S with
  | nil =>
      intro d hd
      show d.view.get = _
      rw [hd]
      funext key
      simp
  | cons column columns ih =>
      refine ensures_deleteEntries.bind fun _ d hd => ?_
      refine after_mono (ih d hd) fun _ d' hd' => ?_
      rw [hd']
      funext key
      by_cases hkey : Key.isIndexOf t column.name key = true <;> simp [hkey]

theorem ensures_dropTable (hI : KeepsTables exact I) {ifExists : Bool} :
    Ensures (fun d => Whole exact d.view.get ∧ I d.view.get) (dropTable t ifExists)
      fun _ d => Whole exact d.view.get ∧ I d.view.get := by
  rintro d ⟨hd, hholds⟩
  refine after_bind (after_mono (reads_getTable d) ?_)
  rintro found d' ⟨rfl, hfound⟩
  cases found with
  | none =>
      dsimp only
      split_ifs
      · exact ⟨hd, hholds⟩
      · trivial
  | some table =>
      obtain ⟨rfl, hhoused⟩ := hd.present hfound
      refine after_bind (after_mono (reads_checkReferences d') ?_)
      rintro - d ⟨rfl, hreferences⟩
      refine after_bind (after_mono (ensures_deleteKey d rfl) fun _ d₁ hd₁ => ?_)
      refine after_bind (after_mono (ensures_deleteEntries d₁ hd₁) fun _ d₂ hd₂ => ?_)
      refine after_bind (after_mono (ensures_deleteIndexes d₂ hd₂) fun _ d₃ hd₃ => ?_)
      have hall : d₃.view.get = fun key => if key.owner = table.name then none else d.view.get key := by
        rw [hd₃]
        funext key
        cases key with
        | table t =>
            simp only [Key.isRowOf, Key.isIndexOf, Key.owner, Function.update_apply, Key.table.injEq]
            split_ifs <;> simp_all
        | row t id =>
            simp only [Key.isRowOf, Key.isIndexOf, Key.owner, Function.update_apply, reduceCtorEq]
            split_ifs <;> simp_all
        | index t c v =>
            have hcolumn : t = table.name → (¬ ∃ column ∈ table.columns.filter (·.index),
                column.name = c) → d.view.get (.index t c v) = none := by
              rintro rfl hnone
              by_contra hsome
              obtain ⟨datum, hget⟩ := Option.ne_none_iff_exists'.mp hsome
              obtain ⟨i, column, -, hindex, rfl, -⟩ := hhoused.linked.entry hget
              obtain ⟨hi, hindexed⟩ := Table.mem_indexes.mp hindex
              exact hnone ⟨column, List.mem_filter.mpr ⟨List.mem_of_getElem? hi, hindexed⟩, rfl⟩
            simp only [Key.isRowOf, Key.isIndexOf, Function.update_apply, reduceCtorEq,
              decide_eq_true_eq, if_false, Bool.false_eq_true]
            by_cases ht : (Key.index t c v).owner = table.name
            · rw [if_pos ht]
              split_ifs with hc
              · rfl
              · refine hcolumn ht ?_
                rintro ⟨column, hmem, hname⟩
                exact hc ⟨column, hmem, ht, hname.symm⟩
            · rw [if_neg ht, if_neg]
              rintro ⟨column, -, htc, -⟩
              exact ht htc
      exact ⟨hd.dropped hall, hI.dropped hd hholds hfound hreferences hall⟩

end Local
end ToyDB.Sql
