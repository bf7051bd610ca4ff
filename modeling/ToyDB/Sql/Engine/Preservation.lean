import ToyDB.Sql.Engine.References
import ToyDB.Sql.Engine.Writing

/-!
# What statements preserve

A property of snapshots is preserved by statements if it is preserved by what they do to
whole rows. Every statement keeps the rows and index entries of all tables intact.
-/
namespace ToyDB.Sql
open ToyDB.Collections ToyDB.Mvcc ToyDB.Mvcc.Script

/-- The entries of all tables are intact. -/
def Whole (exact : Value → Prop) (S : Snapshot) : Prop := ∀ t, Intact exact S t

/-- The rows without some. -/
def without (rows : Value → Option Row) (ids : List Value) (id : Value) : Option Row :=
  if id ∈ ids then none else rows id

variable {exact : Value → Prop} {S S' : Snapshot} {table : Table} {rows rows' : Value → Option Row}
  {t : String} {id : Value}

theorem Whole.present (h : Whole exact S) (htable : S (.table t) = some (.table table)) :
    table.name = t ∧ Housed exact S table := by
  cases h t with
  | absent h =>
      rw [h _ rfl] at htable
      cases htable
  | present table' hname htable' h =>
      obtain rfl := Datum.table.inj (Option.some.inj (htable'.symm.trans htable))
      exact ⟨hname, h⟩

theorem Wrote.whole (hw : Wrote exact table rows S S') (h : Whole exact S)
    (htable : S (.table table.name) = some (.table table)) : Whole exact S' := by
  intro t
  by_cases ht : table.name = t
  · exact .present table ht (ht ▸ (hw.frame _ (Or.inr rfl)).trans htable) hw.housed
  · exact (h t).congr fun key hkey => hw.frame key (Or.inl (hkey ▸ fun h => ht h.symm))

theorem Wrote.table_eq (hw : Wrote exact table rows S S') (t : String) :
    S' (.table t) = S (.table t) := by
  by_cases ht : t = table.name
  · exact hw.frame _ (Or.inr (congrArg Key.table ht))
  · exact hw.frame _ (Or.inl ht)

theorem Wrote.refl (h : Housed exact S table) : Wrote exact table (S.rowAt table.name) S S :=
  ⟨h, fun _ _ => rfl, fun _ => rfl⟩

theorem Wrote.trans {S'' : Snapshot} (hw : Wrote exact table rows S S')
    (hw' : Wrote exact table rows' S' S'') : Wrote exact table rows' S S'' :=
  ⟨hw'.housed, fun key hkey => (hw'.frame key hkey).trans (hw.frame key hkey), hw'.rows⟩

/-- A property that the changes of rows preserve, if only such primary keys are listed. -/
structure KeepsRows (exact : Value → Prop) (keys : Table → Value → Prop) (I : Snapshot → Prop) :
    Prop where
  deleted {S S' : Snapshot} {table : Table} {ids : List Value} : Whole exact S → I S →
    S (.table table.name) = some (.table table) → (∀ id ∈ ids, keys table id) →
    Unreferenced S table ids →
    Wrote exact table (without (S.rowAt table.name) ids) S S' → I S'
  inserted {S S' : Snapshot} {table : Table} {id : Value} {row : Row} : Whole exact S → I S →
    S (.table table.name) = some (.table table) → Validated S table false id row →
    Wrote exact table (Function.update (S.rowAt table.name) id.stored (some row.stored)) S S' → I S'
  rewritten {S S' : Snapshot} {table : Table} {id key : Value} {row : Row} : Whole exact S → I S →
    S (.table table.name) = some (.table table) → Validated S table true key row →
    table.Fits id row.stored →
    Wrote exact table (Function.update (S.rowAt table.name) id (some row.stored)) S S' → I S'

/-- The rows and index entries are intact, the property holds, and the schemas are these. -/
structure Good (exact : Value → Prop) (I : Snapshot → Prop) (tables : String → Option Datum)
    (S : Snapshot) : Prop where
  whole : Whole exact S
  holds : I S
  tables (t : String) : S (.table t) = tables t

/-- Every row of the table is an old or a listed one. -/
def Mixed (S : Snapshot) (t : String) (listed : List Row) (S' : Snapshot) : Prop :=
  ∀ id old, S'.rowAt t id = some old → S.rowAt t id = some old ∨ ∃ row ∈ listed, row.stored = old

section Mixed
variable {listed : List Row} {row : Row}

theorem Mixed.refl : Mixed S t listed S := fun _ _ h => Or.inl h

/-- The table has one row more. -/
theorem Mixed.update (h : Mixed S t listed S') {S'' : Snapshot}
    (hrows : ∀ id', S''.rowAt t id' = Function.update (S'.rowAt t) id (some row.stored) id')
    (hrow : row ∈ listed) : Mixed S t listed S'' := by
  intro id' old hold
  rw [hrows, Function.update_apply] at hold
  split_ifs at hold
  · exact Or.inr ⟨row, hrow, Option.some.inj hold⟩
  · exact h id' old hold

theorem Mixed.without (h : Mixed S t listed S') {S'' : Snapshot} {ids : List Value}
    (hrows : ∀ id', S''.rowAt t id' = without (S'.rowAt t) ids id') : Mixed S t listed S'' := by
  intro id' old hold
  rw [hrows] at hold
  unfold ToyDB.Sql.without at hold
  split_ifs at hold
  exact h id' old hold

end Mixed

namespace Local
variable {keys : Table → Value → Prop} {I : Snapshot → Prop} {tables : String → Option Datum} {ids : List Value} {row : Row}
  {S₀ : Snapshot} {listed : List Row}

theorem ensures_mustGetTable {P : Draft Key Datum → Prop}
    (hP : ∀ d, P d → Good exact I tables d.view.get) : Ensures P (mustGetTable t)
      fun table d => P d ∧ table.name = t ∧ tables t = some (.table table) := by
  refine reads_mustGetTable.ensures fun table d hd htable => ?_
  have hgood := hP d hd
  exact ⟨hd, (hgood.whole.present htable).1, (hgood.tables t).symm.trans htable⟩

theorem ensures_deleteRows (hS : Housed exact S table) (hids : ∀ id ∈ ids, id.stored = id) :
    Ensures (fun d => d.view.get = S) (ids.forM fun id => deleteRow table id)
      fun _ d => Wrote exact table (without (S.rowAt table.name) ids) S d.view.get := by
  induction ids generalizing S with
  | nil =>
      intro d hd
      show Wrote exact table (without (S.rowAt table.name) []) S d.view.get
      rw [hd]
      exact Wrote.refl hS
  | cons id ids ih =>
      refine (ensures_deleteRow hS (hids id List.mem_cons_self)).bind fun _ d hd => ?_
      refine after_mono (ih hd.housed (fun id hid => hids id (List.mem_cons_of_mem _ hid)) d rfl) ?_
      intro _ d' hd'
      refine hd.trans ⟨hd'.housed, hd'.frame, fun id' => (hd'.rows id').trans ?_⟩
      unfold without
      rw [hd.rows, Function.update_apply]
      by_cases hid : id' = id <;> by_cases hids : id' ∈ ids <;> simp [hid, hids]

theorem ensures_delete (hI : KeepsRows exact keys I) (hids : ∀ id ∈ ids, id.stored = id)
    (hkeys : ∀ table, tables t = some (.table table) → ∀ id ∈ ids, keys table id) :
    Ensures (fun d => Good exact I tables d.view.get ∧ Mixed S₀ t listed d.view.get) (delete t ids)
      fun _ d => Good exact I tables d.view.get ∧ Mixed S₀ t listed d.view.get := by
  refine (ensures_mustGetTable fun _ hd => hd.1).bind ?_
  rintro table d ⟨⟨hd, hmixed⟩, hname, htable⟩
  subst hname
  have hpresent := (hd.tables table.name).trans htable
  obtain ⟨-, hhoused⟩ := hd.whole.present hpresent
  have hdelete : ((do
      let references ← tableReferences table.name
      references.forM fun r => r.2.forM fun i => checkReference table ids r.1 i) >>=
        fun _ => ids.forM fun id => deleteRow table id).after
      (fun _ d => Good exact I tables d.view.get ∧ Mixed S₀ table.name listed d.view.get) d := by
    refine after_bind (after_mono (reads_unreferenced d) ?_)
    rintro - d' ⟨rfl, hreferences⟩
    refine after_mono (ensures_deleteRows hhoused hids d' rfl) fun _ d'' hw => ⟨?_, ?_⟩
    · exact ⟨hw.whole hd.whole hpresent, hI.deleted hd.whole hd.holds hpresent (hkeys table htable)
        hreferences hw,
        fun t => (hw.table_eq t).trans (hd.tables t)⟩
    · exact hmixed.without hw.rows
  rw [bind_assoc] at hdelete
  exact hdelete

theorem ensures_insert (hI : KeepsRows exact keys I) {rows : List Row} (hrows : rows ⊆ listed) :
    Ensures (fun d => Good exact I tables d.view.get ∧ Mixed S₀ t listed d.view.get) (insert t rows)
      fun _ d => Good exact I tables d.view.get ∧ Mixed S₀ t listed d.view.get := by
  refine (ensures_mustGetTable fun _ hd => hd.1).bind ?_
  rintro table d ⟨hd, hname, htable⟩
  subst hname
  refine after_mono (ensures_forM (I := fun rows d => rows ⊆ listed ∧
    Good exact I tables d.view.get ∧ Mixed S₀ table.name listed d.view.get) ?_ d ⟨hrows, hd⟩)
      fun _ d hd => hd.2
  rintro row rows d ⟨hrows, hd, hmixed⟩
  have hpresent := (hd.tables table.name).trans htable
  refine after_mono (ensures_insertRow (hd.whole.present hpresent).2 d rfl) ?_
  rintro - d' ⟨id, hvalid, hw⟩
  refine ⟨fun r hr => hrows (List.mem_cons_of_mem _ hr), ⟨hw.whole hd.whole hpresent, ?_, ?_⟩, ?_⟩
  · exact hI.inserted hd.whole hd.holds hpresent hvalid hw
  · exact fun t => (hw.table_eq t).trans (hd.tables t)
  · exact hmixed.update hw.rows (hrows List.mem_cons_self)

end Local

/-- No update leaves a value in the index that is stored differently from the new one. -/
def Settles (exact : Value → Prop) (S : Snapshot) (t : String) (rows : List (Value × Row)) : Prop :=
  ∀ table, S (.table t) = some (.table table) → ∀ b ∈ rows, table.Fits b.1 b.2.stored →
    ∀ old, table.Fits b.1 old → (S.rowAt t b.1 = some old ∨ ∃ row ∈ rows.map Prod.snd,
      row.stored = old) → Settled exact old b.2

/-- The listed primary keys are ones that rows of the table can have in the store. -/
def Keyed (S : Snapshot) (t : String) (ids : List Value) : Prop :=
  ∀ id ∈ ids, id.stored = id ∧
    ∀ table, S (.table t) = some (.table table) → id.datatype = table.keyType

namespace Local
variable {keys : Table → Value → Prop} {I : Snapshot → Prop} {tables : String → Option Datum} {S₀ : Snapshot}
  {rows : List (Value × Row)}

theorem ensures_update (hI : KeepsRows exact keys I) (hkeyed : Keyed S₀ t (rows.map Prod.fst))
    (hkeys : ∀ table, tables t = some (.table table) → ∀ id ∈ rows.map Prod.fst, keys table id)
    (hsettles : Settles exact S₀ t rows) :
    Ensures (fun d => d.view.get = S₀ ∧ Good exact I tables d.view.get) (update t rows)
      fun _ d => Good exact I tables d.view.get := by
  refine (ensures_mustGetTable fun _ hd => hd.2).bind ?_
  rintro table d ⟨⟨hS, hd⟩, hname, htable⟩
  subst hname
  have htable₀ : S₀ (.table table.name) = some (.table table) := by
    rw [← hS, hd.tables]
    exact htable
  have hloop : Ensures (fun d => rows ⊆ rows ∧ Good exact I tables d.view.get ∧
      Mixed S₀ table.name (rows.map Prod.snd) d.view.get)
      (rows.forM fun b => updateRow table b.1 b.2)
      fun _ d => [] ⊆ rows ∧ Good exact I tables d.view.get ∧
        Mixed S₀ table.name (rows.map Prod.snd) d.view.get := by
    refine ensures_forM (I := fun left d => left ⊆ rows ∧ Good exact I tables d.view.get ∧
      Mixed S₀ table.name (rows.map Prod.snd) d.view.get) ?_
    rintro ⟨id, row⟩ left d ⟨hleft, hd, hmixed⟩
    have hmem : (id, row) ∈ rows := hleft List.mem_cons_self
    have hleft' : left ⊆ rows := fun b hb => hleft (List.mem_cons_of_mem _ hb)
    obtain ⟨hid, htype⟩ := hkeyed id (List.mem_map_of_mem (f := Prod.fst) hmem)
    have hpresent := (hd.tables table.name).trans htable
    cases hkey : row[table.primaryKey]? with
    | none =>
        show (updateRow table id row).after _ d
        unfold updateRow nth
        rw [hkey]
        trivial
    | some key =>
        by_cases heq : id.eq key = true
        · refine after_mono (ensures_updateRow (hd.whole.present hpresent).2 hid
            (htype table htable₀) hkey heq ?_ d rfl) ?_
          · intro hnew old hold hfits
            exact hsettles table htable₀ _ hmem hnew old hfits (hmixed id old hold)
          · rintro - d' ⟨hvalid, hfits, hw⟩
            refine ⟨hleft', ⟨hw.whole hd.whole hpresent, ?_, ?_⟩, ?_⟩
            · exact hI.rewritten hd.whole hd.holds hpresent hvalid hfits hw
            · exact fun t => (hw.table_eq t).trans (hd.tables t)
            · exact hmixed.update hw.rows (List.mem_map_of_mem (f := Prod.snd) hmem)
        · have hmove : (do
              delete table.name [id]
              insert table.name [row]).after
              (fun _ d => left ⊆ rows ∧ Good exact I tables d.view.get ∧
                Mixed S₀ table.name (rows.map Prod.snd) d.view.get) d := by
            apply after_bind
            have hlisted : ∀ table', tables table.name = some (.table table') →
                ∀ x ∈ [id], keys table' x := by
              intro table' htable' x hx
              obtain rfl := List.mem_singleton.mp hx
              exact hkeys table' htable' x (List.mem_map_of_mem (f := Prod.fst) hmem)
            refine after_mono (ensures_delete hI (by simpa using hid) hlisted d ⟨hd, hmixed⟩) ?_
            intro _ d hd
            refine after_mono (ensures_insert hI ?_ d hd) fun _ d hd => ⟨hleft', hd⟩
            intro r hr
            obtain rfl := List.mem_singleton.mp hr
            exact List.mem_map_of_mem (f := Prod.snd) hmem
          show (updateRow table id row).after _ d
          unfold updateRow nth
          rw [hkey]
          show ((if id.eq key = false then _ else _ : Statement Unit)).after _ d
          rw [if_pos (by simpa using heq)]
          exact hmove
  refine after_mono (hloop d ⟨fun _ h => h, hd, ?_⟩) fun _ d hd => hd.2.1
  rw [hS]
  exact Mixed.refl

end Local
end ToyDB.Sql
