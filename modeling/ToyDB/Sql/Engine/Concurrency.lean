import ToyDB.Mvcc.Constraints
import ToyDB.Sql.Engine.SchemaChanges

/-!
# Integrity under concurrency

Transactions that write a row or an index entry see the schema of its table as it is when
they commit, unless a concurrent transaction created or dropped the table. Without such
races, rows and index entries stay intact: a write conflict keeps two transactions from
changing one row or one index entry.
-/
namespace ToyDB.Sql
open ToyDB.Collections ToyDB.Mvcc ToyDB.Mvcc.Script

/-- The operands of a statement: primary keys are as they are stored, and updates do not
leave index entries behind. -/
def Operation.Admissible (exact : Value → Prop) (S : Snapshot) : Operation → Prop
  | .delete _ ids => ∀ id ∈ ids, id.stored = id
  | .update t rows => Keyed S t (rows.map Prod.fst) ∧ Settles exact S t rows
  | .createTable _ | .dropTable _ _ | .insert _ _ => True

/-- The primary keys that a statement lists are ones that rows can have in the store. -/
def Operation.Keyed (S : Snapshot) : Operation → Prop
  | .delete t ids => Sql.Keyed S t ids
  | .update t rows => Sql.Keyed S t (rows.map Prod.fst)
  | .createTable _ | .dropTable _ _ | .insert _ _ => True

/-- The primary keys that a statement lists for the schema of its table. -/
def Operation.Lists (keys : Table → Value → Prop) (tables : String → Option Datum) :
    Operation → Prop
  | .delete t ids => ∀ table, tables t = some (.table table) → ∀ id ∈ ids, keys table id
  | .update t rows =>
      ∀ table, tables t = some (.table table) → ∀ id ∈ rows.map Prod.fst, keys table id
  | .createTable _ | .dropTable _ _ | .insert _ _ => True

theorem Operation.lists_true {tables : String → Option Datum} (op : Operation) :
    op.Lists (fun _ _ => True) tables := by
  cases op with
  | createTable | dropTable | insert => trivial
  | delete | update => exact fun _ _ _ _ => trivial

/-- A statement that changes rows and no schemas. -/
def Operation.OnRows : Operation → Prop
  | .delete _ _ | .insert _ _ | .update _ _ => True
  | .createTable _ | .dropTable _ _ => False

/-- The transaction that made these writes over the state that it began with did not race
with a schema change of their tables, and changed no schema while others wrote rows. -/
structure Compatible (C S : Snapshot) (W : Key → Option (Option Datum)) : Prop where
  schema (key : Key) : (W key).isSome = true → C (.table key.owner) = S (.table key.owner)
  rows (t : String) : overlay S W (.table t) ≠ S (.table t) →
    ∀ key : Key, key.owner = t → C key = S key

/-- Neither NULL nor NaN. -/
abbrev Value.Defined (v : Value) : Prop := v.isUndefined = false

section Statements
variable {exact : Value → Prop} {keys : Table → Value → Prop} {S : Snapshot}

/-- Equal values of a column are stored alike unless they are NULL or NaN. -/
theorem settles_defined {t : String} {rows : List (Value × Row)} :
    Settles Value.Defined S t rows := by
  intro table htable b hb hnew old hold _ i before after hbefore hafter heq hdefined
  obtain ⟨column, hcolumn⟩ := hold.columnAt hbefore
  have hafter' : b.2.stored[i]? = some after.stored := by
    rw [Row.getElem?_stored, hafter, Option.map_some]
  have htypes : before.datatype = after.datatype :=
    (hold.admits hcolumn hbefore).datatype_eq (hnew.admits hcolumn hafter').of_stored heq
  have hbefore' : before.isUndefined = false := by
    obtain h | h := hdefined
    · exact h
    · rw [Value.isUndefined_of_eq heq htypes, ← Value.isUndefined_stored, h]
  rw [← hold.value_stored hbefore]
  exact Value.stored_of_eq heq htypes hbefore'

theorem Operation.Keyed.admissible {op : Operation} (h : op.Keyed S) :
    op.Admissible Value.Defined S := by
  cases op with
  | createTable | dropTable | insert => trivial
  | delete t ids => exact fun id hid => (h id hid).1
  | update t rows => exact ⟨h, settles_defined⟩

theorem keepsRows_true : KeepsRows exact (fun _ _ => True) fun _ => True :=
  ⟨fun _ _ _ _ _ _ => trivial, fun _ _ _ _ _ => trivial, fun _ _ _ _ _ _ => trivial⟩

theorem keepsTables_true : KeepsTables exact fun _ => True :=
  ⟨fun _ _ _ _ _ => trivial, fun _ _ _ _ _ => trivial⟩

/-- Statements on rows keep the schemas, and what changes of rows preserve. -/
theorem ensures_onRows {I : Snapshot → Prop} {tables : String → Option Datum} {op : Operation}
    (hrows : op.OnRows) (hop : op.Admissible exact S) (hkeys : op.Lists keys tables)
    (hI : KeepsRows exact keys I)
    (hS : Good exact I tables S) : Ensures (fun d => d.view.get = S) op.script
      fun _ d => Good exact I tables d.view.get := by
  cases op with
  | createTable | dropTable => exact absurd hrows id
  | delete t ids =>
      rintro d rfl
      have hmixed : Mixed d.view.get t [] d.view.get := Mixed.refl
      exact after_mono (Local.ensures_delete hI hop hkeys d ⟨hS, hmixed⟩) fun _ d hd => hd.1
  | insert t rows =>
      rintro d rfl
      have hmixed : Mixed d.view.get t rows d.view.get := Mixed.refl
      exact after_mono (Local.ensures_insert hI (fun _ h => h) d ⟨hS, hmixed⟩) fun _ d hd => hd.1
  | update t rows =>
      rintro d rfl
      exact Local.ensures_update hI hop.1 hkeys hop.2 d ⟨rfl, hS⟩

/-- Every statement keeps the rows and index entries intact, and what changes of rows and
schemas preserve. -/
theorem ensures_operation {I : Snapshot → Prop} (op : Operation) (hrows : KeepsRows exact keys I)
    (htables : KeepsTables exact I) (hS : Whole exact S) (hI : I S) (hop : op.Admissible exact S)
    (hkeys : op.Lists keys fun t => S (.table t)) :
    Ensures (fun d => d.view.get = S) op.script
      fun _ d => Whole exact d.view.get ∧ I d.view.get := by
  have hgood : Good exact I (fun t => S (.table t)) S := ⟨hS, hI, fun _ => rfl⟩
  have honRows : op.OnRows → Ensures (fun d => d.view.get = S) op.script
      fun _ d => Whole exact d.view.get ∧ I d.view.get :=
    fun h => (ensures_onRows h hop hkeys hrows hgood).mono (fun _ hd => hd)
      fun _ _ hd => ⟨hd.whole, hd.holds⟩
  cases op with
  | createTable table =>
      refine (Local.ensures_createTable htables).mono ?_ fun _ d hd => hd
      rintro d rfl
      exact ⟨hS, hI⟩
  | dropTable t ifExists =>
      refine Ensures.bind ((Local.ensures_dropTable htables).mono ?_ fun _ d hd => hd)
        fun _ => ensures_pure fun d hd => hd
      rintro d rfl
      exact ⟨hS, hI⟩
  | delete | insert | update => exact honRows trivial

end Statements

section Commits
variable {exact : Value → Prop} {C S : Snapshot} {W : Key → Option (Option Datum)} {table : Table}

theorem overlay_of_written {T : Snapshot} {key : Key} (h : (W key).isSome = true) :
    overlay S W key = overlay T W key := by
  obtain ⟨value, hvalue⟩ := Option.isSome_iff_exists.mp h
  rw [overlay, overlay, hvalue, Option.getD_some, Option.getD_some]

theorem overlay_of_not_written {key : Key} (h : ¬ (W key).isSome = true) :
    overlay S W key = S key := by
  rw [overlay, Option.not_isSome_iff_eq_none.mp h, Option.getD_none]

/-- Rows and index entries that change together conflict together. -/
theorem Housed.merge (hC : Housed exact C table) (hS : Housed exact S table)
    (hW : Housed exact (overlay S W) table) (hsame : ∀ key, (W key).isSome = true → C key = S key) :
    Housed exact (overlay C W) table := by
  constructor
  · intro id datum hget
    by_cases hkey : (W (.row table.name id)).isSome = true
    · rw [overlay_of_written hkey (T := S)] at hget
      exact hW.row hget
    · rw [overlay_of_not_written hkey] at hget
      exact hC.row hget
  · constructor
    · intro c v datum hget
      by_cases hkey : (W (.index table.name c v)).isSome = true
      · rw [overlay_of_written hkey (T := S)] at hget
        exact hW.linked.entry hget
      · rw [overlay_of_not_written hkey] at hget
        exact hC.linked.entry hget
    · intro i column v hdistinct hindex hv id
      have hlinkedC := hC.linked.mem hdistinct hindex hv id
      have hlinkedS := hS.linked.mem hdistinct hindex hv id
      have hlinkedW := hW.linked.mem hdistinct hindex hv id
      unfold Snapshot.idsAt Snapshot.rowAt at *
      by_cases hentry : (W (.index table.name column.name v)).isSome = true <;>
        by_cases hrow : (W (.row table.name id)).isSome = true
      · rw [overlay_of_written hentry (T := S), overlay_of_written hrow (T := S)]
        exact hlinkedW
      · rw [overlay_of_written hentry (T := S), overlay_of_not_written hrow, hlinkedW,
          overlay_of_not_written hrow, ← hlinkedS, ← hsame _ hentry]
        exact hlinkedC
      · rw [overlay_of_not_written hentry, overlay_of_written hrow (T := S), ← hlinkedW,
          overlay_of_not_written hentry, hlinkedC, hsame _ hrow]
        exact hlinkedS.symm
      · rw [overlay_of_not_written hentry, overlay_of_not_written hrow]
        exact hlinkedC

theorem Whole.merge (hC : Whole exact C) (hS : Whole exact S) (hW : Whole exact (overlay S W))
    (hsame : ∀ key, (W key).isSome = true → C key = S key) (hc : Compatible C S W) :
    Whole exact (overlay C W) := by
  intro t
  by_cases hany : ∃ key : Key, key.owner = t ∧ (W key).isSome = true
  · obtain ⟨key, hkey, hwritten⟩ := hany
    by_cases hseen : overlay S W (.table t) = S (.table t)
    · have hschema : C (.table t) = S (.table t) := hkey ▸ hc.schema key hwritten
      have hnow : overlay C W (.table t) = S (.table t) := by
        by_cases htable : (W (.table t)).isSome = true
        · rw [overlay_of_written htable (T := S), hseen]
        · rw [overlay_of_not_written htable, hschema]
      cases hW t with
      | absent h =>
          have hnone : C (.table t) = none := by rw [hschema, ← hseen, h _ rfl]
          have hC' : ∀ key : Key, key.owner = t → C key = none := by
            cases hC t with
            | absent h => exact h
            | present table hname htable' _ =>
                rw [htable'] at hnone
                cases hnone
          refine .absent fun key hkey => ?_
          by_cases hwritten : (W key).isSome = true
          · rw [overlay_of_written hwritten (T := S), h key hkey]
          · rw [overlay_of_not_written hwritten, hC' key hkey]
      | present table hname htable h =>
          have hS' := (hS.present (hseen.symm.trans htable)).2
          have hC' := (hC.present (hschema.trans (hseen.symm.trans htable))).2
          refine .present table hname ?_ (hC'.merge hS' h hsame)
          rw [hnow, ← hseen, htable]
    · refine (hW t).congr fun key hkey => ?_
      rw [overlay, overlay, hc.rows t hseen key hkey]
  · refine (hC t).congr fun key hkey => ?_
    exact overlay_of_not_written fun h => hany ⟨key, hkey, h⟩

end Commits

/-- Integrity as a constraint on committed states. -/
def integrity (exact : Value → Prop) : Constraint Key Datum where
  Holds := Whole exact
  Fine S W := Whole exact (overlay S W)
  Allowed db script := ∃ op : Operation, script = op.script ∧ op.Admissible exact db.get
  Compatible := Compatible

theorem integrity_lawful (exact : Value → Prop) : (integrity exact).Lawful where
  begin hS := hS
  script := by
    intro S d script hS hover hfine hallowed
    obtain ⟨op, rfl, hop⟩ := hallowed
    have hview : ∀ d : Draft Key Datum, d.Over S → d.view.get = overlay S d.writes :=
      fun d hd => funext hd
    have hwhole : Whole exact d.view.get := by
      rw [hview d hover]
      exact hfine
    have hoperation := ensures_operation op keepsRows_true keepsTables_true hwhole trivial hop
      op.lists_true
    refine after_mono ((hoperation.and (ensures_over S op.script)) d ⟨rfl, hover⟩) ?_
    rintro - d' ⟨hd', hover'⟩
    change Whole exact (overlay S d'.writes)
    rw [← hview d' hover']
    exact hd'.1
  commit hC hS hfine hsame hc := hC.merge hS hfine hsame hc

/-- Integrity, and what changes of rows and schemas preserve, as a constraint on committed
states. -/
def tableIntegrity (exact : Value → Prop) (keys : Table → Value → Prop) (I : Snapshot → Prop)
    (compatible : Snapshot → Snapshot → (Key → Option (Option Datum)) → Prop) :
    Constraint Key Datum where
  Holds S := Whole exact S ∧ I S
  Fine S W := Whole exact (overlay S W) ∧ I (overlay S W)
  Allowed db script := ∃ op : Operation, script = op.script ∧ op.Admissible exact db.get ∧
    op.Lists keys fun t => db.get (.table t)
  Compatible C S W := Compatible C S W ∧ compatible C S W

theorem tableIntegrity_lawful {exact : Value → Prop} {keys : Table → Value → Prop}
    {I : Snapshot → Prop}
    {compatible : Snapshot → Snapshot → (Key → Option (Option Datum)) → Prop}
    (hrows : KeepsRows exact keys I) (htables : KeepsTables exact I)
    (hmerge : ∀ {C S W}, Whole exact C → I C → Whole exact S → Whole exact (overlay S W) →
      I (overlay S W) → Compatible C S W → compatible C S W → I (overlay C W)) :
    (tableIntegrity exact keys I compatible).Lawful where
  begin hS := hS
  script := by
    intro S d script hS hover hfine hallowed
    obtain ⟨op, rfl, hop, hkeys⟩ := hallowed
    have hview : ∀ d : Draft Key Datum, d.Over S → d.view.get = overlay S d.writes :=
      fun d hd => funext hd
    obtain ⟨hwhole, hI⟩ : Whole exact d.view.get ∧ I d.view.get := by
      rw [hview d hover]
      exact hfine
    have hoperation := ensures_operation op hrows htables hwhole hI hop hkeys
    refine after_mono ((hoperation.and (ensures_over S op.script)) d ⟨rfl, hover⟩) ?_
    rintro - d' ⟨hd', hover'⟩
    change Whole exact (overlay S d'.writes) ∧ I (overlay S d'.writes)
    rw [← hview d' hover']
    exact hd'
  commit hC hS hfine hsame hc :=
    ⟨hC.1.merge hS.1 hfine.1 hsame hc.1, hmerge hC.1 hC.2 hS.1 hfine.1 hfine.2 hc.1 hc.2⟩

/-- Integrity, and what changes of rows preserve, under fixed schemas. -/
def rowIntegrity (exact : Value → Prop) (I : Snapshot → Prop) (tables : String → Option Datum)
    (compatible : Snapshot → Snapshot → (Key → Option (Option Datum)) → Prop) :
    Constraint Key Datum where
  Holds := Good exact I tables
  Fine S W := Good exact I tables (overlay S W)
  Allowed db script := ∃ op : Operation, script = op.script ∧ op.OnRows ∧ op.Admissible exact db.get
  Compatible := compatible

theorem whole_empty {exact : Value → Prop} : Whole exact fun _ => none :=
  fun _ => .absent fun _ _ => rfl

/-- What every idle transaction with no failed statement sees is intact. -/
theorem whole_of_idle {exact : Value → Prop} {s : Sessions Key Datum} {i : ℕ}
    {handle : Handle Key Datum}
    (h : Sessions.Reachable (integrity exact).Permits Sessions.empty s)
    (hi : s.store.handles[i]? = some handle) (hidle : s.phases[i]? = some (.idle false)) :
    Whole exact (handle.state.viewMap s.store.engine).get := by
  have hsound := (integrity_lawful exact).sound (Constraint.sound_empty whole_empty) h
  obtain ⟨S, W, -, hfine, hview⟩ := hsound.idle hi hidle
  rw [hview]
  exact hfine

/-- What every idle transaction with no failed statement sees is intact, and has what changes of
rows and schemas preserve. -/
theorem holds_of_idle {exact : Value → Prop} {keys : Table → Value → Prop} {I : Snapshot → Prop}
    {compatible : Snapshot → Snapshot → (Key → Option (Option Datum)) → Prop}
    {s : Sessions Key Datum} {i : ℕ} {handle : Handle Key Datum}
    (hlawful : (tableIntegrity exact keys I compatible).Lawful) (hI : I fun _ => none)
    (h : Sessions.Reachable (tableIntegrity exact keys I compatible).Permits Sessions.empty s)
    (hi : s.store.handles[i]? = some handle) (hidle : s.phases[i]? = some (.idle false)) :
    Whole exact (handle.state.viewMap s.store.engine).get ∧
      I (handle.state.viewMap s.store.engine).get := by
  obtain ⟨S, W, -, hfine, hview⟩ :=
    (hlawful.sound (Constraint.sound_empty ⟨whole_empty, hI⟩) h).idle hi hidle
  rw [hview]
  exact hfine

/-- What an idle transaction with no failed statement sees. -/
def Sessions.seen (s : Sessions Key Datum) (i : ℕ) : Option Entries := do
  let handle ← s.store.handles[i]?
  let phase ← s.phases[i]?
  if phase.isIdle then some (handle.state.viewMap s.store.engine) else none

theorem Sessions.seen_spec {s : Sessions Key Datum} {i : ℕ} {db : Entries} (h : seen s i = some db) :
    ∃ handle, s.store.handles[i]? = some handle ∧ s.phases[i]? = some (.idle false) ∧
      handle.state.viewMap s.store.engine = db := by
  obtain ⟨handle, hhandle, h⟩ := Option.bind_eq_some_iff.mp h
  obtain ⟨phase, hphase, h⟩ := Option.bind_eq_some_iff.mp h
  split_ifs at h with hidle
  exact ⟨handle, hhandle, hphase.trans (congrArg some (Phase.eq_idle hidle)), Option.some.inj h⟩

end ToyDB.Sql
