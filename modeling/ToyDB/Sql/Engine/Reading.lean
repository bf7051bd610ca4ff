import ToyDB.Mvcc.Draft
import ToyDB.Sql.Engine.Catalog

/-!
# What statements read

The scripts that only read, with what their results say about the entries that the
transaction sees.
-/
namespace ToyDB.Sql
open ToyDB.Collections ToyDB.Mvcc ToyDB.Mvcc.Script

/-- The entries of the engine. -/
abbrev Entries := OrderedMap Key Datum

/-- The row in an entry of the engine. -/
def decodeRow : Key × Datum → Except Failure Row
  | (_, .row row) => .ok row
  | _ => .error (.error (.invalidData "entry"))

namespace Local
variable {α : Type}

theorem reads_errdata {R : Entries → α → Prop} : Reads (errdata : Statement α) R := reads_fail

theorem reads_errinput {R : Entries → α → Prop} {message : String} :
    Reads (Script.errinput message : Statement α) R := reads_fail

theorem reads_panicked {R : Entries → α → Prop} {message : String} :
    Reads (panicked message : Statement α) R := reads_fail

theorem reads_nth {list : List α} {i : ℕ} : Reads (nth list i) fun _ a => list[i]? = some a := by
  unfold nth
  cases list[i]? with
  | none => exact reads_panicked
  | some a => exact reads_pure fun _ => rfl

/-! ## Catalog -/

theorem reads_getTable {t : String} :
    Reads (getTable t) fun m table => m.get (.table t) = table.map Datum.table := by
  refine (reads_read (R := fun m datum => m.get (.table t) = datum) fun _ => rfl).bind fun datum => ?_
  split
  · exact reads_pure fun _ h => h
  · exact reads_pure fun _ h => h
  · exact reads_errdata

theorem reads_mustGetTable {t : String} :
    Reads (mustGetTable t) fun m table => m.get (.table t) = some (.table table) := by
  refine reads_getTable.bind fun table => ?_
  split
  · exact reads_pure fun _ h => h
  · exact reads_errinput

theorem reads_decodeTables {found : List (Key × Datum)} : Reads (decodeTables found)
    fun _ tables => found.map Prod.snd = tables.map Datum.table := by
  induction found with
  | nil => exact reads_pure fun _ => rfl
  | cons e rest ih =>
      obtain ⟨key, datum⟩ := e
      cases datum with
      | table table =>
          refine Reads.bind ih fun tables => reads_pure fun _ h => ?_
          rw [List.map_cons, List.map_cons, h]
      | ids | row => exact reads_errdata

theorem reads_listTables : Reads listTables fun m tables => ∀ table, table ∈ tables ↔
    ∃ t, m.get (.table t) = some (.table table) := by
  refine (reads_entries (R := fun m found => m.scan Key.isTable = found) fun _ => rfl).bind
    fun found => reads_decodeTables.mono fun m tables h hfound table => ?_
  have hmem : table ∈ tables ↔ Datum.table table ∈ found.map Prod.snd := by
    rw [h]
    simp
  rw [hmem, ← hfound, List.mem_map]
  constructor
  · intro ⟨⟨key, datum⟩, he, hdatum⟩
    obtain rfl : datum = .table table := hdatum
    obtain ⟨hget, hkey⟩ := OrderedMap.mem_scan.mp he
    cases key with
    | table t => exact ⟨t, hget⟩
    | index | row => cases hkey
  · intro ⟨t, hget⟩
    exact ⟨(.table t, .table table), OrderedMap.mem_scan.mpr ⟨hget, rfl⟩, rfl⟩

theorem reads_tableReferences {t : String} : Reads (tableReferences t) fun m found =>
    ∀ source refs, (source, refs) ∈ found ↔
      (∃ t', m.get (.table t') = some (.table source)) ∧ source.referencesTo t = refs ∧ refs ≠ [] := by
  refine reads_listTables.bind fun tables => reads_pure fun m h source refs => ?_
  rw [← h source]
  simp only [List.mem_filter, List.mem_map, Prod.mk.injEq, decide_eq_true_eq, ← and_assoc]
  refine and_congr_left fun _ => ⟨?_, ?_⟩
  · intro ⟨_, ⟨hmem, rfl⟩, hrefs⟩
    exact ⟨hmem, hrefs⟩
  · intro ⟨hmem, hrefs⟩
    exact ⟨source, ⟨hmem, rfl⟩, hrefs⟩

/-! ## Rows and index entries -/

theorem reads_getIndex {t column : String} {value : Value} :
    Reads (getIndex t column value) fun m ids => m.get (.ofIndex t column value) = some (.ids ids) ∨
      m.get (.ofIndex t column value) = none ∧ ids = [] := by
  refine (reads_read (R := fun m datum => m.get (.ofIndex t column value) = datum)
    fun _ => rfl).bind fun datum => ?_
  split
  · exact reads_pure fun _ h => Or.inr ⟨h, rfl⟩
  · exact reads_pure fun _ h => Or.inl h
  · exact reads_errdata

theorem reads_getRow {t : String} {id : Value} :
    Reads (getRow t id) fun m row => m.get (.ofRow t id) = row.map Datum.row := by
  refine (reads_read (R := fun m datum => m.get (.ofRow t id) = datum) fun _ => rfl).bind
    fun datum => ?_
  split
  · exact reads_pure fun _ h => h
  · exact reads_pure fun _ h => h
  · exact reads_errdata

theorem reads_get {t : String} {ids : List Value} : Reads (Local.get t ids) fun m rows =>
    ∀ row, row ∈ rows ↔ ∃ id ∈ ids, m.get (.ofRow t id) = some (.row row) := by
  induction ids with
  | nil => exact reads_pure fun _ row => by simp
  | cons id ids ih =>
      apply reads_getRow.bind
      intro row
      apply ih.bind
      intro rows
      refine reads_pure fun m h hrow row' => ?_
      rw [List.mem_append, h row', List.exists_mem_cons_iff]
      refine or_congr_left ?_
      rw [hrow]
      cases row <;> simp [eq_comm]

theorem reads_getIndexes {t column : String} {values : List Value} :
    Reads (getIndexes t column values) fun m found => ∀ x, x ∈ found ↔ ∃ value ∈ values, ∃ ids,
      m.get (.ofIndex t column value) = some (.ids ids) ∧ x ∈ ids := by
  induction values with
  | nil => exact reads_pure fun _ x => by simp
  | cons value values ih =>
      apply reads_getIndex.bind
      intro set
      apply ih.bind
      intro found
      refine reads_pure fun m h hset x => ?_
      rw [List.mem_append, h x, List.exists_mem_cons_iff]
      refine or_congr_left ?_
      obtain hset | ⟨hset, rfl⟩ := hset
      · simp [hset]
      · simp [hset]

theorem reads_lookupIndex {t column : String} {values : List Value} :
    Reads (lookupIndex t column values) fun m set => ∃ found, set = ValueSet.ofList found ∧
      ∀ x, x ∈ found ↔ ∃ value ∈ values, ∃ ids,
        m.get (.ofIndex t column value) = some (.ids ids) ∧ x ∈ ids :=
  reads_getIndexes.bind fun found => reads_pure fun _ h => ⟨found, rfl, h⟩

/-! ## Scans -/

section
variable {fn : Builtins} {db : Entries} {table : String}

theorem eval_scan_none : (scan fn table none).eval db =
    .ok ((db.scan (Key.isRowOf table)).map decodeRow) := by
  refine congrArg Except.ok (List.map_congr_left ?_)
  rintro ⟨key, datum⟩ -
  cases datum <;> rfl

theorem eval_scan_some {filter : Expression} :
    (scan fn table (some filter)).eval db =
      .ok (Rows.filter fn filter ((db.scan (Key.isRowOf table)).map decodeRow)) := by
  refine congrArg (fun rows => Except.ok (Rows.filter fn filter rows)) (List.map_congr_left ?_)
  rintro ⟨key, datum⟩ -
  cases datum <;> rfl

end

end Local
end ToyDB.Sql
