import ToyDB.Sql.Engine.Reading
import ToyDB.Sql.Execution.Join
import ToyDB.Sql.Planner.Meaning
import ToyDB.Sql.Planner.Optimizer
import ToyDB.Sql.Types.Coherence
import ToyDB.Sql.Types.Predicate

/-!
# Lookups instead of scans

A filtered scan becomes a lookup if a conjunct of its filter lists values of the primary key
or of an indexed column. Lookups find the rows whose value is stored like a listed one, and
key lookups find a row once for each key that lists it, so the rows of the scan are found
just if no match is between an integer and a float and no key is listed twice.
-/
namespace ToyDB.Sql
open ToyDB.Collections ToyDB.Mvcc

/-! ## Column lookups -/

namespace Expression
variable {fn : Builtins} {e : Expression} {c : ℕ} {row : Row} {x : Value}

/-- The values that a column lookup lists. -/
def literals : Expression → List Value
  | equal (column _) (constant v) | equal (constant v) (column _) =>
      if v.isUndefined then [] else [v]
  | is (column _) v => [v]
  | or l r => l.literals ++ r.literals
  | _ => []

/-- A disjunction of equalities and tests of one column. -/
inductive Lookup (c : ℕ) : Expression → Prop
  | equal (v : Value) : Lookup c (.equal (column c) (constant v))
  | equal' (v : Value) : Lookup c (.equal (constant v) (column c))
  | is (v : Value) : Lookup c (.is (column c) v)
  | or {l r : Expression} (hl : Lookup c l) (hr : Lookup c r) : Lookup c (.or l r)

theorem lookup_of_isColumnLookup (h : e.isColumnLookup = some c) : Lookup c e := by
  induction e with
  | constant | column | unary => cases h
  | is e v =>
      cases e with
      | column i =>
          obtain rfl := Option.some.inj h
          exact .is v
      | _ => cases h
  | binary op l r ihl ihr =>
      cases op with
      | equal =>
          cases l with
          | column i =>
              cases r with
              | constant v =>
                  obtain rfl := Option.some.inj h
                  exact .equal v
              | _ => cases h
          | constant v =>
              cases r with
              | column i =>
                  obtain rfl := Option.some.inj h
                  exact .equal' v
              | _ => cases h
          | _ => cases h
      | or =>
          rw [isColumnLookup] at h
          cases hl : l.isColumnLookup with
          | none => simp [hl] at h
          | some i =>
              cases hr : r.isColumnLookup with
              | none => simp [hl, hr] at h
              | some j =>
                  simp only [hl, hr] at h
                  split_ifs at h with hij
                  obtain rfl := Option.some.inj h
                  exact .or (ihl hl) (ihr (hij ▸ hr))
      | _ => cases h

theorem Lookup.mem_columns (h : Lookup c e) : c ∈ e.columns := by
  induction h with
  | equal | equal' | is => simp [columns]
  | or _ _ ihl _ => exact List.mem_append_left _ ihl

theorem Lookup.intoColumnValues (h : Lookup c e) : e.intoColumnValues c = .ok e.literals := by
  induction h with
  | equal v => simp [Expression.intoColumnValues, literals]
  | equal' v => simp [Expression.intoColumnValues, literals]
  | is v => simp [Expression.intoColumnValues, literals]
  | or _ _ ihl ihr =>
      rw [Expression.intoColumnValues, ihl, ihr]
      rfl

/-- A row whose value is stored like a listed one satisfies the lookup. -/
theorem Lookup.holds (h : Lookup c e) (hx : row[c]? = some x) (hdefined : e.Defined fn row)
    {v : Value} (hv : v ∈ e.literals) (hstored : v.stored = x.stored) : e.Holds fn row := by
  have hcolumn : (column c).evaluate fn (some row) = .ok x := by
    rw [evaluate, Option.bind_some, hx]
  induction h with
  | equal w =>
      obtain ⟨hw, rfl⟩ : w.isUndefined = false ∧ v = w := by
        unfold literals at hv
        split_ifs at hv with hw
        · cases hv
        · exact ⟨by simpa using hw, List.mem_singleton.mp hv⟩
      refine evaluate_binary.mpr ⟨x, v, hcolumn, rfl, ?_⟩
      exact Value.equal_of_stored hstored hw
  | equal' w =>
      obtain ⟨hw, rfl⟩ : w.isUndefined = false ∧ v = w := by
        unfold literals at hv
        split_ifs at hv with hw
        · cases hv
        · exact ⟨by simpa using hw, List.mem_singleton.mp hv⟩
      refine evaluate_binary.mpr ⟨v, x, rfl, hcolumn, ?_⟩
      apply Value.equal_of_stored hstored.symm
      rw [← Value.isUndefined_stored, ← hstored, Value.isUndefined_stored, hw]
  | is w =>
      obtain rfl : v = w := List.mem_singleton.mp hv
      obtain ⟨t, ht⟩ := hdefined
      cases v with
      | null =>
          have hnull : x = .null := Value.stored_eq_null.mp (by rw [← hstored]; rfl)
          unfold Holds
          rw [evaluate, hcolumn, hnull]
          rfl
      | float f =>
          simp only [evaluate] at ht
          split_ifs at ht with hf
          · cases x with
            | float g =>
                have hg : g.isNan = true := by
                  rw [← F64.isNan_serialize, ← Value.float.inj hstored, F64.isNan_serialize, hf]
                unfold Holds
                rw [evaluate, if_pos hf, hcolumn]
                show Except.ok (Value.boolean g.isNan) = _
                rw [hg]
            | _ => cases hstored
          · cases ht
      | boolean | integer | string => cases ht
  | or hl hr ihl ihr =>
      obtain ⟨t, ht⟩ := hdefined
      obtain ⟨s, u, hs, hu, -⟩ := evaluate_or.mp ht
      unfold literals at hv
      obtain hv | hv := List.mem_append.mp hv
      · have htrue : s = .true := by
          have hholds := ihl ⟨s, hs⟩ hv
          rw [Holds, hs] at hholds
          exact Value.ofTruth_injective (Except.ok.inj hholds)
        exact evaluate_or.mpr ⟨s, u, hs, hu, by rw [htrue]; cases u <;> rfl⟩
      · have htrue : u = .true := by
          have hholds := ihr ⟨u, hu⟩ hv
          rw [Holds, hu] at hholds
          exact Value.ofTruth_injective (Except.ok.inj hholds)
        exact evaluate_or.mpr ⟨s, u, hs, hu, by rw [htrue]; cases s <;> rfl⟩

/-- A lookup that has a value is a truth value. -/
theorem Lookup.defined (h : Lookup c e) {v : Value} (hv : e.evaluate fn (some row) = .ok v) :
    e.Defined fn row := by
  cases h with
  | equal w =>
      obtain ⟨a, b, -, -, hab⟩ := evaluate_binary.mp hv
      obtain rfl | ⟨b, rfl⟩ := Value.equal_ok hab
      · exact ⟨.unknown, hv⟩
      · exact ⟨.ofBool b, by rw [hv]; cases b <;> rfl⟩
  | equal' w =>
      obtain ⟨a, b, -, -, hab⟩ := evaluate_binary.mp hv
      obtain rfl | ⟨b, rfl⟩ := Value.equal_ok hab
      · exact ⟨.unknown, hv⟩
      · exact ⟨.ofBool b, by rw [hv]; cases b <;> rfl⟩
  | is w =>
      cases w with
      | null =>
          obtain ⟨a, -, ha⟩ := bind_eq_ok.mp hv
          obtain rfl := Except.ok.inj ha
          exact ⟨.ofBool (a.eq .null), by rw [hv, Value.isNull]; cases a.eq .null <;> rfl⟩
      | float f =>
          have hv' := hv
          simp only [evaluate] at hv'
          split_ifs at hv' with hf
          · obtain ⟨a, -, ha⟩ := bind_eq_ok.mp hv'
            cases a with
            | float g =>
                obtain rfl := Except.ok.inj ha
                exact ⟨.ofBool g.isNan, by rw [hv]; cases g.isNan <;> rfl⟩
            | null =>
                obtain rfl := Except.ok.inj ha
                exact ⟨.unknown, hv⟩
            | _ => cases ha
          · cases hv'
      | boolean | integer | string => cases hv
  | or _ _ =>
      obtain ⟨s, t, -, -, rfl⟩ := evaluate_or.mp hv
      exact ⟨_, hv⟩

end Expression

/-! ## The choice of a lookup -/

namespace IndexLookup
variable {fn : Builtins} {table : Table} {filter : Expression} {cnf : List Expression}

/-- Whether rows can be looked up by a column. -/
def isIndexed (table : Table) (c : ℕ) : Bool :=
  c = table.primaryKey || table.columns[c]?.any Column.index

/-- The first conjunct that lists values of the primary key or of an indexed column. -/
def chosen (table : Table) (cnf : List Expression) : Option (ℕ × Expression) :=
  cnf.findSome? fun e => (e.isColumnLookup.filter (isIndexed table)).map fun c => (c, e)

theorem findLookup_spec (hcolumns : ∀ e ∈ cnf, ∀ c ∈ e.columns, c < table.columns.length) (n : ℕ) :
    (findLookup table n cnf = .ok none ∧ chosen table cnf = none) ∨
    ∃ i c e, findLookup table n cnf = .ok (some (n + i, c)) ∧ cnf[i]? = some e ∧
      chosen table cnf = some (c, e) ∧ Expression.Lookup c e ∧ isIndexed table c = true := by
  induction cnf generalizing n with
  | nil => exact .inl ⟨rfl, rfl⟩
  | cons e cnf ih =>
      have hrest := ih (fun e' he' => hcolumns e' (List.mem_cons_of_mem _ he')) (n + 1)
      have hlater : (e.isColumnLookup.filter (isIndexed table)) = none →
          findLookup table n (e :: cnf) = findLookup table (n + 1) cnf →
          (findLookup table n (e :: cnf) = .ok none ∧ chosen table (e :: cnf) = none) ∨
          ∃ i c e', findLookup table n (e :: cnf) = .ok (some (n + i, c)) ∧
            (e :: cnf)[i]? = some e' ∧ chosen table (e :: cnf) = some (c, e') ∧
              Expression.Lookup c e' ∧ isIndexed table c = true := by
        intro hnone hfind
        have hchosen : chosen table (e :: cnf) = chosen table cnf := by
          unfold chosen
          rw [List.findSome?_cons, hnone]
          rfl
        rw [hfind, hchosen]
        obtain hrest | ⟨i, c, e', hfound, he', hrest⟩ := hrest
        · exact .inl hrest
        · refine .inr ⟨i + 1, c, e', ?_, by simpa using he', hrest⟩
          rw [hfound]
          congr 3
          omega
      cases hlookup : e.isColumnLookup with
      | none =>
          apply hlater
          · rw [hlookup]
            rfl
          · rw [findLookup, hlookup]
      | some c =>
          have he := Expression.lookup_of_isColumnLookup hlookup
          have hc : c < table.columns.length := hcolumns e List.mem_cons_self c he.mem_columns
          have hcolumn := List.getElem?_eq_getElem hc
          by_cases hindexed : isIndexed table c = true
          · refine .inr ⟨0, c, e, ?_, rfl, ?_, he, hindexed⟩
            · rw [findLookup, hlookup]
              dsimp only
              unfold isIndexed at hindexed
              split_ifs with hkey
              · rfl
              · rw [hcolumn] at hindexed ⊢
                have hindex : table.columns[c].index = true := by simpa [hkey] using hindexed
                dsimp only
                rw [if_pos hindex]
                rfl
            · unfold chosen
              rw [List.findSome?_cons, hlookup]
              simp [Option.filter, hindexed]
          · apply hlater
            · rw [hlookup]
              simp [Option.filter, hindexed]
            · rw [findLookup, hlookup]
              dsimp only
              unfold isIndexed at hindexed
              rw [hcolumn] at hindexed ⊢
              simp only [Bool.or_eq_true, decide_eq_true_eq, Option.any_some, not_or] at hindexed
              rw [if_neg hindexed.1]
              dsimp only
              rw [if_neg hindexed.2]

end IndexLookup

/-! ## Contents -/

/-- The rows of a table are stored under their primary keys, which are of one type, and the
index entries list the rows with a value. -/
structure Contents (table : Table) (db : OrderedMap Key Datum) : Prop where
  row {id : Value} {datum : Datum} (h : db.get (.row table.name id) = some datum) :
    id.stored = id ∧ ∃ row, datum = .row row ∧ row[table.primaryKey]? = some id ∧
      row.length = table.columns.length
  datatype {id id' : Value} {datum datum' : Datum} (h : db.get (.row table.name id) = some datum)
    (h' : db.get (.row table.name id') = some datum') : id.datatype = id'.datatype
  index {c : ℕ} {column : Column} (hc : table.columns[c]? = some column)
    (hindex : column.index = true) (value : Value) :
    ∃ set, (db.get (.ofIndex table.name column.name value) = some (.ids set) ∨
        db.get (.ofIndex table.name column.name value) = none ∧ set = []) ∧
      ∀ id, id ∈ set ↔ ∃ row, db.get (.row table.name id) = some (.row row) ∧
        row[c]?.map Value.stored = some value.stored

/-- The row with a primary key. -/
def rowAt (table : Table) (db : OrderedMap Key Datum) (id : Value) : Option Row :=
  match db.get (.ofRow table.name id) with
  | some (.row row) => some row
  | _ => none

section Counts
variable {fn : Builtins} {table : Table} {db : OrderedMap Key Datum} {id : Value} {row : Row}

theorem eval_bind {α β : Type} (x : Statement α) (f : α → Statement β) (a : α)
    (h : x.exec db = (.ok a, db)) : (x >>= f).exec db = (f a).exec db := by
  rw [Script.exec_bind, h]

theorem exec_get (hdb : Contents table db) (ids : List Value) :
    (Local.get table.name ids).exec db = (.ok (ids.filterMap (rowAt table db)), db) := by
  induction ids with
  | nil => rfl
  | cons id ids ih =>
      have hrow : (Local.getRow table.name id).exec db = (.ok (rowAt table db id), db) := by
        have hread : (Script.read (.ofRow table.name id)).exec db =
            (.ok (db.get (.ofRow table.name id)), db) := rfl
        unfold Local.getRow rowAt
        rw [eval_bind _ _ _ hread]
        cases hget : db.get (.ofRow table.name id) with
        | none => rfl
        | some datum =>
            obtain ⟨-, row, rfl, -⟩ := hdb.row hget
            rfl
      unfold Local.get
      rw [eval_bind _ _ _ hrow, eval_bind _ _ _ ih, List.filterMap_cons]
      cases rowAt table db id <;> rfl

theorem rowAt_eq_some (hdb : Contents table db) (hrow : db.get (.row table.name id) = some (.row row))
    (key : Value) : rowAt table db key = some row ↔ key.stored = id := by
  constructor
  · intro h
    unfold rowAt at h
    cases hget : db.get (.ofRow table.name key) with
    | none =>
        rw [hget] at h
        cases h
    | some datum =>
        obtain ⟨-, row', rfl, hkey, -⟩ := hdb.row hget
        rw [hget] at h
        obtain rfl := Option.some.inj h
        obtain ⟨-, row'', heq, hid, -⟩ := hdb.row hrow
        obtain rfl := Datum.row.inj heq
        exact Option.some.inj (hkey.symm.trans hid)
  · intro h
    unfold rowAt
    rw [Key.ofRow, h, hrow]

/-- A row is found as often as its primary key is listed. -/
theorem count_filterMap (hdb : Contents table db)
    (hrow : db.get (.row table.name id) = some (.row row)) (keys : List Value) :
    (keys.filterMap (rowAt table db)).count row = (keys.map Value.stored).count id := by
  induction keys with
  | nil => rfl
  | cons key keys ih =>
      have hiff := rowAt_eq_some hdb hrow key
      rw [List.filterMap_cons, List.map_cons, List.count_cons, ← ih]
      cases hat : rowAt table db key with
      | none =>
          rw [hat] at hiff
          have hne : ¬ key.stored = id := by simpa using hiff
          simp [hne]
      | some row' =>
          rw [hat] at hiff
          dsimp only
          rw [List.count_cons]
          by_cases hkey : key.stored = id
          · have heq : row' = row := Option.some.inj (hiff.mpr hkey)
            simp [hkey, heq]
          · have hne : ¬ row' = row := fun heq => hkey (hiff.mp (by rw [heq]))
            simp [hkey, hne]

theorem count_map_ok (rows : List Row) (row : Row) :
    (rows.map Except.ok : Rows).count (.ok row) = rows.count row :=
  List.count_map_of_injective rows _ (fun _ _ h => Except.ok.inj h) row

theorem selects_iff {p : Expression} (what : String) :
    p.selects fn what row = .ok true ↔ p.Holds fn row := by
  unfold Expression.selects Expression.Holds
  cases hp : p.evaluate fn (some row) with
  | error e =>
      constructor
      · intro h
        cases h
      · intro h
        cases h
  | ok v =>
      cases v with
      | boolean b =>
          constructor
          · intro h
            obtain rfl : b = true := Except.ok.inj h
            rfl
          · intro h
            obtain rfl : b = true := Value.boolean.inj (Except.ok.inj h)
            rfl
      | null | integer | float | string =>
          constructor
          · intro h
            cases h
          · intro h
            cases h

/-- A filter keeps the rows that satisfy it. -/
theorem count_filter (p : Expression) (rows : Rows) (row : Row) :
    (rows.filter fn p).count (.ok row) = if p.Holds fn row then rows.count (.ok row) else 0 := by
  induction rows with
  | nil => simp [Rows.filter]
  | cons item rows ih =>
      unfold Rows.filter at ih ⊢
      rw [List.filterMap_cons]
      cases item with
      | error e =>
          dsimp only
          rw [List.count_cons_of_ne (by simp), List.count_cons_of_ne (by simp), ih]
      | ok row' =>
          dsimp only
          by_cases heq : row' = row
          · subst heq
            cases hs : p.selects fn "filter" row' with
            | error e =>
                have hp : ¬ p.Holds fn row' := by
                  rw [← selects_iff "filter", hs]
                  simp
                dsimp only
                rw [List.count_cons_of_ne (by simp), ih, if_neg hp, if_neg hp]
            | ok b =>
                cases b with
                | false =>
                    have hp : ¬ p.Holds fn row' := by
                      rw [← selects_iff "filter", hs]
                      simp
                    dsimp only
                    rw [ih, if_neg hp, if_neg hp]
                | true =>
                    have hp : p.Holds fn row' := (selects_iff _).mp hs
                    dsimp only
                    rw [List.count_cons_self, List.count_cons_self, ih, if_pos hp, if_pos hp]
          · have hne : (Except.ok row' : Except Failure Row) ≠ .ok row := by simpa using heq
            rw [List.count_cons_of_ne hne]
            cases hs : p.selects fn "filter" row' with
            | error e =>
                dsimp only
                rw [List.count_cons_of_ne (by simp), ih]
            | ok b =>
                cases b with
                | false => exact ih
                | true =>
                    dsimp only
                    rw [List.count_cons_of_ne hne, ih]

/-- The primary keys that index entries list. -/
theorem exec_getIndexes (hdb : Contents table db) {c : ℕ} {column : Column}
    (hc : table.columns[c]? = some column) (hindex : column.index = true) (values : List Value) :
    ∃ ids, (Local.getIndexes table.name column.name values).exec db = (.ok ids, db) ∧
      ∀ id, id ∈ ids ↔ ∃ v ∈ values, ∃ row, db.get (.row table.name id) = some (.row row) ∧
        row[c]?.map Value.stored = some v.stored := by
  induction values with
  | nil => exact ⟨[], rfl, by simp⟩
  | cons v values ih =>
      obtain ⟨rest, hrest, hmem⟩ := ih
      obtain ⟨set, hset, hids⟩ := hdb.index hc hindex v
      have hfirst : (Local.getIndex table.name column.name v).exec db = (.ok set, db) := by
        have hread : (Script.read (.ofIndex table.name column.name v)).exec db =
            (.ok (db.get (.ofIndex table.name column.name v)), db) := rfl
        unfold Local.getIndex
        rw [eval_bind _ _ _ hread]
        obtain hset | ⟨hset, rfl⟩ := hset
        · rw [hset]
          rfl
        · rw [hset]
          rfl
      refine ⟨set ++ rest, ?_, ?_⟩
      · unfold Local.getIndexes
        rw [eval_bind _ _ _ hfirst, eval_bind _ _ _ hrest]
        rfl
      · intro id
        rw [List.mem_append, hids, hmem, List.exists_mem_cons_iff]

theorem exec_lookupIndex (hdb : Contents table db) {c : ℕ} {column : Column}
    (hc : table.columns[c]? = some column) (hindex : column.index = true) (values : List Value) :
    ∃ ids, (Local.lookupIndex table.name column.name values).exec db = (.ok ids, db) ∧
      ids.Nodup ∧ ∀ id, id ∈ ids ↔ ∃ v ∈ values, ∃ row,
        db.get (.row table.name id) = some (.row row) ∧
          row[c]?.map Value.stored = some v.stored := by
  obtain ⟨found, hfound, hmem⟩ := exec_getIndexes hdb hc hindex values
  have hrow : ∀ id ∈ found, ∃ row, db.get (.row table.name id) = some (.row row) := by
    intro id hid
    obtain ⟨v, -, row, hrow, -⟩ := (hmem id).mp hid
    exact ⟨row, hrow⟩
  have htypes : ∃ t, ∀ id ∈ found, id.datatype = t := by
    cases found with
    | nil => exact ⟨none, by simp⟩
    | cons id found =>
        refine ⟨id.datatype, ?_⟩
        intro id' hid'
        obtain ⟨row, hget⟩ := hrow id List.mem_cons_self
        obtain ⟨row', hget'⟩ := hrow id' hid'
        exact hdb.datatype hget' hget
  obtain ⟨t, ht⟩ := htypes
  obtain ⟨hset, huniform⟩ := ValueSet.ofList_spec ht
  refine ⟨ValueSet.ofList found, ?_, huniform.sorted.imp fun hlt => ne_of_lt hlt, ?_⟩
  · unfold Local.lookupIndex
    rw [eval_bind _ _ _ hfound]
    rfl
  · exact fun id => (hset id).trans (hmem id)

variable (fn) in
/-- A scan without a filter yields each row once. -/
theorem execute_scan (hdb : Contents table db) :
    ∃ list : List Row, executeNode fn db (.scan table none) = .ok (list.map .ok) ∧ list.Nodup ∧
      ∀ row, row ∈ list ↔ ∃ id, db.get (.row table.name id) = some (.row row) := by
  have hentries : ∀ e ∈ db.scan (Key.isRowOf table.name), ∃ id row,
      e = (.row table.name id, .row row) ∧ db.get (.row table.name id) = some (.row row) ∧
        row[table.primaryKey]? = some id := by
    rintro ⟨key, datum⟩ he
    obtain ⟨hget, hkey⟩ := OrderedMap.mem_scan.mp he
    cases key with
    | table | index => cases hkey
    | row t id =>
        obtain rfl : t = table.name := by simpa [Key.isRowOf] using hkey
        obtain ⟨-, row, rfl, hid, -⟩ := hdb.row hget
        exact ⟨id, row, rfl, hget, hid⟩
  have hlist : ∀ entries : List (Key × Datum), (∀ e ∈ entries, ∃ id row,
      e = (.row table.name id, .row row) ∧ db.get (.row table.name id) = some (.row row) ∧
        row[table.primaryKey]? = some id) → entries.Pairwise (fun a b => a.1 < b.1) →
      ∃ list : List Row, entries.map decodeRow = (list.map .ok : Rows) ∧ list.Nodup ∧
        ∀ row, row ∈ list ↔ ∃ id, (.row table.name id, .row row) ∈ entries := by
    intro entries
    induction entries with
    | nil => exact fun _ _ => ⟨[], rfl, List.nodup_nil, by simp⟩
    | cons e entries ih =>
        intro hall hsorted
        obtain ⟨hlt, hsorted⟩ := List.pairwise_cons.mp hsorted
        obtain ⟨list, hmap, hnodup, hmem⟩ :=
          ih (fun e' he' => hall e' (List.mem_cons_of_mem _ he')) hsorted
        obtain ⟨id, row, rfl, hget, hid⟩ := hall e List.mem_cons_self
        refine ⟨row :: list, ?_, List.nodup_cons.mpr ⟨?_, hnodup⟩, ?_⟩
        · rw [List.map_cons, hmap]
          rfl
        · intro hrow
          obtain ⟨id', he'⟩ := (hmem row).mp hrow
          obtain ⟨_, _, heq, -, hid'⟩ := hall _ (List.mem_cons_of_mem _ he')
          obtain ⟨hkey, hdatum⟩ := Prod.mk.inj heq
          obtain ⟨-, rfl⟩ := Key.row.inj hkey
          obtain rfl := Datum.row.inj hdatum
          obtain rfl := Option.some.inj (hid.symm.trans hid')
          exact lt_irrefl _ (hlt _ he')
        · intro row'
          rw [List.mem_cons, hmem]
          constructor
          · rintro (rfl | ⟨id', he'⟩)
            · exact ⟨id, List.mem_cons_self⟩
            · exact ⟨id', List.mem_cons_of_mem _ he'⟩
          · rintro ⟨id', he'⟩
            obtain heq | he' := List.mem_cons.mp he'
            · exact .inl (Datum.row.inj (Prod.mk.inj heq).2)
            · exact .inr ⟨id', he'⟩
  obtain ⟨list, hmap, hnodup, hmem⟩ := hlist _ hentries (OrderedMap.scan_sorted _ _)
  have hscan : executeNode fn db (.scan table none) = .ok (list.map .ok) :=
    Local.eval_scan_none.trans (congrArg Except.ok hmap)
  refine ⟨list, hscan, hnodup, ?_⟩
  intro row
  rw [hmem]
  constructor
  · rintro ⟨id, he⟩
    exact ⟨id, (OrderedMap.mem_scan.mp he).1⟩
  · rintro ⟨id, hget⟩
    exact ⟨id, OrderedMap.mem_scan.mpr ⟨hget, by simp [Key.isRowOf]⟩⟩

/-! ## The rows of a lookup -/

/-- How often a lookup in a column finds a row. -/
def times (table : Table) (c : ℕ) (values : List Value) (value : Value) : ℕ :=
  if c = table.primaryKey then (values.map Value.stored).count value.stored
  else if value.stored ∈ values.map Value.stored then 1 else 0

theorem times_eq_one_iff {c : ℕ} {values : List Value} {value : Value} :
    times table c values value = 1 ↔ value.stored ∈ values.map Value.stored ∧
      (c = table.primaryKey → (values.map Value.stored).count value.stored ≤ 1) := by
  unfold times
  split_ifs with hkey hmem
  · rw [← List.count_pos_iff]
    constructor
    · intro h
      exact ⟨by omega, fun _ => by omega⟩
    · intro h
      have := h.2 hkey
      omega
  · exact ⟨fun _ => ⟨hmem, fun h => absurd h hkey⟩, fun _ => rfl⟩
  · exact ⟨fun h => absurd h (by simp), fun h => absurd h.1 hmem⟩

theorem mem_of_times {c : ℕ} {values : List Value} {value : Value}
    (h : times table c values value ≠ 0) : value.stored ∈ values.map Value.stored := by
  unfold times at h
  split_ifs at h with hkey hmem
  · exact List.count_pos_iff.mp (Nat.pos_of_ne_zero h)
  · exact hmem
  · exact absurd rfl h

theorem times_of_mem {c : ℕ} {values : List Value} {value : Value}
    (h : value.stored ∈ values.map Value.stored) : times table c values value ≠ 0 := by
  unfold times
  split_ifs
  · exact (List.count_pos_iff.mpr h).ne'
  · exact one_ne_zero

/-- The node for a lookup. -/
def lookupNode (table : Table) (c : ℕ) (values : List Value) : Node :=
  if c = table.primaryKey then .keyLookup table values else .indexLookup table c values

variable (fn) in
theorem execute_lookupNode (hdb : Contents table db) {c : ℕ} (hc : c < table.columns.length)
    (hindexed : IndexLookup.isIndexed table c = true) (values : List Value) :
    ∃ list : List Row, executeNode fn db (lookupNode table c values) = .ok (list.map .ok) ∧
      (∀ row ∈ list, ∃ id, db.get (.row table.name id) = some (.row row)) ∧
      ∀ id row value, db.get (.row table.name id) = some (.row row) → row[c]? = some value →
        list.count row = times table c values value := by
  have hmem : ∀ ids : List Value, ∀ row ∈ ids.filterMap (rowAt table db),
      ∃ id, db.get (.row table.name id) = some (.row row) := by
    intro ids row hrow
    obtain ⟨id, -, hat⟩ := List.mem_filterMap.mp hrow
    unfold rowAt at hat
    split at hat
    · rename_i row' hget
      obtain rfl := Option.some.inj hat
      exact ⟨id.stored, hget⟩
    · cases hat
  have heval : ∀ ids : List Value, (Local.get table.name ids).eval db =
      .ok (ids.filterMap (rowAt table db)) := fun ids => congrArg Prod.fst (exec_get hdb ids)
  unfold lookupNode
  split_ifs with hkey
  · refine ⟨values.filterMap (rowAt table db), ?_, hmem values, ?_⟩
    · unfold executeNode
      rw [heval]
      rfl
    · intro id row value hget hvalue
      obtain ⟨hstored, row', heq, hid, -⟩ := hdb.row hget
      obtain rfl := Datum.row.inj heq
      rw [hkey, hid] at hvalue
      obtain rfl := Option.some.inj hvalue
      rw [count_filterMap hdb hget, times, if_pos hkey, hstored]
  · have hcolumn := List.getElem?_eq_getElem hc
    have hindex : table.columns[c].index = true := by
      unfold IndexLookup.isIndexed at hindexed
      rw [hcolumn] at hindexed
      simpa [hkey] using hindexed
    obtain ⟨ids, hids, hnodup, hfound⟩ := exec_lookupIndex hdb hcolumn hindex values
    refine ⟨ids.filterMap (rowAt table db), ?_, hmem ids, ?_⟩
    · unfold executeNode
      rw [hcolumn]
      have hlookup : (Local.lookupIndex table.name table.columns[c].name values).eval db =
          .ok ids := congrArg Prod.fst hids
      dsimp only
      rw [hlookup]
      show (Local.get table.name ids).eval db >>= _ = _
      rw [heval]
      rfl
    · intro id row value hget hvalue
      have hself : ids.map Value.stored = ids := by
        conv_rhs => rw [← List.map_id ids]
        refine List.map_congr_left fun id' hid' => ?_
        obtain ⟨_, _, row', hget', _⟩ := (hfound id').mp hid'
        exact (hdb.row hget').1
      have hlisted : id ∈ ids ↔ value.stored ∈ values.map Value.stored := by
        simp only [hfound, hget, Option.some.injEq, Datum.row.injEq, exists_eq_left', hvalue,
          Option.map_some, List.mem_map, eq_comm]
      rw [count_filterMap hdb hget, hself, times, if_neg hkey]
      split_ifs with h
      · exact List.count_eq_one_of_mem hnodup (hlisted.mpr h)
      · exact List.count_eq_zero.mpr fun hid => h (hlisted.mp hid)

end Counts

/-! ## The plan -/

section Plan
variable {fn : Builtins} {table : Table} {db : OrderedMap Key Datum} {filter : Expression}

/-- The rows with no filter or those that satisfy it. -/
def filtered (node : Node) : Option Expression → Node
  | none => node
  | some predicate => .filter node predicate

theorem mem_iff_of_getElem? {cnf : List Expression} {i : ℕ} {e : Expression} (he : cnf[i]? = some e)
    (e' : Expression) : e' ∈ cnf ↔ e' = e ∨ e' ∈ cnf.eraseIdx i := by
  obtain ⟨hi, rfl⟩ := List.getElem?_eq_some_iff.mp he
  rw [← List.mem_cons]
  exact (List.getElem_cons_eraseIdx_perm hi).symm.mem_iff

theorem indexLookup_spec (hcolumns : ∀ c ∈ filter.columns, c < table.columns.length) :
    (IndexLookup.indexLookup (.scan table (some filter)) = .ok (.scan table (some filter)) ∧
      IndexLookup.chosen table filter.intoCnfVec = none) ∨
    ∃ i c e, filter.intoCnfVec[i]? = some e ∧ Expression.Lookup c e ∧
      IndexLookup.isIndexed table c = true ∧
      IndexLookup.chosen table filter.intoCnfVec = some (c, e) ∧
      IndexLookup.indexLookup (.scan table (some filter)) = .ok
        (filtered (lookupNode table c e.literals)
          (Expression.andVec (filter.intoCnfVec.eraseIdx i))) := by
  have hcnf : ∀ e ∈ filter.intoCnfVec, ∀ c ∈ e.columns, c < table.columns.length :=
    fun e he c hc => hcolumns c (Expression.columns_intoCnfVec he hc)
  obtain ⟨hfind, hnone⟩ | ⟨i, c, e, hfind, he, hchosen, hlookup, hindexed⟩ :=
    IndexLookup.findLookup_spec hcnf 0
  · refine .inl ⟨?_, hnone⟩
    unfold IndexLookup.indexLookup
    dsimp only
    rw [hfind]
    rfl
  · refine .inr ⟨i, c, e, he, hlookup, hindexed, hchosen, ?_⟩
    rw [Nat.zero_add] at hfind
    unfold IndexLookup.indexLookup
    dsimp only
    rw [hfind]
    show (filter.intoCnfVec[i]?.map (Expression.intoColumnValues c)).getD _ >>= _ = _
    rw [he, Option.map_some, Option.getD_some, hlookup.intoColumnValues]
    unfold lookupNode
    cases Expression.andVec (filter.intoCnfVec.eraseIdx i) with
    | none => rfl
    | some predicate => rfl

/-- How often the plan emits a row that satisfies the filter. -/
def emissions (table : Table) (filter : Expression) (row : Row) : ℕ :=
  match IndexLookup.chosen table filter.intoCnfVec with
  | none => 1
  | some (c, e) => times table c e.literals (row[c]?.getD .null)

/-- What holds of the conjunction of expressions. -/
theorem holds_andVec {es : List Expression} {p : Expression} (h : Expression.andVec es = some p)
    {row : Row} : p.Holds fn row ↔ ∀ e ∈ es, e.Holds fn row := by
  rw [Expression.holds_iff_conjuncts, Expression.conjuncts_andVec h]
  constructor
  · intro hall e he
    rw [Expression.holds_iff_conjuncts]
    intro c hc
    exact hall c (List.mem_flatMap.mpr ⟨e, he, hc⟩)
  · intro hall c hc
    obtain ⟨e, he, hc⟩ := List.mem_flatMap.mp hc
    exact Expression.holds_iff_conjuncts.mp (hall e he) c hc

theorem defined_andVec {es : List Expression} {p : Expression} (h : Expression.andVec es = some p)
    {row : Row} (hall : ∀ e ∈ es, e.Defined fn row) : p.Defined fn row := by
  cases es with
  | nil => cases h
  | cons e es =>
      obtain rfl := Option.some.inj h
      have hfold : ∀ (es : List Expression) (e : Expression), e.Defined fn row →
          (∀ e' ∈ es, e'.Defined fn row) → (es.foldl Expression.and e).Defined fn row := by
        intro es
        induction es with
        | nil => exact fun e he _ => he
        | cons e' es ih =>
            intro e he hes
            obtain ⟨s, hs⟩ := he
            obtain ⟨t, ht⟩ := hes e' List.mem_cons_self
            apply ih _ _ fun e'' he'' => hes e'' (List.mem_cons_of_mem _ he'')
            exact ⟨s ⊓ t, Expression.evaluate_and.mpr ⟨s, t, hs, ht, rfl⟩⟩
      exact hfold es e (hall e List.mem_cons_self)
        fun e' he' => hall e' (List.mem_cons_of_mem _ he')

/-- The filtered rows of a list. -/
theorem execute_filtered {node : Node} {list : List Row}
    (h : executeNode fn db node = .ok (list.map .ok)) (es : List Expression) :
    ∃ rows, executeNode fn db (filtered node (Expression.andVec es)) = .ok rows ∧
      (∀ row, rows.count (.ok row) =
        if ∀ e ∈ es, e.Holds fn row then list.count row else 0) ∧
      ((∀ row ∈ list, ∀ e ∈ es, e.Defined fn row) → ∀ item ∈ rows, ∃ row ∈ list, item = .ok row) := by
  cases hp : Expression.andVec es with
  | none =>
      obtain rfl := Expression.andVec_eq_none.mp hp
      refine ⟨list.map .ok, h, ?_, ?_⟩
      · intro row
        rw [count_map_ok, if_pos (by simp)]
      · intro _ item hitem
        obtain ⟨row, hrow, rfl⟩ := List.mem_map.mp hitem
        exact ⟨row, hrow, rfl⟩
  | some p =>
      refine ⟨Rows.filter fn p (list.map .ok), ?_, ?_, ?_⟩
      · unfold filtered executeNode
        rw [h]
        rfl
      · intro row
        simp only [count_filter, count_map_ok, holds_andVec hp]
      · intro hdefined item hitem
        obtain ⟨item', hitem', hkept⟩ := List.mem_filterMap.mp hitem
        obtain ⟨row, hrow, rfl⟩ := List.mem_map.mp hitem'
        obtain ⟨t, ht⟩ := defined_andVec hp (hdefined row hrow)
        have hselects : p.selects fn "filter" row = .ok (decide (t = .true)) := by
          unfold Expression.selects
          rw [ht]
          cases t <;> rfl
        dsimp only at hkept
        rw [hselects] at hkept
        cases hb : decide (t = .true) with
        | false =>
            rw [hb] at hkept
            cases hkept
        | true =>
            rw [hb] at hkept
            exact ⟨row, hrow, (Option.some.inj hkept).symm⟩

variable (fn) in
/-- What the plan emits. -/
theorem execute_indexLookup (hdb : Contents table db)
    (hcolumns : ∀ c ∈ filter.columns, c < table.columns.length) :
    ∃ node rows, IndexLookup.indexLookup (.scan table (some filter)) = .ok node ∧
      executeNode fn db node = .ok rows ∧
      (∀ id row, db.get (.row table.name id) = some (.row row) → filter.Holds fn row →
        rows.count (.ok row) = emissions table filter row) ∧
      ((∀ id row, db.get (.row table.name id) = some (.row row) → filter.Defined fn row) →
        ∀ item ∈ rows, ∃ id row, item = .ok row ∧
            db.get (.row table.name id) = some (.row row) ∧ filter.Holds fn row) := by
  have hmember : ∀ {rows : Rows} {row : Row} {n : ℕ} {p : Prop} [Decidable p], .ok row ∈ rows →
      rows.count (.ok row) = (if p then n else 0) → p ∧ n ≠ 0 := by
    intro rows row n p _ hrow hcount
    have hpos := List.count_pos_iff.mpr hrow
    rw [hcount] at hpos
    split_ifs at hpos with hp
    · exact ⟨hp, by omega⟩
    · exact absurd hpos (lt_irrefl 0)
  obtain ⟨hnode, hchosen⟩ | ⟨i, c, e, he, hlookup, hindexed, hchosen, hnode⟩ :=
    indexLookup_spec hcolumns
  · obtain ⟨list, hlist, hnodup, hmem⟩ := execute_scan fn hdb
    obtain ⟨rows, hrows, hcount, hitems⟩ := execute_filtered hlist [filter]
    refine ⟨_, rows, hnode, hrows, ?_, ?_⟩
    · intro id row hget hholds
      rw [hcount, if_pos (by simpa using hholds), emissions, hchosen]
      exact List.count_eq_one_of_mem hnodup ((hmem row).mpr ⟨id, hget⟩)
    · intro hdefined item hitem
      obtain ⟨row, hrow, rfl⟩ := hitems (by
        intro row hrow e he
        obtain ⟨id, hget⟩ := (hmem row).mp hrow
        rw [List.mem_singleton.mp he]
        exact hdefined id row hget) item hitem
      obtain ⟨id, hget⟩ := (hmem row).mp hrow
      exact ⟨id, row, rfl, hget, by simpa using (hmember hitem (hcount row)).1⟩
  · have hc : c < table.columns.length := by
      apply hcolumns c
      exact Expression.columns_intoCnfVec (List.mem_of_getElem? he) hlookup.mem_columns
    obtain ⟨list, hlist, hmem, htimes⟩ := execute_lookupNode fn hdb hc hindexed e.literals
    obtain ⟨rows, hrows, hcount, hitems⟩ :=
      execute_filtered hlist (filter.intoCnfVec.eraseIdx i)
    have hvalue : ∀ id row, db.get (.row table.name id) = some (.row row) →
        row[c]? = some (row[c]?.getD .null) := by
      intro id row hget
      obtain ⟨-, row', heq, -, hlength⟩ := hdb.row hget
      obtain rfl := Datum.row.inj heq
      rw [List.getElem?_eq_getElem (by omega)]
      rfl
    refine ⟨_, rows, hnode, hrows, ?_, ?_⟩
    · intro id row hget hholds
      have hconjuncts := Expression.holds_iff_conjuncts.mp
        (hholds.refines (Expression.refines_intoCnf filter))
      rw [hcount, if_pos ?_, emissions, hchosen]
      · exact htimes id row _ hget (hvalue id row hget)
      · intro e' he'
        exact hconjuncts e' ((mem_iff_of_getElem? he e').mpr (.inr he'))
    · intro hdefined item hitem
      have hcnf : ∀ id row, db.get (.row table.name id) = some (.row row) →
          filter.intoCnf.Defined fn row := by
        intro id row hget
        obtain ⟨t, ht⟩ := hdefined id row hget
        exact ⟨t, Expression.refines_intoCnf filter _ _ ht⟩
      obtain ⟨row, hrow, rfl⟩ := hitems (by
        intro row hrow e' he'
        obtain ⟨id, hget⟩ := hmem row hrow
        exact (hcnf id row hget).conjuncts ((mem_iff_of_getElem? he e').mpr (.inr he'))) item hitem
      obtain ⟨id, hget⟩ := hmem row hrow
      refine ⟨id, row, rfl, hget, ?_⟩
      obtain ⟨hrest, hpositive⟩ := hmember hitem (hcount row)
      rw [htimes id row _ hget (hvalue id row hget)] at hpositive
      obtain ⟨v, hv, hstored⟩ := List.mem_map.mp (mem_of_times hpositive)
      have hchosen' : e.Holds fn row := by
        refine hlookup.holds (hvalue id row hget) ?_ hv hstored
        exact (hcnf id row hget).conjuncts ((mem_iff_of_getElem? he e).mpr (.inl rfl))
      have hall : filter.intoCnf.Holds fn row := by
        rw [Expression.holds_iff_conjuncts]
        intro e' he'
        obtain rfl | he' := (mem_iff_of_getElem? he e').mp he'
        · exact hchosen'
        · exact hrest e' he'
      obtain ⟨t, ht⟩ := hdefined id row hget
      have heq : filter.intoCnf.evaluate fn (some row) = .ok (.ofTruth t) :=
        Expression.refines_intoCnf filter _ _ ht
      unfold Expression.Holds at hall ⊢
      rw [ht, ← heq, hall]

/-- A row that satisfies the filter. -/
def Selected (fn : Builtins) (db : OrderedMap Key Datum) (table : Table) (filter : Expression)
    (row : Row) : Prop :=
  ∃ id, db.get (.row table.name id) = some (.row row) ∧ filter.Holds fn row

/-- The value of the row in the column of the lookup is stored like a listed one. -/
def Listed (table : Table) (filter : Expression) (row : Row) : Prop :=
  ∀ c e, IndexLookup.chosen table filter.intoCnfVec = some (c, e) →
    ∀ value, row[c]? = some value → value.stored ∈ e.literals.map Value.stored

/-- The primary key of the row is not listed twice. -/
def ListedOnce (table : Table) (filter : Expression) (row : Row) : Prop :=
  ∀ e, IndexLookup.chosen table filter.intoCnfVec = some (table.primaryKey, e) →
    ∀ id, row[table.primaryKey]? = some id → (e.literals.map Value.stored).count id.stored ≤ 1

theorem emissions_spec (hdb : Contents table db)
    (hcolumns : ∀ c ∈ filter.columns, c < table.columns.length) {row : Row}
    (hrow : Selected fn db table filter row) :
    (emissions table filter row ≠ 0 ↔ Listed table filter row) ∧
      (emissions table filter row = 1 ↔ Listed table filter row ∧ ListedOnce table filter row) := by
  obtain ⟨-, hnone⟩ | ⟨i, c, e, he, hlookup, -, hchosen, -⟩ := indexLookup_spec hcolumns
  · simp [emissions, Listed, ListedOnce, hnone]
  · obtain ⟨id, hget, -⟩ := hrow
    obtain ⟨-, row', heq, -, hlength⟩ := hdb.row hget
    obtain rfl := Datum.row.inj heq
    have hc : c < row.length := by
      rw [hlength]
      apply hcolumns c
      exact Expression.columns_intoCnfVec (List.mem_of_getElem? he) hlookup.mem_columns
    have hemissions : emissions table filter row = times table c e.literals row[c] := by
      rw [emissions, hchosen]
      dsimp only
      rw [List.getElem?_eq_getElem hc, Option.getD_some]
    have hlisted : Listed table filter row ↔ row[c].stored ∈ e.literals.map Value.stored := by
      constructor
      · intro h
        exact h c e hchosen _ (List.getElem?_eq_getElem hc)
      · intro h c' e' hchosen' value hvalue
        rw [hchosen] at hchosen'
        obtain ⟨rfl, rfl⟩ := Prod.mk.inj (Option.some.inj hchosen')
        rw [List.getElem?_eq_getElem hc] at hvalue
        exact Option.some.inj hvalue ▸ h
    have honce : ListedOnce table filter row ↔ (c = table.primaryKey →
        (e.literals.map Value.stored).count row[c].stored ≤ 1) := by
      constructor
      · rintro h rfl
        exact h e hchosen _ (List.getElem?_eq_getElem hc)
      · intro h e' hchosen' value hvalue
        rw [hchosen] at hchosen'
        obtain ⟨rfl, rfl⟩ := Prod.mk.inj (Option.some.inj hchosen')
        rw [List.getElem?_eq_getElem hc] at hvalue
        exact Option.some.inj hvalue ▸ h rfl
    rw [hemissions, hlisted, honce]
    exact ⟨⟨mem_of_times, times_of_mem⟩, times_eq_one_iff⟩

/-- A filter with a value is a truth value if one of its conjuncts is a lookup. -/
theorem defined_of_lookup {e : Expression} {c : ℕ} (he : e ∈ filter.intoCnfVec)
    (hlookup : Expression.Lookup c e) {row : Row} {v : Value}
    (hv : filter.evaluate fn (some row) = .ok v) : filter.Defined fn row := by
  have hcnf := Expression.refines_intoCnf filter _ _ hv
  have htruth : filter.intoCnf.Defined fn row := by
    have hconjuncts : filter.intoCnfVec = filter.intoCnf.conjuncts := rfl
    rw [hconjuncts] at he
    cases hform : filter.intoCnf with
    | binary op l r =>
        rw [hform] at hcnf he
        cases op with
        | and =>
            obtain ⟨s, t, -, -, rfl⟩ := Expression.evaluate_and.mp hcnf
            exact ⟨_, hcnf⟩
        | _ =>
            obtain rfl := List.mem_singleton.mp he
            exact hlookup.defined hcnf
    | _ =>
        rw [hform] at hcnf he
        obtain rfl := List.mem_singleton.mp he
        exact hlookup.defined hcnf
  obtain ⟨t, ht⟩ := htruth
  rw [hcnf] at ht
  exact ⟨t, hv.trans ht⟩

/-- The plan and the scan, on contents on which the filter has a value on each row. -/
theorem execute_evaluated (hdb : Contents table db)
    (hcolumns : ∀ c ∈ filter.columns, c < table.columns.length)
    (hvalues : ∀ id row, db.get (.row table.name id) = some (.row row) →
      ∃ v, filter.evaluate fn (some row) = .ok v) {node : Node} {rows scanned : Rows}
    (hnode : IndexLookup.indexLookup (.scan table (some filter)) = .ok node)
    (hrows : executeNode fn db node = .ok rows)
    (hscanned : executeNode fn db (.scan table (some filter)) = .ok scanned) :
    rows = scanned ∧ IndexLookup.chosen table filter.intoCnfVec = none ∨
    (∀ item ∈ rows, ∃ row, item = .ok row ∧ Selected fn db table filter row) ∧
      (∀ item ∈ scanned, ∃ row, item = .ok row ∧ Selected fn db table filter row) ∧
      ∀ row, Selected fn db table filter row → scanned.count (.ok row) = 1 := by
  obtain ⟨hscan, hnone⟩ | ⟨i, c, e, he, hlookup, -, -, -⟩ := indexLookup_spec hcolumns
  · rw [hscan] at hnode
    obtain rfl := Except.ok.inj hnode
    rw [hrows] at hscanned
    exact .inl ⟨Except.ok.inj hscanned, hnone⟩
  · have hdefined : ∀ id row, db.get (.row table.name id) = some (.row row) →
        filter.Defined fn row := by
      intro id row hget
      obtain ⟨v, hv⟩ := hvalues id row hget
      exact defined_of_lookup (List.mem_of_getElem? he) hlookup hv
    obtain ⟨list, hlist, hnodup, hmem⟩ := execute_scan fn hdb
    obtain ⟨scanned', hscanned', hscannedCount, hscannedItems⟩ := execute_filtered hlist [filter]
    obtain rfl : scanned' = scanned := Except.ok.inj (hscanned'.symm.trans hscanned)
    refine .inr ⟨?_, ?_, ?_⟩
    · intro item hitem
      obtain ⟨node', rows', hnode', hrows', -, hitems⟩ :=
        execute_indexLookup fn hdb hcolumns
      rw [hnode] at hnode'
      obtain rfl := Except.ok.inj hnode'
      rw [hrows] at hrows'
      obtain rfl := Except.ok.inj hrows'
      obtain ⟨id, row, rfl, hget, hholds⟩ := hitems hdefined item hitem
      exact ⟨row, rfl, id, hget, hholds⟩
    · intro item hitem
      obtain ⟨row, hrow, rfl⟩ := hscannedItems (by
        intro row hrow e he
        obtain ⟨id, hget⟩ := (hmem row).mp hrow
        rw [List.mem_singleton.mp he]
        exact hdefined id row hget) item hitem
      obtain ⟨id, hget⟩ := (hmem row).mp hrow
      refine ⟨row, rfl, id, hget, ?_⟩
      have hpos := List.count_pos_iff.mpr hitem
      rw [hscannedCount] at hpos
      by_contra hholds
      simp [hholds] at hpos
    · rintro row ⟨id, hget, hholds⟩
      rw [hscannedCount, if_pos (by simpa using hholds)]
      exact List.count_eq_one_of_mem hnodup ((hmem row).mpr ⟨id, hget⟩)

variable (fn filter) in
theorem execute_scanned (hdb : Contents table db) :
    ∃ scanned, executeNode fn db (.scan table (some filter)) = .ok scanned := by
  obtain ⟨list, hlist, -, -⟩ := execute_scan fn hdb
  obtain ⟨scanned, hscanned, -, -⟩ := execute_filtered hlist [filter]
  exact ⟨scanned, hscanned⟩

/-- The plan emits each selected row once, and so as often as the scan does, just if the
lookup lists the value of each selected row and lists none of their primary keys twice. -/
theorem lookup_once_iff (hdb : Contents table db)
    (hcolumns : ∀ c ∈ filter.columns, c < table.columns.length) :
    ∃ node rows scanned, IndexLookup.indexLookup (.scan table (some filter)) = .ok node ∧
      executeNode fn db node = .ok rows ∧
      executeNode fn db (.scan table (some filter)) = .ok scanned ∧
      ((∀ row, Selected fn db table filter row → rows.count (.ok row) = 1) ↔
        ∀ row, Selected fn db table filter row →
          Listed table filter row ∧ ListedOnce table filter row) ∧
      ((∀ id row, db.get (.row table.name id) = some (.row row) →
          ∃ v, filter.evaluate fn (some row) = .ok v) →
        (rows.Perm scanned ↔ ∀ row, Selected fn db table filter row →
          Listed table filter row ∧ ListedOnce table filter row)) := by
  obtain ⟨node, rows, hnode, hrows, hcount, -⟩ := execute_indexLookup fn hdb hcolumns
  obtain ⟨scanned, hscanned⟩ := execute_scanned fn filter hdb
  have hone : (∀ row, Selected fn db table filter row → rows.count (.ok row) = 1) ↔
      ∀ row, Selected fn db table filter row →
        Listed table filter row ∧ ListedOnce table filter row := by
    refine forall₂_congr fun row hrow => ?_
    rw [← (emissions_spec hdb hcolumns hrow).2]
    obtain ⟨id, hget, hholds⟩ := hrow
    rw [hcount id row hget hholds]
  refine ⟨node, rows, scanned, hnode, hrows, hscanned, hone, ?_⟩
  intro hvalues
  obtain ⟨rfl, hnone⟩ | ⟨hitems, hscanItems, hscan⟩ :=
    execute_evaluated hdb hcolumns hvalues hnode hrows hscanned
  · simp [Listed, ListedOnce, hnone]
  · rw [← hone]
    constructor
    · intro hperm row hrow
      rw [hperm.count_eq, hscan row hrow]
    · intro h
      rw [List.perm_iff_count]
      intro item
      by_cases hselected : ∃ row, item = .ok row ∧ Selected fn db table filter row
      · obtain ⟨row, rfl, hrow⟩ := hselected
        rw [h row hrow, hscan row hrow]
      · have hrows0 : item ∉ rows := fun hitem => hselected (hitems item hitem)
        have hscanned0 : item ∉ scanned := fun hitem => hselected (hscanItems item hitem)
        rw [List.count_eq_zero.mpr hrows0, List.count_eq_zero.mpr hscanned0]

/-- The plan yields the rows that the scan does just if the lookup lists the value of each
selected row. -/
theorem lookup_rows_iff (hdb : Contents table db)
    (hcolumns : ∀ c ∈ filter.columns, c < table.columns.length)
    (hvalues : ∀ id row, db.get (.row table.name id) = some (.row row) →
      ∃ v, filter.evaluate fn (some row) = .ok v) :
    ∃ node rows scanned, IndexLookup.indexLookup (.scan table (some filter)) = .ok node ∧
      executeNode fn db node = .ok rows ∧
      executeNode fn db (.scan table (some filter)) = .ok scanned ∧
      ((∀ item, item ∈ rows ↔ item ∈ scanned) ↔
        ∀ row, Selected fn db table filter row → Listed table filter row) := by
  obtain ⟨node, rows, hnode, hrows, hcount, -⟩ := execute_indexLookup fn hdb hcolumns
  obtain ⟨scanned, hscanned⟩ := execute_scanned fn filter hdb
  refine ⟨node, rows, scanned, hnode, hrows, hscanned, ?_⟩
  obtain ⟨rfl, hnone⟩ | ⟨hitems, hscanItems, hscan⟩ :=
    execute_evaluated hdb hcolumns hvalues hnode hrows hscanned
  · simp [Listed, hnone]
  · have hmem : ∀ row, Selected fn db table filter row →
        (.ok row ∈ rows ↔ Listed table filter row) := by
      intro row hrow
      rw [← (emissions_spec hdb hcolumns hrow).1]
      obtain ⟨id, hget, hholds⟩ := hrow
      rw [← hcount id row hget hholds, ← List.count_pos_iff]
      exact Nat.pos_iff_ne_zero
    have hscanMem : ∀ row, Selected fn db table filter row → .ok row ∈ scanned := by
      intro row hrow
      rw [← List.count_pos_iff, hscan row hrow]
      exact one_pos
    constructor
    · intro h row hrow
      exact (hmem row hrow).mp ((h _).mpr (hscanMem row hrow))
    · intro h item
      constructor
      · intro hitem
        obtain ⟨row, rfl, hrow⟩ := hitems item hitem
        exact hscanMem row hrow
      · intro hitem
        obtain ⟨row, rfl, hrow⟩ := hscanItems item hitem
        exact (hmem row hrow).mpr (h row hrow)

end Plan

/-! ## A repeated key and a float -/

/-- `CREATE TABLE numbers (id INTEGER PRIMARY KEY)`. -/
def numbers : Table where
  name := "numbers"
  primaryKey := 0
  columns := [⟨"id", .integer, false, none, true, false, none⟩]

/-- The number 1. -/
def one : OrderedMap Key Datum :=
  OrderedMap.empty.insert (.row "numbers" (.integer 1)) (.row [.integer 1])

/-- `id = 1 OR id = 1`. -/
def twice : Expression :=
  .or (.equal (.column 0) (.constant (.integer 1))) (.equal (.column 0) (.constant (.integer 1)))

/-- `id = 1.0`. -/
def asFloat : Expression := .equal (.column 0) (.constant (.float (F64.ofNat 1)))

theorem get_one {id : Value} {datum : Datum} (h : one.get (.row numbers.name id) = some datum) :
    id = .integer 1 ∧ datum = .row [.integer 1] := by
  unfold one at h
  rw [OrderedMap.get_insert] at h
  split_ifs at h with hkey
  · exact ⟨(Key.row.inj hkey).2, (Option.some.inj h).symm⟩
  · rw [OrderedMap.get_empty] at h
    cases h

theorem contents_one : Contents numbers one where
  row h := by
    obtain ⟨rfl, rfl⟩ := get_one h
    exact ⟨rfl, [.integer 1], rfl, rfl, rfl⟩
  datatype h h' := by
    rw [(get_one h).1, (get_one h').1]
  index hc hindex := by
    obtain ⟨hlt, rfl⟩ := List.getElem?_eq_some_iff.mp hc
    simp only [numbers, List.length_singleton, Nat.lt_one_iff] at hlt
    subst hlt
    cases hindex

theorem lookup_once_twice :
    ∃ node rows scanned, IndexLookup.indexLookup (.scan numbers (some twice)) = .ok node ∧
      executeNode Builtins.unused one node = .ok rows ∧
      executeNode Builtins.unused one (.scan numbers (some twice)) = .ok scanned ∧
      ((∀ row, Selected Builtins.unused one numbers twice row → rows.count (.ok row) = 1) ↔
        ∀ row, Selected Builtins.unused one numbers twice row →
          Listed numbers twice row ∧ ListedOnce numbers twice row) ∧
      ((∀ id row, one.get (.row numbers.name id) = some (.row row) →
          ∃ v, twice.evaluate Builtins.unused (some row) = .ok v) →
        (rows.Perm scanned ↔ ∀ row, Selected Builtins.unused one numbers twice row →
          Listed numbers twice row ∧ ListedOnce numbers twice row)) :=
  lookup_once_iff contents_one (by decide)

/-- The row whose key is listed twice is emitted twice. -/
theorem not_lookup_once : ∃ node rows row,
    IndexLookup.indexLookup (.scan numbers (some twice)) = .ok node ∧
      executeNode Builtins.unused one node = .ok rows ∧
      Selected Builtins.unused one numbers twice row ∧ rows.count (.ok row) = 2 := by
  refine ⟨.keyLookup numbers [.integer 1, .integer 1], [.ok [.integer 1], .ok [.integer 1]],
    [.integer 1], ?_, ?_, ⟨.integer 1, rfl, ?_⟩, ?_⟩
  · decide +kernel
  · decide +kernel
  · decide +kernel
  · decide +kernel

theorem lookup_rows_float :
    ∃ node rows scanned, IndexLookup.indexLookup (.scan numbers (some asFloat)) = .ok node ∧
      executeNode Builtins.unused one node = .ok rows ∧
      executeNode Builtins.unused one (.scan numbers (some asFloat)) = .ok scanned ∧
      ((∀ item, item ∈ rows ↔ item ∈ scanned) ↔
        ∀ row, Selected Builtins.unused one numbers asFloat row → Listed numbers asFloat row) := by
  refine lookup_rows_iff contents_one (by decide) ?_
  intro id row h
  obtain ⟨-, hrow⟩ := get_one h
  obtain rfl := Datum.row.inj hrow
  exact ⟨.boolean true, by decide +kernel⟩

/-- The integer 1 equals the float 1.0, but is not found by it. -/
theorem not_lookup_rows : ∃ node row,
    IndexLookup.indexLookup (.scan numbers (some asFloat)) = .ok node ∧
      executeNode Builtins.unused one node = .ok [] ∧
      executeNode Builtins.unused one (.scan numbers (some asFloat)) = .ok [.ok row] := by
  refine ⟨.keyLookup numbers [.float (F64.ofNat 1)], [.integer 1], ?_, ?_, ?_⟩
  · decide +kernel
  · decide +kernel
  · decide +kernel

end ToyDB.Sql
