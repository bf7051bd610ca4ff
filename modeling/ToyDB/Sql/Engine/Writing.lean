import ToyDB.Sql.Engine.Validation

/-!
# Writing rows with their index entries

A row is written key by key: its own entry, and one index entry for each indexed column.
While a statement walks through the columns, the index entries of the columns that are left
still list the old row.
-/
namespace ToyDB.Sql
open ToyDB.Collections ToyDB.Mvcc ToyDB.Mvcc.Script

/-- What a statement does to the entries of one table. -/
structure Wrote (exact : Value → Prop) (table : Table) (rows : Value → Option Row)
    (S S' : Snapshot) : Prop where
  housed : Housed exact S' table
  frame (key : Key) : key.owner ≠ table.name ∨ key = .table table.name → S' key = S key
  rows (id : Value) : S'.rowAt table.name id = rows id

/-- Where the old value equals the new one, it is stored alike if its index entry counts. -/
def Settled (exact : Value → Prop) (old row : Row) : Prop :=
  ∀ {i : ℕ} {before after : Value}, old[i]? = some before → row[i]? = some after →
    before.eq after = true → exact before ∨ exact after.stored → before = after.stored

/-- The rows in the index of each column, while one row changes. -/
def during (rows : Value → Option Row) (id : Value) (old new : Option Row) (left : List ℕ) (i : ℕ)
    (id' : Value) : Option Row :=
  if id' = id then if i ∈ left then old else new else rows id'

/-- The index entries of the columns that are left still list the old row. -/
structure Moving (exact : Value → Prop) (table : Table) (S : Snapshot) (rows : Value → Option Row)
    (id : Value) (old new : Option Row) (left : List ℕ) (S' : Snapshot) : Prop where
  linked : Linked exact table (during rows id old new left) S'
  frame (key : Key) : (∀ c v, key ≠ .index table.name c v) → S' key = S key

section Moving
variable {exact : Value → Prop} {table : Table} {S S' : Snapshot} {rows : Value → Option Row}
  {id : Value} {old new : Option Row} {row row' : Row} {left : List ℕ} {i : ℕ}

theorem during_cons_self : during rows id old new (i :: left) i id = old := by simp [during]

theorem during_left (hi : i ∉ left) : during rows id old new left i id = new := by
  simp [during, hi]

theorem during_other {j : ℕ} {id' : Value} (h : j ≠ i ∨ id' ≠ id) :
    during rows id old new left j id' = during rows id old new (i :: left) j id' := by
  unfold during
  by_cases hid : id' = id
  · simp [hid, h.resolve_right (not_not.mpr hid)]
  · simp [hid]

/-- Before the first column, the indexes list the rows as they were. -/
theorem Moving.start (h : Linked exact table (fun _ => rows) S) (hold : rows id = old) :
    Moving exact table S rows id old new (table.indexes.map Prod.fst) S := by
  refine ⟨h.congr ?_ fun _ _ => rfl, fun _ _ => rfl⟩
  intro i hi id'
  unfold during
  split_ifs with hid
  · rw [hid, hold]
  · rfl

/-- There is nothing to do if the row stays as it was. -/
theorem Moving.same (h : Linked exact table (fun _ => rows) S) (hold : rows id = old) :
    Moving exact table S rows id old old left S := by
  refine ⟨h.congr ?_ fun _ _ => rfl, fun _ _ => rfl⟩
  intro i hi id'
  unfold during
  split_ifs with hid
  · rw [hid, hold]
  · rw [hid, hold]
  · rfl

/-- After the last column, they list the rows with the new one. -/
theorem Moving.rows_eq (h : Moving exact table S rows id old new [] S') :
    Linked exact table (fun _ => Function.update rows id new) S' := by
  refine h.linked.congr ?_ fun _ _ => rfl
  intro i hi id'
  unfold during
  rw [Function.update_apply, if_neg List.not_mem_nil]

/-- Nothing changes in a column with the same value. -/
theorem Moving.skip (h : Moving exact table S rows id (some row) (some row') (i :: left) S')
    (hleft : i ∉ left)
    (hvalue : ∀ v, exact v → (row[i]? = some v ↔ row'[i]? = some v)) :
    Moving exact table S rows id (some row) (some row') left S' := by
  refine ⟨⟨h.linked.entry, ?_⟩, h.frame⟩
  intro j column v hdistinct hindex hv id'
  rw [h.linked.mem hdistinct hindex hv id']
  by_cases hj : j = i ∧ id' = id
  · obtain ⟨rfl, rfl⟩ := hj
    rw [during_cons_self, during_left hleft]
    simp [hvalue v hv]
  · have hother : during rows id (some row) (some row') left j id' =
        during rows id (some row) (some row') (i :: left) j id' := during_other (by tauto)
    rw [hother]

end Moving

/-- One row was written, with its index entries. -/
theorem Housed.wrote {exact : Value → Prop} {table : Table} {S S' : Snapshot} {id : Value}
    {new : Option Row} (hS : Housed exact S table)
    (hrow : ∀ id', S' (.row table.name id') =
      if id' = id then new.map Datum.row else S (.row table.name id'))
    (hnew : ∀ row ∈ new, table.Fits id row)
    (hlinked : Linked exact table (fun _ => Function.update (S.rowAt table.name) id new) S')
    (hframe : ∀ key : Key, key.owner ≠ table.name ∨ key = .table table.name → S' key = S key) :
    Wrote exact table (Function.update (S.rowAt table.name) id new) S S' := by
  have hrows : ∀ id', S'.rowAt table.name id' = Function.update (S.rowAt table.name) id new id' := by
    intro id'
    rw [Function.update_apply, Snapshot.rowAt, hrow]
    by_cases hid : id' = id
    · rw [if_pos hid, if_pos hid]
      cases new <;> rfl
    · rw [if_neg hid, if_neg hid, Snapshot.rowAt]
  refine ⟨⟨?_, hlinked.congr (fun _ _ id' => hrows id') fun _ _ => rfl⟩, hframe, hrows⟩
  intro id' datum hget
  rw [hrow] at hget
  split_ifs at hget with hid
  · obtain ⟨row, hrow, rfl⟩ := Option.map_eq_some_iff.mp hget
    exact ⟨row, rfl, hid ▸ hnew row hrow⟩
  · exact hS.row hget

namespace Local
variable {exact : Value → Prop} {table : Table} {S S' : Snapshot} {rows : Value → Option Row}
  {id value : Value} {old row : Row} {left : List ℕ} {i : ℕ} {column : Column}
  {t c : String}

theorem ensures_nth {α : Type} {list : List α} : Ensures (fun d => d.view.get = S) (nth list i)
    fun a d => d.view.get = S ∧ list[i]? = some a :=
  reads_nth.ensures fun _ _ hd ha => ⟨hd, ha⟩

theorem ensures_getIndex : Ensures (fun d => d.view.get = S) (getIndex t c value)
    fun set d => d.view.get = S ∧ S.Finds (.ofIndex t c value) set :=
  reads_getIndex.ensures fun _ _ hd hset => ⟨hd, hd ▸ hset⟩

theorem ensures_getRow : Ensures (fun d => d.view.get = S) (getRow t id)
    fun found d => d.view.get = S ∧ S.rowAt t id.stored = found := by
  refine reads_getRow.ensures fun found d hd hfound => ⟨hd, ?_⟩
  rw [hd] at hfound
  cases found with
  | none =>
      rw [Snapshot.rowAt]
      rw [Key.ofRow, Option.map_none] at hfound
      rw [hfound]
  | some row => exact Snapshot.rowAt_eq_some.mpr hfound

theorem get_put_eq {d : Draft Key Datum} {key : Key} {datum : Option Datum} (hd : d.view.get = S) :
    (d.put key datum).view.get = Function.update S key datum := by
  funext k
  rw [Draft.get_put, Function.update_apply, hd]
  split_ifs <;> rfl

theorem ensures_setIndex {ids : ValueSet} : Ensures (fun d => d.view.get = S) (setIndex t c value ids)
    fun _ d => d.view.get = Function.update S (.ofIndex t c value)
      (if ids = [] then none else some (.ids ids.stored)) := by
  unfold setIndex
  split_ifs with hids
  · exact ensures_delete fun d hd => get_put_eq hd
  · exact ensures_set fun d hd => get_put_eq hd

theorem ensures_unlink : Ensures (fun d => d.view.get = S) (unlink t c value id)
    fun _ d => ∃ set, S.Finds (.ofIndex t c value) set ∧
      d.view.get = Function.update S (.ofIndex t c value)
        (if ValueSet.remove id set = [] then none else some (.ids (ValueSet.remove id set).stored)) := by
  refine ensures_getIndex.bind fun set d ⟨hd, hset⟩ => ?_
  exact after_mono (ensures_setIndex d hd) fun _ d' hd' => ⟨set, hset, hd'⟩

theorem ensures_link : Ensures (fun d => d.view.get = S) (link t c value id)
    fun _ d => ∃ set, S.Finds (.ofIndex t c value) set ∧
      d.view.get = Function.update S (.ofIndex t c value)
        (if ValueSet.insert id set = [] then none else some (.ids (ValueSet.insert id set).stored)) := by
  refine ensures_getIndex.bind fun set d ⟨hd, hset⟩ => ?_
  exact after_mono (ensures_setIndex d hd) fun _ d' hd' => ⟨set, hset, hd'⟩

/-- A walk through the indexed columns. -/
theorem ensures_indexes {f : ℕ × Column → Statement Unit} {old new : Option Row}
    (h : ∀ i column left S', (i, column) ∈ table.indexes → i ∉ left →
      Moving exact table S rows id old new (i :: left) S' →
      Ensures (fun d => d.view.get = S') (f (i, column))
        fun _ d => Moving exact table S rows id old new left d.view.get) :
    Ensures (fun d => Moving exact table S rows id old new (table.indexes.map Prod.fst) d.view.get)
      (table.indexes.forM f) fun _ d => Moving exact table S rows id old new [] d.view.get := by
  let I (l : List (ℕ × Column)) (d : Draft Key Datum) : Prop := (∀ b ∈ l, b ∈ table.indexes) ∧
    (l.map Prod.fst).Nodup ∧ Moving exact table S rows id old new (l.map Prod.fst) d.view.get
  have hloop : Ensures (I table.indexes) (table.indexes.forM f) fun _ => I [] := by
    apply ensures_forM
    intro b l d ⟨hmem, hnodup, hmoving⟩
    obtain ⟨hb, hnodup⟩ := List.nodup_cons.mp hnodup
    refine after_mono (h b.1 b.2 _ _ (hmem b List.mem_cons_self) hb hmoving d rfl) ?_
    exact fun _ d' hd' => ⟨fun b' hb' => hmem b' (List.mem_cons_of_mem _ hb'), hnodup, hd'⟩
  exact hloop.mono (fun d hd => ⟨fun b hb => hb, table.indexes_nodup, hd⟩) fun _ d hd => hd.2.2

/-! ## Deleting a row -/

/-- The index entries of a row go first. -/
theorem ensures_unlinkRow (hS : Housed exact S table) (hrow : S.rowAt table.name id = some row) :
    Ensures (fun d => d.view.get = S)
      (table.indexes.forM fun (i, column) => do
        unlink table.name column.name (← nth row i) id)
      fun _ d => Moving exact table S (S.rowAt table.name) id (some row) none [] d.view.get := by
  obtain ⟨_, hdatum, hfits⟩ := hS.row (Snapshot.rowAt_eq_some.mp hrow)
  obtain rfl := Datum.row.inj hdatum
  have hstart : Moving exact table S (S.rowAt table.name) id (some row) none
      (table.indexes.map Prod.fst) S := Moving.start hS.linked hrow
  refine Ensures.mono (ensures_indexes ?_) (fun d hd => by rw [hd]; exact hstart) fun _ d hd => hd
  intro i column left S' hindex hleft hmoving
  refine ensures_nth.bind fun value d ⟨hd, hvalue⟩ => ?_
  refine after_mono (ensures_unlink d hd) ?_
  rintro - d' ⟨set, hset, hd'⟩
  rw [hd']
  constructor
  · exact hmoving.linked.unlink hindex hfits.datatype hset during_cons_self hvalue
      (hfits.value_stored hvalue) (during_left hleft) fun j id' hne => during_other hne
  · intro key hkey
    have hne : key ≠ .ofIndex table.name column.name value := hkey _ _
    rw [Function.update_of_ne hne]
    exact hmoving.frame key hkey

/-- Deletes the rows that the deletion of one row deletes. -/
theorem ensures_deleteRow (hS : Housed exact S table) (hid : id.stored = id) :
    Ensures (fun d => d.view.get = S) (deleteRow table id) fun _ d =>
      Wrote exact table (Function.update (S.rowAt table.name) id none) S d.view.get := by
  unfold deleteRow
  extract_lets delete
  have hdelete : ∀ u (d : Draft Key Datum),
      Moving exact table S (S.rowAt table.name) id (S.rowAt table.name id) none [] d.view.get →
      (delete u).after (fun _ d =>
        Wrote exact table (Function.update (S.rowAt table.name) id none) S d.view.get) d := by
    intro u d hd
    refine hS.wrote ?_ (fun _ h => nomatch h) ?_ ?_
    · intro id'
      rw [Draft.get_put, Key.ofRow, hid, hd.frame _ (by simp)]
      simp only [Key.row.injEq, true_and, Option.map_none]
    · refine hd.rows_eq.congr (fun _ _ _ => rfl) fun c v => ?_
      rw [Draft.get_put, if_neg (by simp [Key.ofRow])]
    · intro key hkey
      rw [Draft.get_put, if_neg, hd.frame key]
      · rintro c v rfl
        simp [Key.owner] at hkey
      · rintro rfl
        simp [Key.owner, Key.ofRow] at hkey
  split_ifs with hindexes
  · refine Ensures.bind ensures_getRow fun found d ⟨hd, hfound⟩ => ?_
    rw [hid] at hfound
    cases found with
    | none =>
        refine hdelete () d ?_
        rw [hd, hfound]
        exact Moving.same hS.linked hfound
    | some row =>
        apply after_bind
        refine after_mono (ensures_unlinkRow hS hfound d hd) fun u d' hd' => hdelete u d' ?_
        rw [hfound]
        exact hd'
  · refine fun d hd => hdelete () d ?_
    have hstart : Moving exact table S (S.rowAt table.name) id (S.rowAt table.name id) none
        (table.indexes.map Prod.fst) S := Moving.start hS.linked rfl
    rw [not_not.mp hindexes] at hstart
    rw [hd]
    exact hstart

/-! ## Inserting a row -/

theorem ensures_validateRow {update : Bool} : Ensures (fun d => d.view.get = S)
    (validateRow table row update)
    fun _ d => d.view.get = S ∧ ∃ id, Validated S table update id row :=
  reads_validateRow.ensures fun _ _ hd h => ⟨hd, hd ▸ h⟩

theorem ensures_setRow : Ensures (fun d => d.view.get = S) (setRow t id row)
    fun _ d => d.view.get = Function.update S (.ofRow t id) (some (.row row.stored)) :=
  ensures_set fun _ hd => get_put_eq hd

theorem ensures_insertRow (hS : Housed exact S table) : Ensures (fun d => d.view.get = S)
    (insertRow table row) fun _ d => ∃ id, Validated S table false id row ∧
      Wrote exact table (Function.update (S.rowAt table.name) id.stored (some row.stored)) S
        d.view.get := by
  refine ensures_validateRow.bind fun _ d ⟨hd, id, hvalid⟩ => ?_
  refine after_bind (after_mono (ensures_nth d hd) ?_)
  rintro id' d ⟨hd, hkey⟩
  obtain rfl := Option.some.inj (hvalid.key.symm.trans hkey)
  refine after_bind (after_mono (ensures_setRow d hd) fun _ d hd => ?_)
  have hfits := hvalid.fits
  have htype : id.datatype = table.keyType := by
    rw [← Value.datatype_stored]
    exact hfits.datatype
  have hnone : S.rowAt table.name id.stored = none := by
    rw [Option.eq_none_iff_forall_ne_some]
    exact fun row' hrow' => hvalid.fresh rfl row' (Snapshot.rowAt_eq_some.mp hrow')
  have hstart : Moving exact table d.view.get (S.rowAt table.name) id.stored none (some row.stored)
      (table.indexes.map Prod.fst) d.view.get := by
    refine Moving.start ?_ hnone
    refine hS.linked.congr (fun _ _ _ => rfl) fun c v => ?_
    rw [hd, Function.update_of_ne (by simp [Key.ofRow])]
  refine after_mono (ensures_indexes ?_ d hstart) fun _ d' hd' => ⟨id, hvalid, ?_⟩
  · intro i column left S' hindex hleft hmoving
    refine ensures_nth.bind fun value d₁ ⟨hd₁, hvalue⟩ => ?_
    refine after_mono (ensures_link d₁ hd₁) ?_
    rintro - d₂ ⟨set, hset, hd₂⟩
    rw [if_neg ValueSet.insert_ne_nil] at hd₂
    rw [hd₂]
    constructor
    · refine hmoving.linked.link hindex htype hset during_cons_self (during_left hleft) ?_
        fun j id' hne => during_other hne
      rw [Row.getElem?_stored, hvalue, Option.map_some]
    · intro key hkey
      have hne : key ≠ .ofIndex table.name column.name value := hkey _ _
      rw [Function.update_of_ne hne]
      exact hmoving.frame key hkey
  · refine hS.wrote ?_ ?_ hd'.rows_eq ?_
    · intro id'
      rw [hd'.frame _ (by simp), hd, Function.update_apply, Key.ofRow]
      simp only [Key.row.injEq, true_and, Option.map_some]
    · rintro row' ⟨⟩
      exact hfits
    · intro key hkey
      rw [hd'.frame key, hd, Function.update_of_ne]
      · rintro rfl
        simp [Key.owner, Key.ofRow] at hkey
      · rintro c v rfl
        simp [Key.owner] at hkey

/-! ## Updating a row -/

theorem ensures_updateIndex (hfits : table.Fits id old)
    (hsettled : Settled exact old row) (hindex : (i, column) ∈ table.indexes) (hleft : i ∉ left)
    (hmoving : Moving exact table S rows id (some old) (some row.stored) (i :: left) S') :
    Ensures (fun d => d.view.get = S') (updateIndex table id old row i column)
      fun _ d => Moving exact table S rows id (some old) (some row.stored) left d.view.get := by
  refine ensures_nth.bind fun before d₁ ⟨hd₁, hbefore⟩ => ?_
  refine after_bind (after_mono (ensures_nth d₁ hd₁) ?_)
  rintro after d₂ ⟨hd₂, hafter⟩
  have hstored : row.stored[i]? = some after.stored := by
    rw [Row.getElem?_stored, hafter, Option.map_some]
  by_cases heq : before.eq after = true
  · rw [if_pos heq]
    show Moving exact table S rows id (some old) (some row.stored) left d₂.view.get
    rw [hd₂]
    refine hmoving.skip hleft fun v hv => ?_
    rw [hbefore, hstored, Option.some.injEq, Option.some.injEq]
    constructor
    · rintro rfl
      exact (hsettled hbefore hafter heq (Or.inl hv)).symm
    · rintro rfl
      exact hsettled hbefore hafter heq (Or.inr hv)
  · rw [if_neg heq]
    refine after_bind (after_mono (ensures_unlink d₂ hd₂) ?_)
    rintro - d₃ ⟨set, hset, hd₃⟩
    have hunlinked : Linked exact table (fun j id' => if j = i ∧ id' = id then none
        else during rows id (some old) (some row.stored) (i :: left) j id') d₃.view.get := by
      rw [hd₃]
      exact hmoving.linked.unlink hindex hfits.datatype hset during_cons_self hbefore
        (hfits.value_stored hbefore) (by simp) fun j id' hne => if_neg (by tauto)
    refine after_mono (ensures_link d₃ rfl) ?_
    rintro - d₄ ⟨set', hset', hd₄⟩
    rw [if_neg ValueSet.insert_ne_nil] at hd₄
    rw [hd₄]
    constructor
    · have hnew : during rows id (some old) (some row.stored) left i id.stored =
          some row.stored := by
        rw [hfits.id_stored]
        exact during_left hleft
      refine hunlinked.link hindex hfits.datatype hset' ?_ hnew hstored ?_
      · simp [hfits.id_stored]
      · intro j id' hne
        rw [hfits.id_stored] at hne
        rw [if_neg (by tauto)]
        exact during_other hne
    · intro key hkey
      have hne : ∀ value, key ≠ .ofIndex table.name column.name value := fun value => hkey _ _
      rw [Function.update_of_ne (hne after), hd₃, Function.update_of_ne (hne before)]
      exact hmoving.frame key hkey

/-- The primary key stays, and there is a row or there are no indexes. -/
theorem ensures_updateRow (hS : Housed exact S table) (hid : id.stored = id)
    (htype : id.datatype = table.keyType) {key : Value} (hkey : row[table.primaryKey]? = some key)
    (heq : id.eq key = true)
    (hsettled : table.Fits id row.stored → ∀ old, S.rowAt table.name id = some old →
      table.Fits id old → Settled exact old row) :
    Ensures (fun d => d.view.get = S) (updateRow table id row) fun _ d =>
      Validated S table true key row ∧ table.Fits id row.stored ∧
        Wrote exact table (Function.update (S.rowAt table.name) id (some row.stored)) S
          d.view.get := by
  refine ensures_nth.bind fun key' d ⟨hd, hkey'⟩ => ?_
  obtain rfl := Option.some.inj (hkey.symm.trans hkey')
  rw [if_neg (by simp [heq])]
  refine after_bind (after_mono (ensures_validateRow d hd) ?_)
  rintro - d ⟨hd, key', hvalid⟩
  obtain rfl := Option.some.inj (hkey.symm.trans hvalid.key)
  have hfits : table.Fits id row.stored := by
    have hfits := hvalid.fits
    have hdatatype : id.datatype = key.datatype := by
      rw [htype, ← hfits.datatype, Value.datatype_stored]
    have hundefined := Value.isUndefined_of_eq heq hdatatype
    rw [← Value.stored_of_eq heq hdatatype (hundefined.trans hvalid.defined), hid] at hfits
    exact hfits
  extract_lets write
  have hwrite : ∀ (u : Unit) (old : Option Row) (d : Draft Key Datum),
      Moving exact table S (S.rowAt table.name) id old (some row.stored) [] d.view.get →
      (write u).after (fun _ d => Validated S table true key row ∧ table.Fits id row.stored ∧
        Wrote exact table (Function.update (S.rowAt table.name) id (some row.stored)) S
          d.view.get) d := by
    intro u old d hd
    refine after_mono (ensures_setRow d rfl) fun _ d' hd' => ⟨hvalid, hfits, ?_⟩
    rw [hd']
    refine hS.wrote ?_ ?_ ?_ ?_
    · intro id'
      rw [Function.update_apply, Key.ofRow, hid, hd.frame _ (by simp)]
      simp only [Key.row.injEq, true_and, Option.map_some]
    · rintro row' ⟨⟩
      exact hfits
    · refine hd.rows_eq.congr (fun _ _ _ => rfl) fun c v => ?_
      rw [Function.update_of_ne (by simp [Key.ofRow])]
    · intro k hk
      rw [Function.update_of_ne, hd.frame k]
      · rintro c v rfl
        simp [Key.owner] at hk
      · rintro rfl
        simp [Key.owner, Key.ofRow] at hk
  have hstart : Moving exact table S (S.rowAt table.name) id (S.rowAt table.name id)
      (some row.stored) (table.indexes.map Prod.fst) S := Moving.start hS.linked rfl
  by_cases hindexes : table.indexes = []
  · rw [if_neg (not_not.mpr hindexes)]
    rw [hindexes] at hstart
    exact hwrite () _ d (by rw [hd]; exact hstart)
  · rw [if_pos hindexes]
    refine after_bind (after_mono (reads_get d) ?_)
    rintro found d' ⟨rfl, hfound⟩
    cases found with
    | nil => trivial
    | cons old found =>
        have hold : S.rowAt table.name id = some old := by
          obtain ⟨v, hv, hget⟩ := (hfound old).mp List.mem_cons_self
          obtain rfl := List.mem_singleton.mp hv
          rw [Key.ofRow, hid, hd] at hget
          exact Snapshot.rowAt_eq_some.mpr hget
        obtain ⟨_, hdatum, hfits'⟩ := hS.row (Snapshot.rowAt_eq_some.mp hold)
        obtain rfl := Datum.row.inj hdatum
        rw [hold] at hstart
        have hstart' : Moving exact table S (S.rowAt table.name) id (some old) (some row.stored)
            (table.indexes.map Prod.fst) d'.view.get := by
          rw [hd]
          exact hstart
        apply after_bind
        refine after_mono (ensures_indexes ?_ d' hstart') fun u d hd => hwrite u _ d hd
        intro i column left S' hindex hleft hmoving
        exact ensures_updateIndex hfits' (hsettled hfits _ hold hfits') hindex hleft hmoving

end Local
end ToyDB.Sql
