import ToyDB.Mvcc.Serial
import ToyDB.Sql.Engine.Referential
import ToyDB.Sql.Engine.Uniqueness

/-!
# Consistency of serial runs

When transactions run one after another, they keep every constraint of the schemas: types
and NULLs, primary keys, uniqueness and references. Tables are created and dropped between
and within them, and statements may fail.
-/
namespace ToyDB.Sql
open ToyDB.Collections ToyDB.Mvcc ToyDB.Mvcc.Script

/-- What the schemas of a database say of its entries. -/
structure Consistent (S : Snapshot) : Prop where
  /-- Rows and index entries belong to tables. -/
  owned {key : Key} {datum : Datum} : S key = some datum →
    ∃ table, S (.table key.owner) = some (.table table) ∧ table.name = key.owner
  /-- Rows have the length of their schema and values of its types, with NULL only where it is
  allowed, and stand under their primary keys. -/
  fits {table : Table} {id : Value} {row : Row} : S (.table table.name) = some (.table table) →
    S (.row table.name id) = some (.row row) → table.Fits id row
  /-- An index entry lists the rows with its value. -/
  listed {table : Table} {c : ℕ} {column : Column} {value : Value} :
    S (.table table.name) = some (.table table) → table.Distinct → (c, column) ∈ table.indexes →
    value.Defined → ∀ id, id ∈ S.idsAt table.name column.name value ↔
      ∃ row, S (.row table.name id) = some (.row row) ∧ row[c]? = some value
  /-- Rows with equal values in a unique column are the same. -/
  unique {table : Table} {c : ℕ} {column : Column} {id id' v v' : Value} {row row' : Row} :
    S (.table table.name) = some (.table table) → table.Distinct →
    table.columns[c]? = some column → column.unique = true →
    S (.row table.name id) = some (.row row) → S (.row table.name id') = some (.row row') →
    row[c]? = some v → row'[c]? = some v' → v.eq v' = true → v.Defined → id = id'
  /-- A value of a referencing column is the primary key of a row. -/
  names {table : Table} {c : ℕ} {target : String} {id v : Value} {row : Row} :
    S (.table table.name) = some (.table table) → table.Distinct → table.References c target →
    S (.row table.name id) = some (.row row) → row[c]? = some v → v ≠ .null →
    ∃ row', S (.row target v) = some (.row row')

/-- Unique columns other than the primary key are indexed. -/
def UniqueIndexed (S : Snapshot) : Prop :=
  ∀ {t : String} {table : Table} {c : ℕ} {column : Column}, S (.table t) = some (.table table) →
    table.columns[c]? = some column → column.unique = true → column.index = true ∨ c = table.primaryKey

/-- What statements preserve of rows and schemas. -/
structure Constrained (S : Snapshot) : Prop where
  referential : Referential S
  unique : UniqueRows S
  indexed : UniqueIndexed S

theorem Wrote.uniqueIndexed {exact : Value → Prop} {table : Table} {rows : Value → Option Row}
    {S S' : Snapshot} (hw : Wrote exact table rows S S') (h : UniqueIndexed S) : UniqueIndexed S' := by
  intro t source c column hsource
  rw [hw.table_eq] at hsource
  exact h hsource

theorem keepsRows_constrained : KeepsRows Value.Defined KeyTyped Constrained := by
  constructor
  · intro S S' table ids hwhole hS htable hids hunreferenced hw
    refine ⟨?_, ?_, hw.uniqueIndexed hS.indexed⟩
    · exact keepsRows_referential.deleted hwhole hS.referential htable hids hunreferenced hw
    · exact keepsRows_unique.deleted hwhole hS.unique htable (fun _ _ => trivial) hunreferenced hw
  · intro S S' table id row hwhole hS htable hvalid hw
    refine ⟨?_, ?_, hw.uniqueIndexed hS.indexed⟩
    · exact keepsRows_referential.inserted hwhole hS.referential htable hvalid hw
    · exact keepsRows_unique.inserted hwhole hS.unique htable hvalid hw
  · intro S S' table id key row hwhole hS htable hvalid hfits hw
    refine ⟨?_, ?_, hw.uniqueIndexed hS.indexed⟩
    · exact keepsRows_referential.rewritten hwhole hS.referential htable hvalid hfits hw
    · exact keepsRows_unique.rewritten hwhole hS.unique htable hvalid hfits hw

section Tables
variable {exact : Value → Prop} {S S' : Snapshot} {table : Table}

/-- A new table has no rows. -/
theorem UniqueRows.created (h : UniqueRows S) (hwhole : Whole exact S)
    (hnone : S (.table table.name) = none)
    (hS' : S' = Function.update S (.table table.name) (some (.table table.stored))) :
    UniqueRows S' := by
  intro source c column hsource hdistinct hindex hunique hc v hv id id' row row' hrow hrow' hvalue
    hvalue'
  have hrows : S'.rowAt source.name = S.rowAt source.name := by
    ext id : 1
    rw [Snapshot.rowAt, hS', Function.update_of_ne (by simp), Snapshot.rowAt]
  rw [hrows] at hrow hrow'
  have hold : S (.table source.name) = some (.table source) := by
    by_cases hname : source.name = table.name
    · obtain ⟨found, -, hfound, -⟩ := hwhole.fits (Option.isSome_iff_exists.mpr ⟨row, hrow⟩)
      rw [hname, hnone] at hfound
      cases hfound
    · rwa [hS', Function.update_of_ne (by simpa using hname)] at hsource
  exact h hold hdistinct hindex hunique hc hv hrow hrow' hvalue hvalue'

theorem UniqueRows.dropped (h : UniqueRows S)
    (hS' : S' = fun key => if key.owner = table.name then none else S key) : UniqueRows S' := by
  have hkept : ∀ {key : Key} {datum : Datum}, S' key = some datum → S key = some datum := by
    intro key datum hget
    rw [hS'] at hget
    dsimp only at hget
    split_ifs at hget
    exact hget
  intro source c column hsource hdistinct hindex hunique hc v hv id id' row row' hrow hrow'
  refine h (hkept hsource) hdistinct hindex hunique hc hv ?_ ?_
  · exact Snapshot.rowAt_eq_some.mpr (hkept (Snapshot.rowAt_eq_some.mp hrow))
  · exact Snapshot.rowAt_eq_some.mpr (hkept (Snapshot.rowAt_eq_some.mp hrow'))

theorem UniqueIndexed.created (h : UniqueIndexed S) (haccepted : Accepted S table)
    (hS' : S' = Function.update S (.table table.name) (some (.table table.stored))) :
    UniqueIndexed S' := by
  intro t source c column hsource hcolumn hunique
  rw [hS', Function.update_apply] at hsource
  split_ifs at hsource
  · obtain rfl := Datum.table.inj (Option.some.inj hsource)
    rw [Table.stored, List.getElem?_map] at hcolumn
    obtain ⟨column', hcolumn', rfl⟩ := Option.map_eq_some_iff.mp hcolumn
    exact (haccepted.columns hcolumn').unique hunique
  · exact h hsource hcolumn hunique

end Tables

theorem keepsTables_constrained {exact : Value → Prop} : KeepsTables exact Constrained := by
  constructor
  · intro S S' table hwhole hS hnone haccepted hS'
    refine ⟨?_, UniqueRows.created hS.unique hwhole hnone hS', UniqueIndexed.created hS.indexed haccepted hS'⟩
    exact keepsTables_referential.created hwhole hS.referential hnone haccepted hS'
  · intro S S' table hwhole hS htable hreferences hS'
    refine ⟨?_, UniqueRows.dropped hS.unique hS', ?_⟩
    · exact keepsTables_referential.dropped hwhole hS.referential htable hreferences hS'
    · intro t source c column hsource
      rw [hS'] at hsource
      dsimp only at hsource
      split_ifs at hsource
      exact hS.indexed hsource

theorem constrained_empty : Constrained fun _ => none := by
  refine ⟨referential_empty, ?_, ?_⟩
  · intro table c column h
    cases h
  · intro t table c column h
    cases h

/-- Intact entries with preserved constraints are consistent. -/
theorem Whole.consistent {S : Snapshot} (h : Whole Value.Defined S) (hS : Constrained S) :
    Consistent S := by
  have hfits : ∀ {table : Table} {id : Value} {row : Row},
      S (.table table.name) = some (.table table) → S (.row table.name id) = some (.row row) →
      table.Fits id row := by
    intro table id row htable hrow
    exact (h.present htable).2.fits (Snapshot.rowAt_eq_some.mpr hrow)
  constructor
  · intro key datum hget
    cases h key.owner with
    | absent h =>
        rw [h key rfl] at hget
        cases hget
    | present table hname htable h => exact ⟨table, htable, hname⟩
  · exact hfits
  · intro table c column value htable hdistinct hindex hvalue id
    rw [(h.present htable).2.linked.mem hdistinct hindex hvalue]
    simp only [Snapshot.rowAt_eq_some]
  · intro table c column id id' v v' row row' htable hdistinct hcolumn hunique hrow hrow' hv hv' heq
      hdefined
    have hrow₁ := hfits htable hrow
    have hrow₂ := hfits htable hrow'
    obtain rfl : v = v' := by
      have htypes := (hrow₁.admits hcolumn hv).datatype_eq (hrow₂.admits hcolumn hv') heq
      rw [← hrow₁.value_stored hv, ← hrow₂.value_stored hv', Value.stored_of_eq heq htypes hdefined]
    by_cases hkey : c = table.primaryKey
    · rw [hkey, hrow₁.key] at hv
      rw [hkey, hrow₂.key] at hv'
      rw [Option.some.inj hv, Option.some.inj hv']
    · have hindex := (hS.indexed htable hcolumn hunique).resolve_right hkey
      exact hS.unique htable hdistinct (Table.mem_indexes.mpr ⟨hcolumn, hindex⟩) hunique hkey hdefined
        (Snapshot.rowAt_eq_some.mpr hrow) (Snapshot.rowAt_eq_some.mpr hrow') hv hv'
  · intro table c target id v row htable hdistinct hreferences hrow hv hnull
    have hnamed := hS.referential.names htable hdistinct hreferences
      (Snapshot.rowAt_eq_some.mpr hrow) hv hnull
    obtain ⟨row', hrow'⟩ := Option.isSome_iff_exists.mp hnamed
    exact ⟨row', Snapshot.rowAt_eq_some.mp hrow'⟩

/-- The moves of transactions that run one after another. A transaction in which a statement
failed does not commit. -/
def SerialMoves (s : Sessions Key Datum) : Move Key Datum → Prop
  | .begin => ∀ p ∈ s.phases, p = .closed
  | .start i script => ∀ handle ∈ s.store.handles[i]?, ∃ op : Operation, script = op.script ∧
      op.Keyed (handle.state.viewMap s.store.engine).get
  | .commit i => s.phases[i]? = some (.idle false)
  | _ => True

theorem Operation.Keyed.lists {S : Snapshot} {op : Operation} (h : op.Keyed S) :
    op.Lists KeyTyped fun t => S (.table t) := by
  cases op with
  | createTable | dropTable | insert => trivial
  | delete t ids => exact fun table htable id hid => (h id hid).2 table htable
  | update t rows => exact fun table htable id hid => (h id hid).2 table htable

/-- All constraints of the schemas, as a constraint on committed states. -/
abbrev constraints : Constraint Key Datum :=
  tableIntegrity Value.Defined KeyTyped Constrained fun C S _ => C = S

theorem constraints_lawful : constraints.Lawful :=
  tableIntegrity_lawful keepsRows_constrained keepsTables_constrained
    fun _ _ _ _ hW _ hsame => hsame ▸ hW

theorem SerialMoves.serial {s : Sessions Key Datum} {move : Move Key Datum}
    (h : SerialMoves s move) : constraints.Serial s move := by
  cases move with
  | begin => exact h
  | start i script =>
      intro handle hi
      obtain ⟨op, hscript, hkeyed⟩ := h handle hi
      exact ⟨op, hscript, hkeyed.admissible, hkeyed.lists⟩
  | commit i => exact h
  | advance | rollback => trivial

/-- When transactions run one after another, the committed database is consistent at all times,
and so is what a transaction sees between its statements, if none of them failed. -/
theorem consistent_of_serial {s : Sessions Key Datum}
    (h : Sessions.Reachable SerialMoves Sessions.empty s) :
    Consistent s.current ∧ ∀ (i : ℕ) (handle : Handle Key Datum),
      s.store.handles[i]? = some handle → s.phases[i]? = some (.idle false) →
      Consistent (handle.state.viewMap s.store.engine).get := by
  have hself : ∀ S W, constraints.Compatible S S W :=
    fun S W => ⟨⟨fun _ _ => rfl, fun _ _ _ _ => rfl⟩, rfl⟩
  obtain ⟨hs, -⟩ := constraints_lawful.serial hself ⟨whole_empty, constrained_empty⟩
    (h.mono fun s move => SerialMoves.serial)
  constructor
  · exact hs.holds.1.consistent hs.holds.2
  · intro i handle hi hidle
    obtain ⟨S, W, -, hfine, hview⟩ := hs.idle hi hidle
    rw [hview]
    exact hfine.1.consistent hfine.2

/-- One transaction creates a table and commits, then a second one inserts a row. -/
theorem inserted_serial {value : Value} {steps : ℕ} {s : Sessions Key Datum}
    (h : inserted value steps = some s) : Sessions.Reachable SerialMoves Sessions.empty s := by
  obtain ⟨s₀, hs₀, hrun⟩ := Option.bind_eq_some_iff.mp h
  have hbegin : ∀ s : Sessions Key Datum,
      s.step .begin = some ⟨s.store.call .begin, s.phases ++ [.idle false]⟩ := fun _ => rfl
  have hempty : SerialMoves Sessions.empty .begin := fun _ hp => absurd hp List.not_mem_nil
  have hbegun := Sessions.Reachable.start.step hempty (hbegin Sessions.empty)
  have hcreates : ∀ move ∈ [Move.start 0 (Operation.createTable measured).script] ++
      List.replicate 3 (.advance 0), ∀ s, SerialMoves s move := by
    intro move hmove s
    simp only [List.mem_append, List.mem_cons, List.mem_replicate, List.not_mem_nil, or_false] at hmove
    obtain rfl | ⟨-, rfl⟩ := hmove
    · exact fun _ _ => ⟨_, rfl, trivial⟩
    · trivial
  have hinserts : ∀ move ∈ [Move.start 1 (Operation.insert "t" [[.integer 1, value]]).script] ++
      List.replicate steps (.advance 1), ∀ s, SerialMoves s move := by
    intro move hmove s
    simp only [List.mem_append, List.mem_cons, List.mem_replicate, List.not_mem_nil, or_false] at hmove
    obtain rfl | ⟨-, rfl⟩ := hmove
    · exact fun _ _ => ⟨_, rfl, trivial⟩
    · trivial
  -- the transaction that created the table commits
  obtain ⟨s₁, hs₁, hcommit⟩ := Sessions.run_append hs₀
  obtain ⟨s₂, hstep, hlast⟩ := Option.bind_eq_some_iff.mp hcommit
  cases hlast
  have hidle : s₁.phases[0]? = some (.idle false) := by
    have hphase : (Sessions.empty.run ([.begin, .start 0 (Operation.createTable measured).script] ++
        List.replicate 3 (.advance 0))).any (fun s => s.phases[0]?.any Phase.isIdle) = true := by
      decide +kernel
    rw [hs₁, Option.any_some] at hphase
    obtain ⟨p, hp, hclean⟩ := (Option.any_eq_true _ _).mp hphase
    rw [hp, Phase.eq_idle hclean]
  have hstarted := (hbegun.run hcreates hs₁).step (show SerialMoves s₁ (.commit 0) from hidle) hstep
  have hclosed : SerialMoves s₀ .begin := (provides_started hs₀).closed
  exact (hstarted.step hclosed (hbegin s₀)).run hinserts hrun

theorem consistent_of_serial_inserted : ∃ s handle,
    inserted (.float ⟨0x4014000000000000⟩) 7 = some s ∧ s.store.handles[1]? = some handle ∧
    (handle.state.viewMap s.store.engine).get (.row "t" (.integer 1)) =
      some (.row [.integer 1, .float ⟨0x4014000000000000⟩]) ∧
    Consistent s.current ∧ Consistent (handle.state.viewMap s.store.engine).get := by
  have hrun : ((inserted (.float ⟨0x4014000000000000⟩) 7).bind fun s => (Sessions.seen s 1).map
      fun db => db.get (.row "t" (.integer 1))) =
      some (some (.row [.integer 1, .float ⟨0x4014000000000000⟩])) := by decide +kernel
  obtain ⟨s, hs, h⟩ := Option.bind_eq_some_iff.mp hrun
  obtain ⟨db, hdb, hrow⟩ := Option.map_eq_some_iff.mp h
  obtain ⟨handle, hi, hidle, rfl⟩ := Sessions.seen_spec hdb
  obtain ⟨hcurrent, hseen⟩ := consistent_of_serial (inserted_serial hs)
  exact ⟨s, handle, hs, hi, hrow, hcurrent, hseen 1 handle hi hidle⟩

end ToyDB.Sql
