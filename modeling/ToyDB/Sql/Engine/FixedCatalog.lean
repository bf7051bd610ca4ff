import ToyDB.Sql.Engine.Concurrency

/-!
# Sessions on a fixed catalog

Transactions insert, update and delete rows of tables that were created before all of them.
Index entries then list just the rows with a value, unless an update replaces a NaN by a NaN
with other bits: the values are equal, so the index is left alone, but they are stored
differently.
-/
namespace ToyDB.Sql
open ToyDB.Collections ToyDB.Mvcc ToyDB.Mvcc.Script

/-- Empty tables. -/
def snapshotOf (catalog : List Table) : Snapshot
  | .table t => (catalog.find? fun table => table.name = t).map Datum.table
  | _ => none

/-- The sessions have committed empty tables, and no transaction is open. -/
structure Provides (s : Sessions Key Datum) (catalog : List Table) : Prop where
  reached : Sessions.Reachable (fun _ _ => True) Sessions.empty s
  closed (p : Phase Key Datum) : p ∈ s.phases → p = .closed
  current : s.current = snapshotOf catalog

section Start
variable {exact : Value → Prop} {I : Snapshot → Prop} {catalog : List Table} {s : Sessions Key Datum}

theorem good_snapshotOf (hI : I (snapshotOf catalog)) :
    Good exact I (fun t => snapshotOf catalog (.table t)) (snapshotOf catalog) := by
  refine ⟨fun t => ?_, hI, fun _ => rfl⟩
  cases hfind : catalog.find? fun table => table.name = t with
  | none =>
      refine .absent fun key hkey => ?_
      cases key with
      | table t' =>
          obtain rfl : t' = t := hkey
          rw [snapshotOf, hfind, Option.map_none]
      | index | row => rfl
  | some table =>
      have hname : table.name = t := by simpa using List.find?_some hfind
      refine .present table hname ?_ ⟨fun h => (nomatch h), fun h => (nomatch h), ?_⟩
      · rw [snapshotOf, hfind, Option.map_some]
      · intro i column v _ _ _ id
        refine iff_of_false List.not_mem_nil ?_
        rintro ⟨row, hrow, -⟩
        cases hrow

theorem Provides.sound (h : Provides s catalog) (hI : I (snapshotOf catalog))
    {compatible : Snapshot → Snapshot → (Key → Option (Option Datum)) → Prop} :
    (rowIntegrity exact I (fun t => snapshotOf catalog (.table t)) compatible).Sound s := by
  refine Constraint.Sound.of_closed ?_ h.closed ?_
  · exact Constraint.free_sound h.reached
  · change Good exact I _ s.current
    rw [h.current]
    exact good_snapshotOf hI

end Start

/-- The moves of transactions on a fixed catalog whose statements list stored primary keys. A
transaction in which a statement failed does not commit. -/
def KeyedMoves (s : Sessions Key Datum) : Move Key Datum → Prop
  | .start i script => ∀ handle ∈ s.store.handles[i]?, ∃ op : Operation, script = op.script ∧
      op.OnRows ∧ op.Keyed (handle.state.viewMap s.store.engine).get
  | .commit i => s.phases[i]? = some (.idle false)
  | _ => True

theorem KeyedMoves.permits {I : Snapshot → Prop} {tables : String → Option Datum}
    {s : Sessions Key Datum} {move : Move Key Datum} (h : KeyedMoves s move) :
    (rowIntegrity Value.Defined I tables fun _ _ _ => True).Permits s move := by
  cases move with
  | start i script =>
      intro handle hi
      obtain ⟨op, hscript, hrows, hkeyed⟩ := h handle hi
      exact ⟨op, hscript, hrows, hkeyed.admissible⟩
  | commit i => exact ⟨h, fun _ _ => trivial⟩
  | begin | advance | rollback => trivial

/-- A schema with a unique column of floats. -/
def measured : Table where
  name := "t"
  primaryKey := 0
  columns := [⟨"id", .integer, false, none, true, false, none⟩,
    ⟨"x", .float, false, none, true, true, none⟩]

/-- A transaction creates the table. -/
def started : Option (Sessions Key Datum) :=
  Sessions.empty.run ([.begin, .start 0 (Operation.createTable measured).script] ++
    List.replicate 3 (.advance 0) ++ [.commit 0])

theorem provides_started {s : Sessions Key Datum} (h : started = some s) : Provides s [measured] := by
  have hrun : started.map (fun s => (s.phases.all Phase.isClosed, s.store.history)) =
      some (true, [.committed 1, .wrote 1 (.table "t") (some (.table measured)), .began 1]) := by
    decide +kernel
  rw [h] at hrun
  obtain ⟨hphases, hhistory⟩ := Prod.mk.inj (Option.some.inj hrun)
  refine ⟨?_, ?_, ?_⟩
  · exact Sessions.Reachable.start.run (fun _ _ _ => trivial) h
  · exact fun p hp => Phase.eq_closed (List.all_eq_true.mp hphases p hp)
  · funext key
    obtain ⟨hself, hother⟩ := Sessions.current_of_single hhistory
    cases key with
    | table t =>
        by_cases ht : t = "t"
        · rw [ht, hself]
          rfl
        · have ht' : "t" ≠ t := fun h => ht h.symm
          rw [hother _ (by simpa using ht)]
          simp [ht', snapshotOf, measured]
    | index | row => exact hother _ (by simp)

/-- A second transaction inserts a row with this value. -/
def inserted (value : Value) (steps : ℕ) : Option (Sessions Key Datum) :=
  started.bind fun s => s.run ([.begin,
    .start 1 (Operation.insert "t" [[.integer 1, value]]).script] ++ List.replicate steps (.advance 1))

end ToyDB.Sql
