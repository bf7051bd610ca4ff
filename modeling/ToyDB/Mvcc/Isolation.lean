import ToyDB.Mvcc.Run

/-!
# Snapshot isolation

In every run, a transaction reads its own writes over the state that was committed when
it began, whatever the others do, and of two overlapping transactions at most one
commits a write of a key.
-/
namespace ToyDB.Mvcc
open ToyDB.Collections ToyDB.Effects ToyDB.Storage

variable {K V : Type} [LinearOrder K]

/-- Reads of a usable transaction in any world it lives in. -/
theorem Reaches.get_result {w : World K V} (hw : Reaches World.empty w) {handle : Handle K V}
    (hh : handle ∈ w.handles) (hu : w.Usable handle.state) (k : K) :
    (handle.state.get k w.engine).result = .ok (handle.read w.history k) := by
  have hv := hw.valid World.valid_empty
  rw [(handle.state.yields_get hv.represents.typed k).2.1]
  refine congrArg _ ((hv.handles handle hh).view_eq hv.legal hv.represents (fun hro => ?_) k)
  exact hu.resolve_left (by simp [hro])

/-- Every read returns the transaction's own latest write, or else what was committed
below its version when it began, and only its own writes change what it reads. -/
theorem snapshot_isolation {w : World K V} (hw : Reaches World.empty w) {handle : Handle K V}
    (hh : handle ∈ w.handles) (hu : w.Usable handle.state) (k : K) :
    (handle.state.get k w.engine).result = .ok (handle.read w.history k) ∧
      ∀ w', Reaches w w' → w'.Usable handle.state →
        (handle.state.readOnly = true ∨
          w'.history.written handle.state.version k = w.history.written handle.state.version k) →
        (handle.state.get k w'.engine).result = (handle.state.get k w.engine).result := by
  refine ⟨hw.get_result hh hu k, fun w' hw' hu' hsame => ?_⟩
  rw [hw.get_result hh hu k, (hw.trans hw').get_result (hw'.extends.2.subset hh) hu' k]
  unfold Handle.read
  rcases hsame with hro | hsame
  · simp only [hro, if_true]
  · rw [hsame]

/-- A write fails exactly if some stored version of the key is invisible, although only
the highest one is checked, and no update is lost. -/
theorem write_conflicts_complete {w : World K V} (hw : Reaches World.empty w) :
    (∀ handle ∈ w.handles, handle.state.readOnly = false →
      w.history.status handle.state.version = some .active → ∀ k,
        (∀ value, (handle.state.set k value w.engine).result = .error (.error .serialization) ↔
          ∃ v, (w.engine.get (.version k v)).isSome ∧ handle.state.isVisible v = false) ∧
        ((handle.state.delete k w.engine).result = .error (.error .serialization) ↔
          ∃ v, (w.engine.get (.version k v)).isSome ∧ handle.state.isVisible v = false)) ∧
    ∀ u v k, u ≠ v → w.history.Overlap u v →
      ¬ (w.history.CommittedWrite u k ∧ w.history.CommittedWrite v k) := by
  have hv := hw.valid World.valid_empty
  refine ⟨fun handle hh hro _ k => ?_, fun u v k hne ho => hv.legal.no_lost_update hne ho⟩
  have hwrite : ∀ value, (handle.state.writeVersion k value w.engine).result =
      .error (.error .serialization) ↔
        ∃ v, (w.engine.get (.version k v)).isSome ∧ handle.state.isVisible v = false := by
    intro value
    simp only [hv.represents.version, Option.isSome_map]
    rw [← (hv.handles handle hh).conflicts_iff hv.legal hv.represents hro k]
    have hr := (handle.state.yields_writeVersion (m := w.engine) k value).2
    simp only [hro, Bool.false_eq_true, if_false] at hr
    split_ifs at hr with hc
    · simp [hr.1, hc]
    · simp [hr.1, hc]
  exact ⟨fun value => hwrite (some value), hwrite none⟩

/-! ## A run -/

/-- Two transactions write key 1 one after the other; a third begins between them. -/
def twoWriters : List (Call ℕ ℕ) :=
  [.begin, .write 0 1 (some 5), .commit 0, .begin, .begin, .write 1 1 (some 7), .commit 1]

/-- The transaction of version 3 in that run. -/
def thirdHandle : Handle ℕ ℕ := ⟨⟨3, false, {2}⟩, [.began 2, .committed 1, .wrote 1 1 (some 5), .began 1]⟩

theorem twoWriters_reaches : Reaches World.empty (World.empty.run twoWriters) :=
  World.AllAllowed.reaches (by decide +kernel)

theorem thirdHandle_mem : thirdHandle ∈ (World.empty.run twoWriters).handles := by decide +kernel

theorem snapshot_isolation_two :
    (thirdHandle.state.get 1 (World.empty.run twoWriters).engine).result =
        .ok (thirdHandle.read (World.empty.run twoWriters).history 1) ∧
      thirdHandle.read (World.empty.run twoWriters).history 1 = some 5 :=
  ⟨(snapshot_isolation twoWriters_reaches thirdHandle_mem (by decide +kernel) 1).1,
    by decide +kernel⟩

theorem write_conflicts_complete_two :
    (thirdHandle.state.set 1 9 (World.empty.run twoWriters).engine).result =
      .error (.error .serialization) :=
  (((write_conflicts_complete twoWriters_reaches).1 thirdHandle thirdHandle_mem rfl
    (by decide +kernel) 1).1 9).mpr ⟨2, by decide +kernel, by decide⟩

end ToyDB.Mvcc
