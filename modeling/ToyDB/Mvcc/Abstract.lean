import ToyDB.Mvcc.Run

/-!
# The abstract store

The store without its engine: the handles of the transactions and the history. A call
changes them as it changes the store, so two runs with related handles and histories
have related engines.
-/
namespace ToyDB.Mvcc
open ToyDB.Collections ToyDB.Effects ToyDB.Storage

variable {K V : Type} [LinearOrder K]

structure Outline (K V : Type) where
  handles : List (Handle K V)
  history : History K V

/-- Some stored version of the key is invisible. -/
def Handle.Conflicts (handle : Handle K V) (h : History K V) (k : K) : Prop :=
  ∃ u, (h.stored u k).isSome ∧ handle.state.isVisible u = false

namespace Outline

/-- The outline after a transaction is opened. -/
def opened (o : Outline K V) (handle : Handle K V) : Outline K V :=
  { o with handles := o.handles ++ [handle] }

/-- The outline after an event of a transaction; read-only transactions have none. -/
def happened (o : Outline K V) (handle : Handle K V) (event : Event K V) : Outline K V :=
  if handle.state.readOnly then o else { o with history := event :: o.history }

open Classical in
/-- A call on a transaction. -/
noncomputable def use (o : Outline K V) (handle : Handle K V) : Call K V → Outline K V
  | .resume _ =>
      if handle.state.readOnly = true ∨ o.history.status handle.state.version = some .active then
        o.opened handle
      else o
  | .write _ k value =>
      if handle.Conflicts o.history k then o
      else o.happened handle (.wrote handle.state.version k value)
  | .commit _ => o.happened handle (.committed handle.state.version)
  | .rollback _ => o.happened handle (.rolledBack handle.state.version)
  | _ => o

noncomputable def call (o : Outline K V) : Call K V → Outline K V
  | .begin =>
      ⟨o.handles ++ [⟨⟨o.history.next, false, o.history.activeSet⟩, o.history⟩],
        .began o.history.next :: o.history⟩
  | .beginReadOnly => o.opened ⟨⟨o.history.next, true, o.history.activeSet⟩, o.history⟩
  | .beginAsOf v =>
      if o.history.next ≤ v then o
      else o.opened ⟨⟨v, true, (o.history.before v).activeSet⟩, o.history.before v⟩
  | .get _ _ => o
  | .resume i =>
      match o.handles[i]? with
      | some handle => o.use handle (.resume i)
      | none => o
  | .write i k value =>
      match o.handles[i]? with
      | some handle => o.use handle (.write i k value)
      | none => o
  | .commit i =>
      match o.handles[i]? with
      | some handle => o.use handle (.commit i)
      | none => o
  | .rollback i =>
      match o.handles[i]? with
      | some handle => o.use handle (.rollback i)
      | none => o

section Call
variable {o : Outline K V} {i : ℕ} {handle : Handle K V} (hi : o.handles[i]? = some handle)
include hi

theorem call_write {k : K} {value : Option V} :
    o.call (.write i k value) = o.use handle (.write i k value) := by
  simp only [call, hi]

theorem call_resume : o.call (.resume i) = o.use handle (.resume i) := by
  simp only [call, hi]

theorem call_commit : o.call (.commit i) = o.use handle (.commit i) := by
  simp only [call, hi]

theorem call_rollback : o.call (.rollback i) = o.use handle (.rollback i) := by
  simp only [call, hi]

end Call

/-- A call on a handle that does not exist does nothing. -/
theorem call_of_none {o : Outline K V} {i : ℕ} (hi : o.handles[i]? = none) :
    o.call (.resume i) = o ∧ o.call (.commit i) = o ∧ o.call (.rollback i) = o := by
  simp only [call, hi, and_self]

end Outline

def World.outline (w : World K V) : Outline K V := ⟨w.handles, w.history⟩

section Refinement
variable {w w' : World K V} {handle : Handle K V}

theorem World.outline_opened {seen : History K V} {x : Action K V TransactionState}
    {state : TransactionState} (hr : (x w.engine).result = .ok state) :
    (w.opened seen (x w.engine)).outline = w.outline.opened ⟨state, seen⟩ := by
  simp [World.opened, hr, World.outline, Outline.opened]

theorem World.outline_not_opened {seen : History K V} {x : Action K V TransactionState}
    {c : Failure} (hr : (x w.engine).result = .error c) :
    (w.opened seen (x w.engine)).outline = w.outline := by
  simp [World.opened, hr, World.outline]

theorem World.outline_finished {α : Type} {event : Event K V} {x : Action K V α} {a : α}
    (hr : (x w.engine).result = .ok a) :
    (w.finished (World.eventOf handle.state event) (x w.engine)).outline =
      w.outline.happened handle event := by
  cases hro : handle.state.readOnly <;>
    simp [World.finished, World.outline, Outline.happened, World.eventOf, hr, hro]

/-- A call on a handle that the store refines. -/
theorem World.Valid.use_outline (hw : w.Valid) (hh : handle ∈ w.handles) (c : Call K V) :
    (w.use handle c).outline = w.outline.use handle c := by
  have hv := hw.handles handle hh
  cases c with
  | begin | beginReadOnly | beginAsOf => rfl
  | resume i =>
      have hr := (yields_resume (m := w.engine) handle.state).2.2
      unfold World.use Outline.use
      rw [hw.represents.txnActive] at hr
      by_cases ha : handle.state.readOnly = true ∨
          w.history.status handle.state.version = some .active
      · rw [if_pos (by simpa using ha)] at hr
        rw [World.outline_opened hr]
        exact (if_pos ha).symm
      · rw [if_neg (by simpa using ha)] at hr
        rw [World.outline_not_opened hr]
        exact (if_neg ha).symm
  | get i k =>
      have hr := (handle.state.yields_get hw.represents.typed k).2.1
      simp [World.use, World.finished, hr, World.outline, Outline.use]
  | write i k value =>
      have hr := (handle.state.yields_writeVersion (m := w.engine) k value).2
      cases hro : handle.state.readOnly with
      | true =>
          simp only [hro, if_true] at hr
          simp only [World.use, Outline.use, World.finished, hr.1, Outline.happened, hro, if_true,
            ite_self]
          rfl
      | false =>
          have hconf : handle.Conflicts w.outline.history k ↔
              handle.state.conflicts w.engine k = true :=
            (hv.conflicts_iff hw.legal hw.represents hro k).symm
          simp only [hro, Bool.false_eq_true, if_false] at hr
          simp only [World.use, Outline.use]
          by_cases hc : handle.state.conflicts w.engine k = true
          · rw [if_pos hc] at hr
            rw [if_pos (hconf.mpr hc)]
            simp [World.finished, hr.1, World.outline]
          · rw [if_neg hc] at hr
            rw [if_neg (hconf.not.mpr hc)]
            simp [World.finished, hr.1, World.outline, Outline.happened, hro]
  | commit i => exact World.outline_finished (yields_commit handle.state).2.1
  | rollback i => exact World.outline_finished (yields_rollback handle.state).2.1

/-- The store refines the abstract store. -/
theorem World.Valid.call_outline (hw : w.Valid) (c : Call K V) :
    (w.call c).outline = w.outline.call c := by
  have huse : ∀ {i : ℕ} {c : Call K V}, (match w.handles[i]? with
      | some handle => w.use handle c
      | none => w).outline = match w.outline.handles[i]? with
        | some handle => w.outline.use handle c
        | none => w.outline := by
    intro i c
    change _ = match w.handles[i]? with
      | some handle => w.outline.use handle c
      | none => w.outline
    cases hi : w.handles[i]? with
    | none => rfl
    | some handle => exact hw.use_outline (List.mem_of_getElem? hi) c
  cases c with
  | begin =>
      have hr := (yields_begin hw.represents.typed).2.1
      rw [hw.represents.nextOf_eq, hw.represents.activeOf_eq hw.legal] at hr
      simp [World.call, hr, World.outline, Outline.call]
  | beginReadOnly =>
      have hr := (yields_beginReadOnly hw.represents.typed none).2.2
      simp only [hw.represents.nextOf_eq, hw.represents.activeOf_eq hw.legal] at hr
      exact World.outline_opened hr
  | beginAsOf v =>
      have hr := (yields_beginReadOnly hw.represents.typed (some v)).2.2
      simp only [hw.represents.nextOf_eq, hw.represents.snapshotOf_eq hw.legal] at hr
      unfold World.call Outline.call
      by_cases hle : w.history.next ≤ v
      · rw [if_pos hle] at hr
        rw [World.outline_not_opened hr]
        exact (if_pos hle).symm
      · rw [if_neg hle] at hr
        rw [World.outline_opened hr]
        exact (if_neg hle).symm
  | get i k =>
      unfold World.call Outline.call World.handleOf
      simp only
      cases hi : w.handles[i]? with
      | none => rfl
      | some handle => exact hw.use_outline (List.mem_of_getElem? hi) (.get i k)
  | resume i => exact huse
  | write i k value => exact huse
  | commit i => exact huse
  | rollback i => exact huse

end Refinement
end ToyDB.Mvcc
