import Mathlib
import ToyDB.Mvcc.Abstract

/-!
# Commit and rollback clean up

Write records mark exactly the versions of active transactions. A rolled back
transaction leaves the engine that the run without its writes leaves, and a commit
only removes the records of the transaction. The run without the writes of a
transaction leaves out the writes that the store refused, too: they had no effect, but
might have been refused because of that transaction.
-/
namespace ToyDB.Mvcc
open ToyDB.Collections ToyDB.Effects ToyDB.Storage

variable {K V : Type} [LinearOrder K]

/-! ## Histories without the writes of a transaction -/

namespace History

/-- The history without the writes of a transaction. -/
def without : History K V → ℕ → History K V
  | [], _ => []
  | .wrote u k value :: h, v => if u = v then without h v else .wrote u k value :: without h v
  | .began u :: h, v => .began u :: without h v
  | .committed u :: h, v => .committed u :: without h v
  | .rolledBack u :: h, v => .rolledBack u :: without h v

section
variable (h : History K V) (v u : ℕ)

omit [LinearOrder K] in
theorem next_without : (h.without v).next = h.next := by
  induction h with
  | nil => rfl
  | cons e h ih =>
      cases e with
      | wrote w k x =>
          rw [without, next, ← ih]
          split_ifs <;> rfl
      | _ => simp only [without, next, ih]

omit [LinearOrder K] in
theorem status_without : (h.without v).status u = h.status u := by
  induction h with
  | nil => rfl
  | cons e h ih =>
      cases e with
      | wrote w k x =>
          rw [without, status, ← ih]
          split_ifs <;> rfl
      | _ => simp only [without, status, ih]

omit [LinearOrder K] in
theorem before_without : (h.without v).before u = (h.before u).without v := by
  induction h with
  | nil => rfl
  | cons e h ih =>
      cases e with
      | began w =>
          simp only [without, before]
          split_ifs
          · rfl
          · exact ih
      | wrote w k x =>
          rw [without, before, ← ih]
          split_ifs <;> rfl
      | _ => exact ih

omit [LinearOrder K] in
theorem activeSet_without : (h.without v).activeSet = h.activeSet := by
  simp only [activeSet, next_without, status_without]

theorem written_without (k : K) :
    (h.without v).written u k = if u = v then none else h.written u k := by
  induction h with
  | nil => simp [without, written]
  | cons e h ih =>
      cases e with
      | wrote w k' x =>
          simp only [without, written]
          by_cases hw : w = v
          · rw [if_pos hw, ih]
            by_cases hu : u = v
            · rw [if_pos hu, if_pos hu]
            · rw [if_neg hu, if_neg hu, if_neg fun h => hu (h.1.trans hw)]
          · rw [if_neg hw, written, ih]
            by_cases hu : u = v
            · rw [if_pos hu, if_pos hu, if_neg fun h => hw (h.1.symm.trans hu)]
            · rw [if_neg hu, if_neg hu]
      | _ => simpa only [without, written] using ih

end

theorem stored_without_isSome {h : History K V} {u v : ℕ} {k : K}
    (hs : ((h.without v).stored u k).isSome) : (h.stored u k).isSome := by
  simp only [stored, status_without, written_without] at hs ⊢
  split_ifs at hs ⊢ <;> simp_all

end History

/-! ## Runs without the writes of a transaction -/

section Runs
variable {w w' : World K V} {handle : Handle K V} {v : ℕ} {calls : List (Call K V)}

/-- The calls without those that satisfy the test in the world they are made in. -/
def World.skip (test : World K V → Call K V → Bool) (w : World K V) :
    List (Call K V) → List (Call K V)
  | [] => []
  | c :: calls =>
      if test w c then (w.call c).skip test calls else c :: (w.call c).skip test calls

/-- The call is a write of the transaction. -/
def ownWrite (v : ℕ) (w : World K V) : Call K V → Bool
  | .write i _ _ => w.handles[i]?.any fun handle => handle.state.version = v
  | _ => false

/-- The call is a write that the store refuses. -/
def refusedWrite (w : World K V) : Call K V → Bool
  | .write i k value => w.handles[i]?.any fun handle =>
      !(handle.state.writeVersion k value w.engine).result.isOk
  | _ => false

/-- The call is a write of the transaction or a refused one. -/
def spared (v : ℕ) (w : World K V) (c : Call K V) : Bool := ownWrite v w c || refusedWrite w c

def Handle.without (handle : Handle K V) (v : ℕ) : Handle K V :=
  { handle with seen := handle.seen.without v }

def Outline.without (o : Outline K V) (v : ℕ) : Outline K V :=
  ⟨o.handles.map (Handle.without · v), o.history.without v⟩

theorem Handle.Conflicts.of_without {h : History K V} {k : K}
    (hc : (handle.without v).Conflicts (h.without v) k) : handle.Conflicts h k := by
  obtain ⟨u, hu, hvis⟩ := hc
  exact ⟨u, History.stored_without_isSome hu, hvis⟩

omit [LinearOrder K] in
theorem Outline.getElem_without (o : Outline K V) (v i : ℕ) :
    (o.without v).handles[i]? = o.handles[i]?.map (Handle.without · v) := List.getElem?_map

omit [LinearOrder K] in
theorem Outline.opened_without (o : Outline K V) (handle : Handle K V) (v : ℕ) :
    (o.opened handle).without v = (o.without v).opened (handle.without v) := by
  simp [Outline.opened, Outline.without]

omit [LinearOrder K] in
theorem Outline.happened_without (o : Outline K V) (handle : Handle K V) {v : ℕ} {e : Event K V}
    (he : ∀ h : History K V, History.without (e :: h) v = e :: h.without v) :
    (o.happened handle e).without v = (o.without v).happened (handle.without v) e := by
  unfold Outline.happened
  cases hro : handle.state.readOnly with
  | true => simp [Handle.without, hro]
  | false => simp [Handle.without, hro, Outline.without, he]

/-- A call that does not write does the same without the writes of a transaction. -/
theorem Outline.call_without (o : Outline K V) (v : ℕ) {c : Call K V}
    (hc : ∀ i k value, c ≠ .write i k value) : (o.without v).call c = (o.call c).without v := by
  have huse : ∀ {i : ℕ} {c : Call K V},
      (∀ {o : Outline K V} {handle : Handle K V}, o.handles[i]? = some handle →
        o.call c = o.use handle c) → (∀ {o : Outline K V}, o.handles[i]? = none → o.call c = o) →
      (∀ handle, (o.without v).use (handle.without v) c = (o.use handle c).without v) →
      (o.without v).call c = (o.call c).without v := by
    intro i c hsome hnone h
    have hi' := Outline.getElem_without o v i
    cases hi : o.handles[i]? with
    | none =>
        rw [hi] at hi'
        rw [hnone hi, hnone hi']
    | some handle =>
        rw [hi] at hi'
        rw [hsome hi, hsome hi', h handle]
  have hnext : (o.without v).history.next = o.history.next := History.next_without _ _
  have hactive : (o.without v).history.activeSet = o.history.activeSet :=
    History.activeSet_without _ _
  cases c with
  | begin =>
      simp only [Outline.call, hnext, hactive]
      simp [Outline.without, Handle.without, History.without]
  | beginReadOnly =>
      simp only [Outline.call, hnext, hactive]
      exact (Outline.opened_without o ⟨⟨o.history.next, true, o.history.activeSet⟩, o.history⟩ v).symm
  | beginAsOf u =>
      have hbefore : (o.without v).history.before u = (o.history.before u).without v :=
        History.before_without _ _ _
      simp only [Outline.call, hnext, hbefore, History.activeSet_without]
      split_ifs
      · rfl
      · exact (Outline.opened_without o
          ⟨⟨u, true, (o.history.before u).activeSet⟩, o.history.before u⟩ v).symm
  | get => rfl
  | resume i =>
      refine huse Outline.call_resume (fun hi => (Outline.call_of_none hi).1) fun handle => ?_
      have hstatus : (o.without v).history.status handle.state.version =
        o.history.status handle.state.version := History.status_without _ _ _
      simp only [Outline.use, Handle.without, hstatus]
      split_ifs
      · exact (Outline.opened_without _ _ _).symm
      · rfl
  | write i k value => exact absurd rfl (hc i k value)
  | commit i =>
      exact huse Outline.call_commit (fun hi => (Outline.call_of_none hi).2.1) fun handle =>
        (Outline.happened_without _ _ fun _ => rfl).symm
  | rollback i =>
      exact huse Outline.call_rollback (fun hi => (Outline.call_of_none hi).2.2) fun handle =>
        (Outline.happened_without _ _ fun _ => rfl).symm

theorem World.call_write {i : ℕ} {k : K} {value : Option V} (hi : w.handles[i]? = some handle) :
    w.call (.write i k value) = w.use handle (.write i k value) := by
  simp only [World.call, World.handleOf, hi]

/-- A spared call leaves no trace without the writes of the transaction. -/
theorem World.spared_without {c : Call K V} (hs : spared v w c = true) :
    (w.call c).outline.without v = w.outline.without v := by
  cases c with
  | write i k value =>
      simp only [spared, ownWrite, refusedWrite, Bool.or_eq_true] at hs
      cases hi : w.handles[i]? with
      | none => simp [hi] at hs
      | some handle =>
          rw [World.call_write hi]
          simp only [hi, Option.any_some, decide_eq_true_eq] at hs
          simp only [World.use, World.finished]
          cases hr : (handle.state.writeVersion k value w.engine).result with
          | error c => rfl
          | ok a =>
              have hv : handle.state.version = v := hs.resolve_right (by simp [hr, Except.isOk, Except.toBool])
              simp [World.outline, Outline.without, History.without, hv]
  | _ => simp [spared, ownWrite, refusedWrite] at hs

/-- A write that is not spared is accepted in both runs. -/
theorem World.Valid.write_without (hw : w.Valid) (ho : w'.outline = w.outline.without v)
    {i : ℕ} {k : K} {value : Option V} (hs : ¬ spared v w (.write i k value) = true)
    (ha : w.Allowed (.write i k value)) :
    w'.outline.call (.write i k value) = (w.call (.write i k value)).outline.without v := by
  obtain ⟨handle, hi, _⟩ := ha
  have hi : w.handles[i]? = some handle := hi
  simp only [spared, ownWrite, refusedWrite, hi, Option.any_some, Bool.or_eq_true,
    decide_eq_true_eq, not_or] at hs
  obtain ⟨hne, hok⟩ := hs
  have hv := hw.handles handle (List.mem_of_getElem? hi)
  have hr := (handle.state.yields_writeVersion (m := w.engine) k value).2
  cases hro : handle.state.readOnly with
  | true =>
      simp only [hro, if_true] at hr
      simp [hr.1, Except.isOk, Except.toBool] at hok
  | false =>
      simp only [hro, Bool.false_eq_true, if_false] at hr
      by_cases hc : handle.state.conflicts w.engine k = true
      · rw [if_pos hc] at hr
        simp [hr.1, Except.isOk, Except.toBool] at hok
      · have hnc : ¬ handle.Conflicts w.outline.history k :=
          (hv.conflicts_iff hw.legal hw.represents hro k).not.mp hc
        have hnc' : ¬ (handle.without v).Conflicts (w.outline.without v).history k :=
          fun h => hnc (Handle.Conflicts.of_without h)
        have hi' : (w.outline.without v).handles[i]? = some (handle.without v) := by
          rw [Outline.getElem_without]
          exact congrArg (Option.map _) hi
        have hio : w.outline.handles[i]? = some handle := hi
        rw [hw.call_outline, ho]
        simp only [Outline.call, hi', hio, Outline.use, hnc, hnc', if_false]
        refine (Outline.happened_without _ _ fun h => ?_).symm
        exact if_neg hne

theorem World.allowed_without (ho : w'.outline = w.outline.without v) {c : Call K V}
    (ha : w.Allowed c) : w'.Allowed c := by
  have hhandle : ∀ i : ℕ, w'.handles[i]? = w.handles[i]?.map (Handle.without · v) := by
    intro i
    have := congrArg (fun o : Outline K V => o.handles[i]?) ho
    exact this.trans (Outline.getElem_without _ _ _)
  have hstatus : ∀ u, w'.history.status u = w.history.status u := by
    intro u
    rw [show w'.history = w.history.without v from congrArg Outline.history ho,
      History.status_without]
  cases c with
  | begin | beginReadOnly | beginAsOf => trivial
  | resume i =>
      change (w'.handles[i]?).isSome
      rw [hhandle, Option.isSome_map]
      exact ha
  | get i | write i | commit i | rollback i =>
      obtain ⟨handle, hi, hu⟩ := ha
      have hi : w.handles[i]? = some handle := hi
      refine ⟨handle.without v, by simp [World.handleOf, hhandle, hi], ?_⟩
      exact hu.imp id fun h => (hstatus _).trans h

/-- The run without the writes of a transaction goes in step. -/
theorem World.Valid.run_without (hw : w.Valid) (hw' : w'.Valid)
    (ho : w'.outline = w.outline.without v) (ha : w.AllAllowed calls) :
    w'.AllAllowed (w.skip (spared v) calls) ∧
      (w'.run (w.skip (spared v) calls)).outline = (w.run calls).outline.without v := by
  induction calls generalizing w w' with
  | nil => exact ⟨trivial, ho⟩
  | cons c calls ih =>
      obtain ⟨hc, ha⟩ := ha
      unfold World.skip
      split_ifs with hs
      · exact ih (hw.call hc) hw' (ho.trans (World.spared_without hs).symm) ha
      · have hc' := World.allowed_without ho hc
        have hstep : (w'.call c).outline = (w.call c).outline.without v := by
          rw [hw'.call_outline]
          by_cases hwrite : ∃ i k value, c = .write i k value
          · obtain ⟨i, k, value, rfl⟩ := hwrite
            exact hw.write_without ho hs hc
          · rw [ho, hw.call_outline]
            exact Outline.call_without _ _ fun i k value h => hwrite ⟨i, k, value, h⟩
        obtain ⟨hall, hrun⟩ := ih (hw.call hc) (hw'.call hc') hstep ha
        exact ⟨⟨hc', hall⟩, hrun⟩

/-- After a rollback the engine encodes the history without the writes, too. -/
theorem Represents.without {m : OrderedMap (Key K) (Value V)} {h : History K V}
    (hr : Represents m h) (hv : h.status v = some .rolledBack) : Represents m (h.without v) := by
  constructor
  · simpa only [History.next_without] using hr.nextVersion
  · intro u
    simpa only [History.status_without] using hr.txnActive u
  · intro u
    simpa only [History.status_without, History.before_without, History.activeSet_without]
      using hr.txnActiveSnapshot u
  · intro u k
    rw [hr.txnWrite]
    simp only [History.status_without, History.written_without]
    by_cases hu : u = v
    · simp [hu, hv]
    · simp only [hu, if_false]
  · intro k u
    rw [hr.version]
    simp only [History.stored, History.status_without, History.written_without]
    by_cases hu : u = v
    · simp [hu, hv]
    · simp only [hu, if_false]
  · exact hr.unversioned

/-- A rolled back transaction leaves no trace of its writes. -/
theorem rollback_as_unwritten (ha : (World.empty : World K V).AllAllowed calls)
    (hv : (World.empty.run calls).history.status v = some .rolledBack) :
    (World.empty : World K V).AllAllowed (World.empty.skip (spared v) calls) ∧
      (World.empty.run calls).engine =
        (World.empty.run (World.empty.skip (spared v) calls)).engine := by
  obtain ⟨hall, hrun⟩ := World.valid_empty.run_without (v := v) World.valid_empty rfl ha
  refine ⟨hall, ?_⟩
  have hw := ha.reaches.valid World.valid_empty
  have hw' := hall.reaches.valid World.valid_empty
  have hh := congrArg Outline.history hrun
  refine (hw.represents.without hv).unique ?_
  exact (show _ = (World.empty.run calls).history.without v from hh) ▸ hw'.represents

end Runs

/-! ## The keys of a transaction -/

/-- The transaction that a key belongs to. -/
def Key.owner : Key K → Option ℕ
  | .txnActive v | .txnActiveSnapshot v | .txnWrite v _ | .version _ v => some v
  | .nextVersion | .unversioned _ => none

section Keys
variable {w : World K V} {handle : Handle K V} {v : ℕ} {k : K} {i : ℕ}

/-- Write records mark the versions of active transactions. -/
theorem World.Valid.record_iff (hw : w.Valid) (v : ℕ) (k : K) :
    (w.engine.get (.txnWrite v k)).isSome ↔
      w.history.status v = some .active ∧ (w.engine.get (.version k v)).isSome := by
  rw [hw.represents.txnWrite, hw.represents.version, Option.isSome_map, History.stored]
  by_cases ha : w.history.status v = some .active
  · simp only [ha, true_and, if_false, reduceCtorEq, Option.some.injEq]
    split_ifs with hs <;> simp [hs]
  · simp [ha]

theorem World.call_commit_engine (hi : w.handles[i]? = some handle)
    (hro : handle.state.readOnly = false) : (w.call (.commit i)).engine =
      replay w.engine (commitOps w.engine handle.state.version) := by
  obtain ⟨hs, hr, hops⟩ := yields_commit (m := w.engine) handle.state
  rw [hro] at hops
  simp only [World.call, World.handleOf, hi, World.use, World.finished, hr, hs, hops]
  rfl

theorem World.call_rollback_engine (hi : w.handles[i]? = some handle)
    (hro : handle.state.readOnly = false) : (w.call (.rollback i)).engine =
      replay w.engine (rollbackOps w.engine handle.state.version) := by
  obtain ⟨hs, hr, hops⟩ := yields_rollback (m := w.engine) handle.state
  rw [hro] at hops
  simp only [World.call, World.handleOf, hi, World.use, World.finished, hr, hs, hops]
  rfl

theorem replay_commitOps_version (m : OrderedMap (Key K) (Value V)) (v u : ℕ) (k : K) :
    (replay m (commitOps m v)).get (.version k u) = m.get (.version k u) := by
  rw [Represents.replay_commitOps_get, if_neg (by simp)]

theorem replay_commitOps_owner (m : OrderedMap (Key K) (Value V)) {key : Key K}
    (hk : key.owner ≠ some v) : (replay m (commitOps m v)).get key = m.get key := by
  rw [Represents.replay_commitOps_get, if_neg]
  rintro (rfl | ⟨k, _, rfl⟩) <;> exact hk rfl

theorem replay_rollbackOps_owner (m : OrderedMap (Key K) (Value V)) {key : Key K}
    (hk : key.owner ≠ some v) : (replay m (rollbackOps m v)).get key = m.get key := by
  rw [Represents.replay_rollbackOps_get, if_neg]
  rintro (rfl | ⟨k, _, rfl | rfl⟩) <;> exact hk rfl

/-- Write records mark the versions of active transactions; a rollback leaves the engine of
the run without the writes of the transaction and without refused writes; a commit keeps
its versions and removes all its records; and neither touches keys of others. -/
theorem finish_cleans_up {calls : List (Call K V)}
    (ha : (World.empty : World K V).AllAllowed calls) :
    (∀ (v : ℕ) (k : K), ((World.empty.run calls).engine.get (.txnWrite v k)).isSome ↔
      (World.empty.run calls).history.status v = some .active ∧
        ((World.empty.run calls).engine.get (.version k v)).isSome) ∧
    ∀ (i : ℕ) (handle : Handle K V), (World.empty.run calls).handles[i]? = some handle →
      handle.state.readOnly = false →
      (World.empty.run calls).history.status handle.state.version = some .active →
      (World.empty.run (calls ++ [Call.rollback i])).engine = (World.empty.run (World.empty.skip
        (spared handle.state.version) (calls ++ [Call.rollback i]))).engine ∧
      (∀ k, (World.empty.run (calls ++ [Call.commit i])).engine.get (.version k handle.state.version) =
        (World.empty.run calls).engine.get (.version k handle.state.version)) ∧
      (∀ k, (World.empty.run (calls ++ [Call.commit i])).engine.get
        (.txnWrite handle.state.version k) = none) ∧
      (World.empty.run (calls ++ [Call.commit i])).engine.get (.txnActive handle.state.version) = none ∧
      ∀ key : Key K, key.owner ≠ some handle.state.version →
        (World.empty.run (calls ++ [Call.rollback i])).engine.get key =
          (World.empty.run calls).engine.get key ∧
        (World.empty.run (calls ++ [Call.commit i])).engine.get key =
          (World.empty.run calls).engine.get key := by
  have hw := ha.reaches.valid World.valid_empty
  refine ⟨hw.record_iff, fun i handle hi hro hact => ?_⟩
  have hallowed : ∀ {c}, (World.empty.run calls).handleOf c = some handle →
      (World.empty.run calls).Allowed c := fun {c} hc => by
    cases c with
    | begin | beginReadOnly | beginAsOf => trivial
    | resume j => exact Option.isSome_iff_exists.mpr ⟨handle, hc⟩
    | get | write | commit | rollback => exact ⟨handle, hc, Or.inr hact⟩
  have hcommit := World.call_commit_engine hi hro
  have hrollback := World.call_rollback_engine hi hro
  have hc := hw.call (hallowed (c := .commit i) hi)
  have hstatus : ((World.empty.run calls).call (.commit i)).history.status handle.state.version =
      some .committed := by
    have := (yields_commit (m := (World.empty.run calls).engine) handle.state).2.1
    simp [World.call, World.handleOf, hi, World.use, World.finished, this, World.eventOf, hro,
      History.status]
  simp only [World.run_append]
  refine ⟨?_, ?_, ?_, ?_, ?_⟩
  · have hall : World.empty.AllAllowed (calls ++ [.rollback i]) :=
      World.allAllowed_append.mpr ⟨ha, hallowed (c := .rollback i) hi, trivial⟩
    have hrb : (World.empty.run (calls ++ [.rollback i])).history.status handle.state.version =
        some .rolledBack := by
      have := (yields_rollback (m := (World.empty.run calls).engine) handle.state).2.1
      simp [World.run_append, World.call, World.handleOf, hi, World.use, World.finished, this,
        World.eventOf, hro, History.status]
    simpa only [World.run_append] using (rollback_as_unwritten hall hrb).2
  · intro k
    rw [hcommit, replay_commitOps_version]
  · intro k
    rw [hc.represents.txnWrite, hstatus]
    simp
  · rw [hc.represents.txnActive, hstatus]
    simp
  · intro key hk
    rw [hrollback, hcommit]
    exact ⟨replay_rollbackOps_owner _ hk, replay_commitOps_owner _ hk⟩

end Keys

/-! ## A refused write -/

/-- Two transactions of which the first writes key 1, and the second is refused. -/
def refusedRun : List (Call ℕ ℕ) := [.begin, .begin, .write 0 1 (some 5), .write 1 1 (some 7)]

theorem finish_cleans_up_refused :
    (World.empty.run (refusedRun ++ [.rollback 0])).engine = (World.empty.run (World.empty.skip
      (spared 1) (refusedRun ++ [.rollback 0]))).engine := by
  have hallowed : (World.empty : World ℕ ℕ).AllAllowed refusedRun := by decide +kernel
  have hfirst : (World.empty.run refusedRun).handles[0]? =
      some (⟨⟨1, false, ∅⟩, []⟩ : Handle ℕ ℕ) := by decide +kernel
  have hactive : (World.empty.run refusedRun).history.status 1 = some .active := by
    decide +kernel
  exact ((finish_cleans_up hallowed).2 0 _ hfirst rfl hactive).1

/-- Had the first not written, the second had not been refused. -/
theorem not_rollback_as_unwritten : ¬ ∀ (calls : List (Call ℕ ℕ)) (i : ℕ) (handle : Handle ℕ ℕ),
    (World.empty : World ℕ ℕ).AllAllowed calls →
    (World.empty.run calls).handles[i]? = some handle → handle.state.readOnly = false →
    (World.empty.run calls).history.status handle.state.version = some .active →
    (World.empty.run (calls ++ [.rollback i])).engine = (World.empty.run (World.empty.skip
      (ownWrite handle.state.version) (calls ++ [.rollback i]))).engine := by
  intro hall
  have h := congrArg (OrderedMap.get · (.version 1 2)) (hall refusedRun 0 ⟨⟨1, false, ∅⟩, []⟩
    (by decide +kernel) (by decide +kernel) rfl (by decide +kernel))
  exact absurd h (by decide +kernel)

end ToyDB.Mvcc
