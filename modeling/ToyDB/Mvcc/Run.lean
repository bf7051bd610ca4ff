import ToyDB.Mvcc.Visibility

/-!
# Runs of the multi-version store

Any number of transactions on one engine, as the calls on their handles in the order
in which they take the engine lock. Every run keeps the engine the encoding of its
history, and every transaction a reader of the history it began with.
-/
namespace ToyDB.Mvcc
open ToyDB.Collections ToyDB.Effects ToyDB.Storage

variable {K V : Type} [LinearOrder K]

structure World (K V : Type) [LinearOrder K] where
  engine : OrderedMap (Key K) (Value V)
  handles : List (Handle K V)
  history : History K V

/-- A call of the store; transactions are given by the positions of their handles, and a
written `none` is a deletion. -/
inductive Call (K V : Type) where
  | begin
  | beginReadOnly
  | beginAsOf (version : ℕ)
  | resume (handle : ℕ)
  | get (handle : ℕ) (key : K)
  | write (handle : ℕ) (key : K) (value : Option V)
  | commit (handle : ℕ)
  | rollback (handle : ℕ)

namespace World

def empty : World K V := ⟨OrderedMap.empty, [], []⟩

/-- The transaction can be used: it is read-only, or it has not finished. -/
def Usable (w : World K V) (state : TransactionState) : Prop :=
  state.readOnly = true ∨ w.history.status state.version = some .active

instance (w : World K V) (state : TransactionState) : Decidable (w.Usable state) :=
  inferInstanceAs (Decidable (_ ∨ _))

/-- The world after a program opened a transaction that sees the given history. -/
def opened (w : World K V) (seen : History K V) (o : Outcome (OrderedMap (Key K) (Value V))
    (Op (Key K) (Value V)) Failure TransactionState) : World K V :=
  match o.result with
  | .ok state => { w with engine := o.state, handles := w.handles ++ [⟨state, seen⟩] }
  | .error _ => { w with engine := o.state }

/-- The world after a program of a transaction, with the event that its success is. -/
def finished {α : Type} (w : World K V) (event : Option (Event K V))
    (o : Outcome (OrderedMap (Key K) (Value V)) (Op (Key K) (Value V)) Failure α) : World K V :=
  match o.result with
  | .ok _ => { w with engine := o.state, history := event.toList ++ w.history }
  | .error _ => { w with engine := o.state }

/-- An event of a read-write transaction. -/
def eventOf (state : TransactionState) (event : Event K V) : Option (Event K V) :=
  if state.readOnly then none else some event

/-- The world after a call on a transaction. -/
def use (w : World K V) (handle : Handle K V) : Call K V → World K V
  | .resume _ => w.opened handle.seen (handle.state.resume w.engine)
  | .get _ key => w.finished none (handle.state.get key w.engine)
  | .write _ key value => w.finished (some (.wrote handle.state.version key value))
      (handle.state.writeVersion key value w.engine)
  | .commit _ => w.finished (eventOf handle.state (.committed handle.state.version))
      (handle.state.commit w.engine)
  | .rollback _ => w.finished (eventOf handle.state (.rolledBack handle.state.version))
      (handle.state.rollback w.engine)
  | _ => w

/-- The handle that a call is made on. -/
def handleOf (w : World K V) : Call K V → Option (Handle K V)
  | .resume i | .get i _ | .write i _ _ | .commit i | .rollback i => w.handles[i]?
  | _ => none

def call (w : World K V) : Call K V → World K V
  | .begin =>
      let o := TransactionState.begin w.engine
      match o.result with
      | .ok state => ⟨o.state, w.handles ++ [⟨state, w.history⟩], .began state.version :: w.history⟩
      | .error _ => { w with engine := o.state }
  | .beginReadOnly => w.opened w.history (TransactionState.beginReadOnly none w.engine)
  | .beginAsOf version => w.opened (w.history.before version)
      (TransactionState.beginReadOnly (some version) w.engine)
  | c =>
      match w.handleOf c with
      | some handle => w.use handle c
      | none => w

/-- The calls that a user can make: on existing handles, and except for resuming only on
transactions that have not finished. -/
def Allowed (w : World K V) (c : Call K V) : Prop :=
  match c with
  | .begin | .beginReadOnly | .beginAsOf _ => True
  | .resume i => (w.handles[i]?).isSome
  | c => ∃ handle ∈ w.handleOf c, w.Usable handle.state

instance (w : World K V) (c : Call K V) : Decidable (w.Allowed c) := by
  cases c <;> unfold Allowed <;> infer_instance

end World

/-- The worlds that calls lead to. -/
inductive Reaches : World K V → World K V → Prop where
  | refl (w : World K V) : Reaches w w
  | call {w w' : World K V} {c : Call K V} : Reaches w w' → w'.Allowed c → Reaches w (w'.call c)

theorem Reaches.trans {w₁ w₂ w₃ : World K V} (h : Reaches w₁ w₂) (h' : Reaches w₂ w₃) :
    Reaches w₁ w₃ := by
  induction h' with
  | refl => exact h
  | call _ ha ih => exact .call ih ha

/-! ## The invariant -/

structure World.Valid (w : World K V) : Prop where
  legal : w.history.Legal
  represents : Represents w.engine w.history
  handles : ∀ handle ∈ w.handles, handle.Valid w.history

theorem World.valid_empty : (World.empty : World K V).Valid :=
  ⟨.nil, represents_empty, fun _ h => by cases h⟩

section Valid
variable {w : World K V} {handle : Handle K V}

/-- The world after a program without operations. -/
theorem World.Valid.engine_eq {α : Type} {x : Action K V α} {Q : Except Failure α → Prop}
    (hy : Yields x w.engine fun r ops => ops = [] ∧ Q r) : (x w.engine).state = w.engine := by
  obtain ⟨hs, hops, _⟩ := hy
  rw [hs, hops, replay_nil]

theorem World.Valid.opened (hw : w.Valid) {seen : History K V} {x : Action K V TransactionState}
    {P : TransactionState → Prop}
    (hy : Yields x w.engine fun r ops => ops = [] ∧ ∀ state, r = .ok state → P state)
    (hh : ∀ state, P state → Handle.Valid ⟨state, seen⟩ w.history) :
    (w.opened seen (x w.engine)).Valid := by
  have hrep : Represents (x w.engine).state w.history := by
    rw [World.Valid.engine_eq hy]
    exact hw.represents
  unfold World.opened
  cases hr : (x w.engine).result with
  | error c => exact ⟨hw.legal, hrep, hw.handles⟩
  | ok state =>
      refine ⟨hw.legal, hrep, fun handle hmem => ?_⟩
      rcases List.mem_append.mp hmem with hmem | hmem
      · exact hw.handles handle hmem
      · rw [List.mem_singleton.mp hmem]
        exact hh state (hy.2.2 state hr)

theorem World.Valid.finished {α : Type} (hw : w.Valid) {x : Action K V α}
    {event : Option (Event K V)}
    (hy : Yields x w.engine fun r ops =>
      match r with
      | .ok _ => History.Legal (event.toList ++ w.history) ∧
          Represents (replay w.engine ops) (event.toList ++ w.history)
      | .error _ => ops = []) : (w.finished event (x w.engine)).Valid := by
  obtain ⟨hs, hq⟩ := hy
  unfold World.finished
  cases hr : (x w.engine).result with
  | error c =>
      rw [hr] at hq
      have hrep : Represents (x w.engine).state w.history := by
        rw [hs, hq, replay_nil]
        exact hw.represents
      exact ⟨hw.legal, hrep, hw.handles⟩
  | ok a =>
      rw [hr] at hq
      have hrep : Represents (x w.engine).state (event.toList ++ w.history) := by
        rw [hs]
        exact hq.2
      refine ⟨hq.1, hrep, fun handle hmem => ?_⟩
      cases event with
      | none => exact hw.handles handle hmem
      | some e => exact (hw.handles handle hmem).cons hq.1

/-! ## The calls -/

theorem World.Valid.begin (hw : w.Valid) : (w.call .begin).Valid := by
  obtain ⟨hs, hr, hops⟩ := yields_begin hw.represents.typed
  have hlegal := hw.legal.began
  have hrep : Represents (TransactionState.begin w.engine).state
      (.began w.history.next :: w.history) := by
    rw [hs, hops]
    exact hw.represents.began hw.legal
  rw [hw.represents.nextOf_eq, hw.represents.activeOf_eq hw.legal] at hr
  simp only [World.call, hr]
  refine ⟨hlegal, hrep, fun handle hmem => ?_⟩
  rcases List.mem_append.mp hmem with hmem | hmem
  · exact (hw.handles handle hmem).cons hlegal
  · rw [List.mem_singleton.mp hmem]
    exact ⟨List.suffix_cons _ _, le_rfl, rfl, fun _ => by simp [History.before, History.status]⟩

theorem World.Valid.beginReadOnly (hw : w.Valid) : (w.call .beginReadOnly).Valid := by
  refine hw.opened (P := fun state => state = ⟨w.history.next, true, w.history.activeSet⟩)
    ((yields_beginReadOnly hw.represents.typed none).mono ?_) ?_
  · rintro _ _ ⟨rfl, rfl⟩
    refine ⟨rfl, fun state hstate => ?_⟩
    rw [← Except.ok.inj hstate, hw.represents.nextOf_eq, hw.represents.activeOf_eq hw.legal]
  · rintro _ rfl
    exact ⟨List.suffix_rfl, le_rfl, rfl, fun hro => by cases hro⟩

theorem World.Valid.beginAsOf (hw : w.Valid) (v : ℕ) : (w.call (.beginAsOf v)).Valid := by
  refine hw.opened (P := fun state => v < w.history.next ∧ state = ⟨v, true, snapshotOf w.engine v⟩)
    ((yields_beginReadOnly hw.represents.typed (some v)).mono ?_) ?_
  · rintro _ _ ⟨rfl, rfl⟩
    refine ⟨rfl, fun state hstate => ?_⟩
    simp only [hw.represents.nextOf_eq] at hstate
    split_ifs at hstate with hle
    exact ⟨not_le.mp hle, (Except.ok.inj hstate).symm⟩
  · rintro _ ⟨hlt, rfl⟩
    refine ⟨History.before_suffix w.history v, ?_, hw.represents.snapshotOf_eq hw.legal v,
      fun hro => by cases hro⟩
    cases hst : w.history.status v with
    | none =>
        -- no transaction has version 0
        obtain rfl : v = 0 := by
          have := (hw.legal.status_isSome v).not.mp (by simp [hst])
          omega
        exact Nat.zero_le _
    | some s => exact (hw.legal.next_before (by simp [hst])).ge

/-- Resuming a transaction checks by itself that it is active. -/
theorem World.Valid.resume (hw : w.Valid) (hh : handle ∈ w.handles) {i : ℕ} :
    (w.use handle (.resume i)).Valid := by
  refine hw.opened (P := fun state => state = handle.state)
    ((yields_resume handle.state).mono ?_) ?_
  · rintro _ _ ⟨rfl, rfl⟩
    refine ⟨rfl, fun state hstate => ?_⟩
    split_ifs at hstate
    exact (Except.ok.inj hstate).symm
  · rintro _ rfl
    exact hw.handles handle hh

/-- A call on a usable transaction. -/
theorem World.Valid.use {c : Call K V} (hw : w.Valid) (hh : handle ∈ w.handles)
    (hu : w.Usable handle.state) : (w.use handle c).Valid := by
  have hv := hw.handles handle hh
  have hactive : handle.state.readOnly = false →
      w.history.status handle.state.version = some .active := fun hro =>
    hu.resolve_left (by simp [hro])
  cases c with
  | begin | beginReadOnly | beginAsOf => exact hw
  | resume i => exact hw.resume hh
  | get i k =>
      refine hw.finished ((handle.state.yields_get hw.represents.typed k).mono ?_)
      rintro _ _ ⟨rfl, rfl⟩
      exact ⟨hw.legal, hw.represents⟩
  | write i k value =>
      refine hw.finished ((handle.state.yields_writeVersion k value).mono fun r ops hr => ?_)
      split_ifs at hr with hro hconf
      · rw [hr.1]
        exact hr.2
      · rw [hr.1]
        exact hr.2
      · have hro : handle.state.readOnly = false := by simpa using hro
        rw [hr.1, hr.2]
        refine ⟨hw.legal.wrote (hactive hro) fun u hu => ?_, hw.represents.wrote (hactive hro) k value⟩
        rw [(hv.began hro).1, ← hv.sees_iff hw.legal hro]
        by_contra hvis
        exact hconf ((hv.conflicts_iff hw.legal hw.represents hro k).mpr ⟨u, hu, by simpa using hvis⟩)
  | commit i =>
      refine hw.finished ((yields_commit handle.state).mono ?_)
      rintro _ _ ⟨rfl, rfl⟩
      cases hro : handle.state.readOnly with
      | true => exact ⟨by simpa [World.eventOf, hro] using hw.legal, by
          simpa [World.eventOf, hro] using hw.represents⟩
      | false =>
          simp only [World.eventOf, hro, Bool.false_eq_true, if_false]
          exact ⟨hw.legal.committed (hactive hro), hw.represents.committed (hactive hro)⟩
  | rollback i =>
      refine hw.finished ((yields_rollback handle.state).mono ?_)
      rintro _ _ ⟨rfl, rfl⟩
      cases hro : handle.state.readOnly with
      | true => exact ⟨by simpa [World.eventOf, hro] using hw.legal, by
          simpa [World.eventOf, hro] using hw.represents⟩
      | false =>
          simp only [World.eventOf, hro, Bool.false_eq_true, if_false]
          exact ⟨hw.legal.rolledBack (hactive hro), hw.represents.rolledBack (hactive hro)⟩

theorem World.Valid.call {c : Call K V} (hw : w.Valid) (ha : w.Allowed c) : (w.call c).Valid := by
  have hused : (∃ handle ∈ w.handleOf c, w.Usable handle.state) →
      (match w.handleOf c with | some handle => w.use handle c | none => w).Valid := by
    rintro ⟨handle, hh, hu⟩
    rw [hh]
    refine hw.use ?_ hu
    cases c with
    | begin | beginReadOnly | beginAsOf => cases hh
    | resume | get | write | commit | rollback => exact List.mem_of_getElem? hh
  cases c with
  | begin => exact hw.begin
  | beginReadOnly => exact hw.beginReadOnly
  | beginAsOf v => exact hw.beginAsOf v
  | resume i =>
      obtain ⟨handle, hh⟩ := Option.isSome_iff_exists.mp ha
      change (match w.handles[i]? with | some handle => w.use handle (.resume i) | none => w).Valid
      rw [hh]
      exact hw.resume (List.mem_of_getElem? hh)
  | get | write | commit | rollback => exact hused ha

theorem Reaches.valid {w w' : World K V} (h : Reaches w w') (hw : w.Valid) : w'.Valid := by
  induction h with
  | refl => exact hw
  | call _ ha ih => exact ih.call ha

end Valid

/-! ## What runs keep -/

theorem World.call_extends (w : World K V) (c : Call K V) :
    w.history <:+ (w.call c).history ∧ w.handles <+: (w.call c).handles := by
  have hopened : ∀ seen o, w.history <:+ (w.opened seen o).history ∧
      w.handles <+: (w.opened seen o).handles := by
    intro seen o
    unfold World.opened
    cases o.result <;> exact ⟨List.suffix_rfl, by simp⟩
  have hfinished : ∀ {α : Type} event (o : Outcome _ _ _ α),
      w.history <:+ (w.finished event o).history ∧ w.handles <+: (w.finished event o).handles := by
    intro α event o
    unfold World.finished
    cases o.result
    · exact ⟨List.suffix_rfl, List.prefix_rfl⟩
    · exact ⟨List.suffix_append _ _, List.prefix_rfl⟩
  have huse : ∀ handle, w.history <:+ (w.use handle c).history ∧
      w.handles <+: (w.use handle c).handles := by
    intro handle
    cases c with
    | begin | beginReadOnly | beginAsOf => exact ⟨List.suffix_rfl, List.prefix_rfl⟩
    | resume => exact hopened _ _
    | get | write | commit | rollback => exact hfinished _ _
  have hcall : w.history <:+ (match w.handleOf c with
        | some handle => w.use handle c
        | none => w).history ∧
      w.handles <+: (match w.handleOf c with
        | some handle => w.use handle c
        | none => w).handles := by
    cases w.handleOf c with
    | none => exact ⟨List.suffix_rfl, List.prefix_rfl⟩
    | some handle => exact huse handle
  cases c with
  | begin =>
      unfold World.call
      simp only
      cases (TransactionState.begin w.engine).result
      · exact ⟨List.suffix_rfl, List.prefix_rfl⟩
      · exact ⟨List.suffix_cons _ _, List.prefix_append _ _⟩
  | beginReadOnly | beginAsOf => exact hopened _ _
  | resume | get | write | commit | rollback => exact hcall

/-- Histories and handles only grow. -/
theorem Reaches.extends {w w' : World K V} (h : Reaches w w') :
    w.history <:+ w'.history ∧ w.handles <+: w'.handles := by
  induction h with
  | refl => exact ⟨List.suffix_rfl, List.prefix_rfl⟩
  | @call w' c _ _ ih =>
      exact ⟨ih.1.trans (w'.call_extends c).1, ih.2.trans (w'.call_extends c).2⟩

/-- The world after some calls. -/
def World.run (w : World K V) (calls : List (Call K V)) : World K V := calls.foldl World.call w

theorem World.run_append (w : World K V) (calls : List (Call K V)) (c : Call K V) :
    w.run (calls ++ [c]) = (w.run calls).call c := by
  simp [World.run]

/-- Each call of the list can be made. -/
def World.AllAllowed (w : World K V) : List (Call K V) → Prop
  | [] => True
  | c :: calls => w.Allowed c ∧ (w.call c).AllAllowed calls

instance World.decidableAllAllowed : ∀ (w : World K V) (calls : List (Call K V)),
    Decidable (w.AllAllowed calls)
  | _, [] => inferInstanceAs (Decidable True)
  | w, c :: calls =>
      have := World.decidableAllAllowed (w.call c) calls
      inferInstanceAs (Decidable (_ ∧ _))

theorem World.allAllowed_append {w : World K V} {calls calls' : List (Call K V)} :
    w.AllAllowed (calls ++ calls') ↔ w.AllAllowed calls ∧ (w.run calls).AllAllowed calls' := by
  induction calls generalizing w with
  | nil => exact ⟨fun h => ⟨trivial, h⟩, fun h => h.2⟩
  | cons c calls ih => exact ⟨fun h => ⟨⟨h.1, (ih.mp h.2).1⟩, (ih.mp h.2).2⟩,
      fun h => ⟨h.1.1, ih.mpr ⟨h.1.2, h.2⟩⟩⟩

theorem World.AllAllowed.reaches {w : World K V} {calls : List (Call K V)}
    (h : w.AllAllowed calls) : Reaches w (w.run calls) := by
  induction calls generalizing w with
  | nil => exact .refl w
  | cons c calls ih => exact (Reaches.call (.refl w) h.1).trans (ih h.2)

end ToyDB.Mvcc
