import ToyDB.Mvcc.Activity

/-!
# SQL sessions

A session executes statements on an engine that it shares with other sessions. Each of
its engine calls may fail without having taken effect, and other sessions may call the
engine in between. A statement is what it does in its transaction: calls, each continued
by its answer.
-/
namespace ToyDB.Sql
open ToyDB.Collections ToyDB.Effects ToyDB.Mvcc

/-- The engine calls of a session. -/
inductive CallKind where
  | begin
  | beginReadOnly
  | commit
  | rollback
  | statement
  deriving DecidableEq

section
variable {K V α T : Type}

/-- An engine call of another session. -/
inductive OtherCall (K V : Type) where
  | begin
  | commit (txn : TransactionState)
  | rollback (txn : TransactionState)
  | statement (txn : TransactionState) (script : Script K V Unit)

/-- What happens at an engine call: first the calls of other sessions, and then the call
fails with the given error, if any. -/
structure Turn (K V : Type) where
  others : List (OtherCall K V)
  fault : CallKind → Option Error

/-- No other calls, and no fault. -/
def Turn.quiet : Turn K V := ⟨[], fun _ => none⟩

/-- The error that the caller of the engine receives. If the call panicked, this is that
the channel of its answer is closed. -/
def answer : Failure → Error
  | .panic message => .io message
  | .error e => e

/-- What a statement does in its transaction. -/
inductive Body (K V T : Type) : Type 1 where
  | done (result : Except Error T)
  | call {α : Type} (script : Script K V α) (next : Except Error α → Body K V T)

/-- A parsed statement, or the error of the parser. -/
inductive Session.Statement (K V T : Type) : Type 1 where
  | invalid (error : Error)
  | begin (readOnly : Bool) (asOf : Option ℕ)
  | commit
  | rollback
  | run (readOnly : Bool) (body : Body K V T)

inductive StatementResult (T : Type) where
  | begin (state : TransactionState)
  | commit (version : ℕ)
  | rollback (version : ℕ)
  | run (result : T)

variable [LinearOrder K]

/-- The engine resumes the transaction of a call first. -/
def resumed (txn : TransactionState) (f : TransactionState → Mvcc.Action K V α) :
    Mvcc.Action K V α := do
  f (← txn.resume)

def OtherCall.run : OtherCall K V → Mvcc.Action K V Unit
  | begin => do
      let _ ← TransactionState.begin
      return ()
  | commit txn => resumed txn TransactionState.commit
  | rollback txn => resumed txn TransactionState.rollback
  | statement txn script => resumed txn fun txn => script.run txn

structure Session (K V : Type) [LinearOrder K] where
  /-- The current transaction, if any. -/
  txn : Option TransactionState
  /-- The engine, shared with other sessions. -/
  engine : OrderedMap (Mvcc.Key K) (Mvcc.Value V)
  /-- What happens at the engine calls to come. -/
  turns : List (Turn K V)
  /-- The versions of the read-write transactions that the session began. -/
  begun : Finset ℕ

abbrev SessionAction (K V : Type) [LinearOrder K] (α : Type) :=
  Program (Session K V) Empty Error α

namespace Session

def new (turns : List (Turn K V)) : Session K V := ⟨none, OrderedMap.empty, turns, ∅⟩

/-- Calls the engine. -/
def call (kind : CallKind) (x : Mvcc.Action K V α) : SessionAction K V α := fun s =>
  let turn := s.turns.headD Turn.quiet
  let engine := turn.others.foldl (fun engine other => (other.run engine).state) s.engine
  let s := { s with engine := engine, turns := s.turns.tail }
  match turn.fault kind with
  | some e => ⟨.error e, s, []⟩
  | none => ⟨(x engine).result.mapError answer, { s with engine := (x engine).state }, []⟩

def begin : SessionAction K V TransactionState := do
  let txn ← call .begin TransactionState.begin
  Program.draw fun s => ((), { s with begun := insert txn.version s.begun })
  return txn

def beginReadOnly (asOf : Option ℕ) : SessionAction K V TransactionState :=
  call .beginReadOnly (TransactionState.beginReadOnly asOf)

def commit (txn : TransactionState) : SessionAction K V Unit :=
  if txn.readOnly then return ()
  else call .commit (resumed txn TransactionState.commit)

def rollback (txn : TransactionState) : SessionAction K V Unit :=
  if txn.readOnly then return ()
  else call .rollback (resumed txn TransactionState.rollback)

/-- Runs a statement in a transaction. -/
def runBody (txn : TransactionState) : Body K V T → SessionAction K V T
  | .done (.ok result) => return result
  | .done (.error e) => Program.fail e
  | .call script next => do
      let result ← (call .statement (resumed txn fun txn => script.run txn)).attempt
      runBody txn (next result)

/-- An invalid input error. -/
def errinput (message : String) : SessionAction K V α := Program.fail (.invalidInput message)

def getTxn : SessionAction K V (Option TransactionState) := Program.draw fun s => (s.txn, s)

def takeTxn : SessionAction K V (Option TransactionState) :=
  Program.draw fun s => (s.txn, { s with txn := none })

def setTxn (txn : TransactionState) : SessionAction K V Unit :=
  Program.draw fun s => ((), { s with txn := some txn })

/-- Begins a transaction in the mode of a statement. -/
def beginAs (readOnly : Bool) (asOf : Option ℕ) : SessionAction K V TransactionState :=
  match readOnly, asOf with
  | false, none => begin
  | true, asOf => beginReadOnly asOf
  | false, some _ => errinput "can't start read-write transaction in a given version"

/-- Runs a statement in the transaction of the session, if there is one, and otherwise in
an implicit one. -/
def withTxn (readOnly : Bool) (body : Body K V T) : SessionAction K V T := do
  match ← getTxn with
  | some txn => runBody txn body
  | none =>
      let txn ← (if readOnly then beginReadOnly none else begin)
      match ← (runBody txn body).attempt with
      | .ok result =>
          commit txn
          return result
      | .error e =>
          rollback txn
          Program.fail e

def execute : Statement K V T → SessionAction K V (StatementResult T)
  | .invalid e => Program.fail e
  | .begin readOnly asOf => do
      match ← getTxn with
      | some _ => errinput "already in a transaction"
      | none =>
          let txn ← beginAs readOnly asOf
          setTxn txn
          return .begin txn
  | .commit => do
      match ← takeTxn with
      | none => errinput "not in a transaction"
      | some txn =>
          commit txn
          return .commit txn.version
  | .rollback => do
      match ← takeTxn with
      | none => errinput "not in a transaction"
      | some txn =>
          rollback txn
          return .rollback txn.version
  | .run readOnly body => do
      let result ← withTxn readOnly body
      return .run result

/-- Rolls back an open transaction; an error is only logged. -/
def drop : SessionAction K V Unit := do
  match ← takeTxn with
  | none => return ()
  | some txn =>
      let _ ← (rollback txn).attempt
      return ()

/-! ## Transactions in hand -/

/-- Every active transaction that the session began is the one in hand or the session's
own, and the engine answers what ends a transaction. -/
structure Tidy (held : Option TransactionState) (s : Session K V) : Prop where
  typed : Typed s.engine
  begun_lt : ∀ v ∈ s.begun, v < nextOf s.engine
  held : ∀ v ∈ s.begun, IsActive s.engine v →
    ∃ txn, (held = some txn ∨ s.txn = some txn) ∧ txn.readOnly = false ∧ txn.version = v
  finishes : ∀ turn ∈ s.turns, turn.fault .commit = none ∧ turn.fault .rollback = none

/-- Whatever the engine held before, it grows. -/
def Growing (x : Mvcc.Action K V α) : Prop := ∀ m₀, Keeps (Grows m₀) x

theorem Growing.grows {x : Mvcc.Action K V α} (h : Growing x) {m : OrderedMap _ _}
    (hm : Typed m) : Grows m (x m).state :=
  keeps_iff.mp (h m) m (Grows.refl hm)

theorem growing_resumed (txn : TransactionState) {f : TransactionState → Mvcc.Action K V α}
    (hf : ∀ t, Growing (f t)) : Growing (resumed txn f) :=
  fun m₀ => (keeps_resume txn).bind fun t => hf t m₀

theorem growing_other (other : OtherCall K V) : Growing other.run := by
  cases other with
  | begin => exact fun _ => keeps_begin.bind fun _ => keeps_pure
  | commit txn => exact growing_resumed txn fun t _ => keeps_commit t
  | rollback txn => exact growing_resumed txn fun t _ => keeps_rollback t
  | statement txn script => exact growing_resumed txn fun t _ => keeps_script t script

/-- The calls of other sessions before a call. -/
theorem grows_others {m₀ m : OrderedMap (Mvcc.Key K) (Mvcc.Value V)} (hm : Grows m₀ m)
    (others : List (OtherCall K V)) :
    Grows m₀ (others.foldl (fun engine other => (other.run engine).state) m) := by
  induction others generalizing m with
  | nil => exact hm
  | cons other others ih => exact ih (keeps_iff.mp (growing_other other m₀) m hm)

section
variable {held : Option TransactionState} {kind : CallKind}

theorem Tidy.grows {s : Session K V} (h : Tidy held s) {m : OrderedMap _ _}
    (hm : Grows s.engine m) {turns : List (Turn K V)} (ht : turns ⊆ s.turns) :
    Tidy held { s with engine := m, turns := turns } where
  typed := hm.typed
  begun_lt v hv := (h.begun_lt v hv).trans_le hm.next_le
  held v hv ha := h.held v hv (hm.active v (h.begun_lt v hv) ha)
  finishes turn hturn := h.finishes turn (ht hturn)

/-- How a call ends: with a fault after the calls of other sessions, or as its program on
the engine that they leave. -/
theorem call_cases (kind : CallKind) (x : Mvcc.Action K V α) (s : Session K V) :
    ∃ m turns, (Typed s.engine → Grows s.engine m) ∧ turns ⊆ s.turns ∧
      ((∃ e, (∃ turn ∈ s.turns, turn.fault kind = some e) ∧
        call kind x s = ⟨.error e, { s with engine := m, turns := turns }, []⟩) ∨
      call kind x s = ⟨(x m).result.mapError answer,
        { s with engine := (x m).state, turns := turns }, []⟩) := by
  refine ⟨(s.turns.headD Turn.quiet).others.foldl
    (fun engine other => (other.run engine).state) s.engine, s.turns.tail,
    fun hm => grows_others (Grows.refl hm) _, List.tail_subset _, ?_⟩
  unfold call
  cases hf : (s.turns.headD Turn.quiet).fault kind with
  | none => exact Or.inr (by simp only [hf])
  | some e =>
      refine Or.inl ⟨e, ?_, by simp only [hf]⟩
      cases hturns : s.turns with
      | nil =>
          rw [hturns] at hf
          cases hf
      | cons turn turns =>
          rw [hturns] at hf
          exact ⟨turn, List.mem_cons_self, hf⟩

/-- Calls leave the transaction of the session alone. -/
theorem keeps_txn_call {txn : Option TransactionState} (x : Mvcc.Action K V α) :
    Keeps (fun s : Session K V => s.txn = txn) (call kind x) := by
  refine keeps_iff.mpr fun s hs => ?_
  obtain ⟨m, turns, _, _, ⟨e, _, heq⟩ | heq⟩ := call_cases kind x s
  · rw [heq]
    exact hs
  · rw [heq]
    exact hs

theorem keeps_txn_beginAs {txn : Option TransactionState} (readOnly : Bool) (asOf : Option ℕ) :
    Keeps (fun s : Session K V => s.txn = txn) (beginAs readOnly asOf) := by
  unfold beginAs
  split
  · exact (keeps_txn_call _).bind fun _ => Keeps.bind (fun _ hs => hs) fun _ => keeps_pure
  · exact keeps_txn_call _
  · exact keeps_fail

theorem keeps_txn_commit {current : Option TransactionState} (txn : TransactionState) :
    Keeps (fun s : Session K V => s.txn = current) (commit txn) := by
  unfold commit
  split_ifs
  · exact keeps_pure
  · exact keeps_txn_call _

theorem keeps_txn_rollback {current : Option TransactionState} (txn : TransactionState) :
    Keeps (fun s : Session K V => s.txn = current) (rollback txn) := by
  unfold rollback
  split_ifs
  · exact keeps_pure
  · exact keeps_txn_call _

theorem keeps_txn_runBody {current : Option TransactionState} (txn : TransactionState)
    (body : Body K V T) : Keeps (fun s : Session K V => s.txn = current) (runBody txn body) := by
  induction body with
  | done result =>
      cases result with
      | ok a => exact keeps_pure
      | error e => exact keeps_fail
  | call script next ih => exact Keeps.bind (keeps_attempt (keeps_txn_call _)) ih

theorem keeps_txn_withTxn {current : Option TransactionState} (readOnly : Bool)
    (body : Body K V T) : Keeps (fun s : Session K V => s.txn = current) (withTxn readOnly body) := by
  refine Keeps.bind keeps_read fun own => ?_
  cases own with
  | some txn => exact keeps_txn_runBody txn body
  | none =>
      have hbegin : Keeps (fun s : Session K V => s.txn = current)
          (if readOnly then beginReadOnly none else begin) := by
        split_ifs
        · exact keeps_txn_beginAs true none
        · exact keeps_txn_beginAs false none
      refine hbegin.bind fun txn => (keeps_attempt (keeps_txn_runBody txn body)).bind fun result => ?_
      cases result with
      | ok a => exact (keeps_txn_commit txn).bind fun _ => keeps_pure
      | error e => exact (keeps_txn_rollback txn).bind fun _ => keeps_fail

end

end Session
end
end ToyDB.Sql
