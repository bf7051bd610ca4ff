import ToyDB.Sql.Execution.Session

/-!
# Clients

A client sends statements over a connection to a session and keeps track of the
transaction by their responses. Each exchange of a statement and its response is an
event. Failures of the connection are left out.
-/
namespace ToyDB.Sql
open ToyDB.Effects ToyDB.Mvcc

section
variable {K V T A : Type}

variable [LinearOrder K]

/-- The engine call by which the statement ends the transaction of the session. -/
def Session.Statement.ending : Session.Statement K V T →
    Option (TransactionState → SessionAction K V Unit)
  | commit => some Session.commit
  | rollback => some Session.rollback
  | _ => none

/-- The engine call that ends the transaction of the session, if any, does not fail. The
session no longer holds the transaction at the call. -/
def Session.Finishes (s : Session K V)
    (ending : Option (TransactionState → SessionAction K V Unit)) : Prop :=
  ∀ finish ∈ ending, ∀ txn ∈ s.txn, (finish txn { s with txn := none }).result.isOk = true

instance (s : Session K V) (ending : Option (TransactionState → SessionAction K V Unit)) :
    Decidable (s.Finishes ending) :=
  inferInstanceAs (Decidable (∀ finish ∈ ending, ∀ txn ∈ s.txn, _ = true))

/-- A client with the session that serves it. -/
structure Connection (K V : Type) [LinearOrder K] where
  /-- What the client takes to be the current transaction, if any. -/
  txn : Option TransactionState
  session : Session K V

/-- The client considers itself in a transaction exactly if the session holds one. -/
def Connection.Agrees (c : Connection K V) : Prop := c.txn.isSome = c.session.txn.isSome

instance (c : Connection K V) : Decidable c.Agrees := inferInstanceAs (Decidable (_ = _))

/-- A statement and its response. -/
structure Exchange (K V : Type) [LinearOrder K] where
  /-- The states before the statement and after its response. -/
  before : Connection K V
  after : Connection K V
  /-- The engine call of a COMMIT or ROLLBACK. -/
  ending : Option (TransactionState → SessionAction K V Unit)
  /-- The statement is the ROLLBACK of a retry. -/
  retry : Bool

abbrev ClientAction (K V : Type) [LinearOrder K] (α : Type) :=
  Program (Connection K V) (Exchange K V) Error α

namespace Client

/-- The client's transaction after a response. -/
def updated (txn : Option TransactionState) : Except Error (StatementResult T) →
    Option TransactionState
  | .ok (.begin state) => some state
  | .ok (.commit _) | .ok (.rollback _) => none
  | _ => txn

def new (turns : List (Turn K V)) : Connection K V := ⟨none, Session.new turns⟩

/-- Executes a statement, which may be the ROLLBACK of a retry. -/
def executeAs (retry : Bool) (statement : Session.Statement K V T) :
    ClientAction K V (StatementResult T) := fun c =>
  let o := Session.execute statement c.session
  let after := ⟨updated c.txn o.result, o.state⟩
  ⟨o.result, after, [⟨c, after, statement.ending, retry⟩]⟩

def execute (statement : Session.Statement K V T) : ClientAction K V (StatementResult T) :=
  executeAs false statement

/-- The transaction state, as the client sees it. -/
def txn : ClientAction K V (Option TransactionState) := Program.draw fun c => (c.txn, c)

/-- Rolls back if the client is in a transaction. -/
def rollbackOpen : ClientAction K V Unit := do
  match ← txn with
  | none => return ()
  | some _ =>
      let _ ← executeAs (T := Unit) true .rollback
      return ()

/-- Runs the closure, and again after a serialization or abort error while retries are
left. -/
def withRetry (f : ClientAction K V A) : ℕ → ClientAction K V A
  | 0 => do
      match ← f.attempt with
      | .ok result => return result
      | .error e =>
          let _ ← rollbackOpen.attempt
          Program.fail e
  | retries + 1 => do
      match ← f.attempt with
      | .ok result => return result
      | .error e =>
          if e = .serialization ∨ e = .abort then
            rollbackOpen
            withRetry f retries
          else
            let _ ← rollbackOpen.attempt
            Program.fail e

/-- The number of retries of a closure. -/
def maxRetries : ℕ := 10

end Client

/-- What a client does: statements, each continued by its response, and closures that it
retries. -/
inductive Routine (K V T A : Type) : Type 1 where
  | done (result : Except Error A)
  | txn (next : Option TransactionState → Routine K V T A)
  | execute (statement : Session.Statement K V T)
      (next : Except Error (StatementResult T) → Routine K V T A)
  | withRetry (f : Routine K V T A) (next : Except Error A → Routine K V T A)

def Routine.run : Routine K V T A → ClientAction K V A
  | done (.ok result) => return result
  | done (.error e) => Program.fail e
  | txn next => do (next (← Client.txn)).run
  | execute statement next => do (next (← (Client.execute statement).attempt)).run
  | withRetry f next => do
      (next (← (Client.withRetry f.run Client.maxRetries).attempt)).run

/-! ## Statements -/

namespace Session
variable {current : Option TransactionState}

/-- What ends a transaction leaves the session without one. -/
theorem triple_ends {x : TransactionState → SessionAction K V Unit}
    (hx : ∀ txn, Keeps (fun s : Session K V => s.txn = none) (x txn))
    {result : TransactionState → StatementResult T} {Q : StatementResult T → Session K V → Prop}
    (hQ : ∀ txn s, s.txn = none → Q (result txn) s) :
    Triple (fun s : Session K V => s.txn = current)
      (do
        match ← takeTxn with
        | none => errinput "not in a transaction"
        | some txn =>
            x txn
            return result txn)
      Q fun _ s => s.txn = none := by
  refine Triple.bind (Q := fun _ s => s.txn = none) (triple_draw fun s _ => rfl) fun own => ?_
  cases own with
  | none => exact triple_fail fun s hs => hs
  | some txn => exact Triple.bind (hx txn) fun _ => triple_pure fun s hs => hQ txn s hs

/-- The session has the transaction that the response tells; a COMMIT or ROLLBACK that
fails has ended it as well. -/
theorem triple_execute (current : Option TransactionState) (statement : Statement K V T) :
    Triple (fun s : Session K V => s.txn = current) (execute statement)
      (fun result s => s.txn = Client.updated current (.ok result))
      fun _ s => s.txn = if statement.ending.isSome then none else current := by
  cases statement with
  | invalid e => exact triple_fail fun s hs => hs
  | run readOnly body =>
      refine Triple.bind (Q := fun _ s => s.txn = current) ?_ fun result => triple_pure fun s hs => hs
      exact keeps_txn_withTxn readOnly body
  | begin readOnly asOf =>
      refine Triple.bind keeps_read fun own => ?_
      cases own with
      | some txn => exact triple_fail fun s hs => hs
      | none =>
          refine Triple.bind (keeps_txn_beginAs readOnly asOf) fun txn => ?_
          exact Triple.bind (Q := fun _ s => s.txn = some txn) (triple_draw fun s _ => rfl)
            fun _ => triple_pure fun s hs => hs
  | commit => exact triple_ends keeps_txn_commit fun txn s hs => hs
  | rollback => exact triple_ends keeps_txn_rollback fun txn s hs => hs

/-- What ends a transaction is answered as its engine call. -/
theorem isOk_ends {s : Session K V} {txn : TransactionState} (htxn : s.txn = some txn)
    (finish : TransactionState → SessionAction K V Unit)
    (result : TransactionState → StatementResult T) :
    ((do
      match ← takeTxn with
      | none => errinput "not in a transaction"
      | some txn =>
          finish txn
          return result txn : SessionAction K V (StatementResult T)) s).result.isOk =
      (finish txn { s with txn := none }).result.isOk := by
  have htake : takeTxn s = ⟨.ok (some txn), { s with txn := none }, []⟩ := by
    rw [← htxn]
    rfl
  change (Program.bind takeTxn _ s).result.isOk = _
  rw [Program.bind, htake]
  change (Program.bind (finish txn) _ _).result.isOk = _
  unfold Program.bind
  obtain ⟨answer, _, _⟩ := finish txn { s with txn := none }
  cases answer <;> rfl

theorem isOk_execute {s : Session K V} {statement : Statement K V T} {txn : TransactionState}
    {finish : TransactionState → SessionAction K V Unit} (hf : statement.ending = some finish)
    (htxn : s.txn = some txn) :
    (execute statement s).result.isOk = (finish txn { s with txn := none }).result.isOk := by
  cases statement with
  | invalid | run | begin => cases hf
  | commit =>
      obtain rfl := Option.some.inj hf
      exact isOk_ends htxn _ fun txn => .commit txn.version
  | rollback =>
      obtain rfl := Option.some.inj hf
      exact isOk_ends htxn _ fun txn => .rollback txn.version

theorem finishes_iff {s : Session K V} {statement : Statement K V T} :
    s.Finishes statement.ending ↔ (statement.ending.isSome = true → s.txn.isSome = true →
      (execute statement s).result.isOk = true) := by
  cases hf : statement.ending with
  | none => simp [Finishes]
  | some finish =>
      cases htxn : s.txn with
      | none => simp [Finishes, htxn]
      | some txn => simp [Finishes, htxn, isOk_execute hf htxn]

end Session

namespace Client
variable {c : Connection K V}

theorem isSome_updated {txn txn' : Option TransactionState} (h : txn.isSome = txn'.isSome)
    (result : Except Error (StatementResult T)) :
    (updated txn result).isSome = (updated txn' result).isSome := by
  cases result with
  | error e => exact h
  | ok result =>
      cases result with
      | begin | commit | rollback => rfl
      | run => exact h

/-- Client and session go on agreeing unless the engine call that ends the transaction of
the session fails. -/
theorem agrees_executeAs_iff (hc : c.Agrees) (retry : Bool) (statement : Session.Statement K V T) :
    (executeAs retry statement c).state.Agrees ↔ c.session.Finishes statement.ending := by
  rw [Session.finishes_iff]
  have h := Session.triple_execute c.session.txn statement c.session rfl
  unfold executeAs Connection.Agrees
  cases hr : (Session.execute statement c.session).result with
  | ok result =>
      rw [hr] at h
      simp only [h, hr]
      exact iff_of_true (isSome_updated hc _) fun _ _ => rfl
  | error e =>
      rw [hr] at h
      have hc : c.txn.isSome = c.session.txn.isSome := hc
      simp only [h, hr, updated, hc]
      cases statement.ending with
      | none => simp
      | some finish => cases c.session.txn <;> simp [Except.isOk, Except.toBool]

end Client

/-! ## Runs -/

/-- The engine call of a COMMIT or ROLLBACK of the session's transaction does not fail. -/
def Exchange.Answered (e : Exchange K V) : Prop := e.before.session.Finishes e.ending

/-- Client and session agree after the response, and the session is in a transaction
before the ROLLBACK of a retry. -/
def Exchange.Sound (e : Exchange K V) : Prop :=
  e.after.Agrees ∧ (e.retry = true → e.before.session.txn.isSome = true)

/-- If all exchanges are answered, the program keeps client and session in agreement. -/
def Agreeing {α : Type} (P : Connection K V → Prop) (x : ClientAction K V α) : Prop :=
  Guarantees Exchange.Answered Exchange.Sound (fun c => c.Agrees ∧ P c) x
    (fun _ => Connection.Agrees) fun _ => Connection.Agrees

namespace Client

theorem agreeing_executeAs (retry : Bool) (statement : Session.Statement K V T) :
    Agreeing (fun c => retry = true → c.txn.isSome = true) (executeAs retry statement) := by
  intro c ⟨hc, hretry⟩ hA
  have hanswered := hA _ List.mem_cons_self
  have hagrees := (agrees_executeAs_iff hc retry statement).mpr hanswered
  refine ⟨fun e he => ?_, ?_⟩
  · obtain rfl := List.mem_singleton.mp he
    exact ⟨hagrees, fun hr => hc ▸ hretry hr⟩
  · cases (executeAs retry statement c).result <;> exact hagrees

theorem agreeing_execute (statement : Session.Statement K V T) :
    Agreeing (fun _ => True) (execute statement) :=
  (agreeing_executeAs false statement).mono (fun _ hc => ⟨hc.1, fun h => (nomatch h)⟩)
    (fun _ _ hc => hc) fun _ _ hc => hc

theorem agreeing_rollbackOpen : Agreeing (fun _ => True) (rollbackOpen : ClientAction K V Unit) := by
  refine Guarantees.bind (Q := fun txn c => c.Agrees ∧ c.txn = txn)
    (guarantees_draw fun c hc => ⟨hc.1, rfl⟩) fun txn => ?_
  cases txn with
  | none => exact guarantees_pure fun c hc => hc.1
  | some txn =>
      refine Guarantees.bind ?_ fun _ => guarantees_pure fun c hc => hc
      exact (agreeing_executeAs true .rollback).mono
        (fun c hc => ⟨hc.1, fun _ => by rw [hc.2]; rfl⟩) (fun _ _ hc => hc) fun _ _ hc => hc

theorem agreeing_attempt {α : Type} {x : ClientAction K V α} (h : Agreeing (fun _ => True) x) :
    Agreeing (fun _ => True) x.attempt :=
  guarantees_attempt h

theorem Agreeing.then {α β : Type} {x : ClientAction K V α} {f : α → ClientAction K V β}
    (hx : Agreeing (fun _ => True) x) (hf : ∀ a, Agreeing (fun _ => True) (f a)) :
    Agreeing (fun _ => True) (x >>= f) :=
  Guarantees.bind hx fun a => (hf a).mono (fun _ hc => ⟨hc, trivial⟩) (fun _ _ hc => hc)
    fun _ _ hc => hc

theorem agreeing_withRetry {f : ClientAction K V A} (hf : Agreeing (fun _ => True) f)
    (retries : ℕ) : Agreeing (fun _ => True) (withRetry f retries) := by
  have hgiveUp : ∀ e, Agreeing (fun _ => True)
      (rollbackOpen.attempt >>= fun _ => Program.fail e : ClientAction K V A) := fun e =>
    Agreeing.then (agreeing_attempt agreeing_rollbackOpen) fun _ => guarantees_fail fun _ hc => hc.1
  induction retries with
  | zero =>
      refine Agreeing.then (agreeing_attempt hf) fun result => ?_
      cases result with
      | ok a => exact guarantees_pure fun _ hc => hc.1
      | error e => exact hgiveUp e
  | succ retries ih =>
      refine Agreeing.then (agreeing_attempt hf) fun result => ?_
      cases result with
      | ok a => exact guarantees_pure fun _ hc => hc.1
      | error e =>
          change Agreeing _ (if e = .serialization ∨ e = .abort then _ else _)
          split_ifs
          · exact Agreeing.then agreeing_rollbackOpen fun _ => ih
          · exact hgiveUp e

end Client

theorem Routine.agreeing (routine : Routine K V T A) : Agreeing (fun _ => True) routine.run := by
  induction routine with
  | done result =>
      cases result with
      | ok a => exact guarantees_pure fun _ hc => hc.1
      | error e => exact guarantees_fail fun _ hc => hc.1
  | txn next ih => exact Client.Agreeing.then (guarantees_draw fun _ hc => hc.1) ih
  | execute statement next ih =>
      exact Client.Agreeing.then (Client.agreeing_attempt (Client.agreeing_execute statement)) ih
  | withRetry f next hf ih =>
      exact Client.Agreeing.then
        (Client.agreeing_attempt (Client.agreeing_withRetry hf Client.maxRetries)) ih

/-- In every run in which no engine call that ends the session's transaction fails, client
and session agree after each response, and no ROLLBACK of a retry finds the session
outside a transaction. -/
theorem Client.agrees_of_answered (turns : List (Turn K V)) (routine : Routine K V T A)
    (h : ∀ e ∈ (routine.run (Client.new turns)).events, e.Answered) :
    ∀ e ∈ (routine.run (Client.new turns)).events,
      e.after.Agrees ∧ (e.retry = true → e.before.session.txn.isSome = true) :=
  (routine.agreeing (Client.new turns) ⟨rfl, trivial⟩ h).1

/-- A closure that writes in a transaction of its own. -/
def Client.writer : Routine ℕ ℕ Unit Unit :=
  .execute (.begin false none) fun _ =>
    .execute (.run false (.call (Script.set 7 8) .done)) fun result =>
      match result with
      | .error e => .done (.error e)
      | .ok _ => .execute .commit fun result =>
          match result with
          | .error e => .done (.error e)
          | .ok _ => .done (.ok ())

/-- What happens at a call that fails with a serialization error. -/
def Turn.conflict : Turn ℕ ℕ := ⟨[], fun _ => some .serialization⟩

/-- A write that fails at first. -/
theorem Client.agrees_of_answered_writer :
    ((Routine.withRetry writer .done).run (Client.new [Turn.quiet, Turn.conflict])).events ≠ [] ∧
      ∀ e ∈ ((Routine.withRetry writer .done).run (Client.new [Turn.quiet, Turn.conflict])).events,
        e.after.Agrees ∧ (e.retry = true → e.before.session.txn.isSome = true) :=
  ⟨by decide +kernel, agrees_of_answered _ _ (by unfold Exchange.Answered; decide +kernel)⟩

/-- After a commit that fails, the client still considers itself in a transaction, and the
ROLLBACK of its retry finds none. -/
theorem Client.not_agrees : ¬ ∀ (turns : List (Turn ℕ ℕ)) (routine : Routine ℕ ℕ Unit Unit),
    ∀ e ∈ (routine.run (Client.new turns)).events,
      e.after.Agrees ∧ (e.retry = true → e.before.session.txn.isSome = true) := by
  intro h
  have hwriter := h [Turn.quiet, Turn.quiet, ⟨[], fun _ => some .abort⟩] (.withRetry writer .done)
  revert hwriter
  decide +kernel

end
end ToyDB.Sql
