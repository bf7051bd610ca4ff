import ToyDB.Mvcc.Transaction

/-!
# Scripts of transaction calls

What a layer above does with a transaction: a tree of calls, each continued by its
result. `run` makes the calls on the engine. `exec` runs a script on the entries that
the transaction sees, as if it were alone, where no write is refused.
-/
namespace ToyDB.Mvcc
open ToyDB.Collections ToyDB.Effects ToyDB.Storage

inductive Script (K V α : Type) where
  | done (result : Except Failure α)
  | get (key : K) (next : Option V → Script K V α)
  | scan (range : K → Bool) (next : List (K × V) → Script K V α)
  | write (key : K) (value : Option V) (next : Script K V α)

namespace Script
variable {K V α β : Type}

protected def bind : Script K V α → (α → Script K V β) → Script K V β
  | done (.ok a), f => f a
  | done (.error c), _ => done (.error c)
  | get key next, f => get key fun value => (next value).bind f
  | scan range next, f => scan range fun entries => (next entries).bind f
  | write key value next, f => write key value (next.bind f)

instance : Monad (Script K V) where
  pure a := done (.ok a)
  bind := Script.bind

def fail (c : Failure) : Script K V α := done (.error c)

/-- An invalid input error. -/
def errinput (message : String) : Script K V α := fail (.error (.invalidInput message))

def read (key : K) : Script K V (Option V) := get key fun value => done (.ok value)

/-- The entries whose keys satisfy the predicate, in key order. -/
def entries (range : K → Bool) : Script K V (List (K × V)) :=
  scan range fun found => done (.ok found)

def set (key : K) (value : V) : Script K V Unit := write key (some value) (done (.ok ()))

def delete (key : K) : Script K V Unit := write key none (done (.ok ()))

section Runs
variable [LinearOrder K]

/-- Runs a script on the entries that the transaction sees, and returns the entries that
it sees afterwards. -/
def exec : Script K V α → OrderedMap K V → Except Failure α × OrderedMap K V
  | done result, m => (result, m)
  | get key next, m => (next (m.get key)).exec m
  | scan range next, m => (next (m.scan range)).exec m
  | write key (some value) next, m => next.exec (m.insert key value)
  | write key none next, m => next.exec (m.erase key)

/-- The result of a script that only reads. -/
def eval (x : Script K V α) (m : OrderedMap K V) : Except Failure α := (x.exec m).1

/-- All entries that a scan emits, collected at once. -/
def scanAll (t : TransactionState) (range : K → Bool) : Action K V (List (K × V)) := do
  let found ← Store.scan (Key.isVersion range)
  let versions ← visibleVersions t found
  let (buffer, _) ← ScanIterator.fill (found.length + 1) versions []
  return buffer

/-- Makes the calls of a script. -/
def run (t : TransactionState) : Script K V α → Action K V α
  | done (.ok a) => pure a
  | done (.error c) => Program.fail c
  | get key next => do (next (← t.get key)).run t
  | scan range next => do (next (← scanAll t range)).run t
  | write key value next => do
      t.writeVersion key value
      next.run t

end Runs

/-! ## Sequencing -/

@[simp] theorem bind_done_ok (a : α) (f : α → Script K V β) : done (.ok a) >>= f = f a := rfl

@[simp] theorem bind_done_error (c : Failure) (f : α → Script K V β) :
    done (.error c) >>= f = done (.error c) := rfl

theorem bind_pure_id (x : Script K V α) : x.bind (fun a => done (.ok a)) = x := by
  induction x with
  | done result => cases result <;> rfl
  | get key next ih => exact congrArg (get key) (funext ih)
  | scan range next ih => exact congrArg (scan range) (funext ih)
  | write key value next ih => exact congrArg (write key value) ih

theorem bind_bind {γ : Type} (x : Script K V α) (f : α → Script K V β) (g : β → Script K V γ) :
    (x.bind f).bind g = x.bind fun a => (f a).bind g := by
  induction x with
  | done result => cases result <;> rfl
  | get key next ih => exact congrArg (get key) (funext ih)
  | scan range next ih => exact congrArg (scan range) (funext ih)
  | write key value next ih => exact congrArg (write key value) ih

instance : LawfulMonad (Script K V) :=
  LawfulMonad.mk' _ bind_pure_id (fun _ _ => rfl) bind_bind

theorem exec_bind [LinearOrder K] (x : Script K V α) (f : α → Script K V β)
    (m : OrderedMap K V) : (x >>= f).exec m =
      match x.exec m with
      | (.ok a, m') => (f a).exec m'
      | (.error c, m') => (.error c, m') := by
  change (Script.bind x f).exec m = _
  induction x generalizing m with
  | done result => cases result <;> rfl
  | get key next ih => exact ih _ m
  | scan range next ih => exact ih _ m
  | write key value next ih => cases value <;> exact ih _

end Script
end ToyDB.Mvcc
