import Mathlib.Data.Finset.Max
import Mathlib.Data.Prod.Lex
import Mathlib.Order.WithBot
import ToyDB.Error
import ToyDB.Storage.Engine

/-!
# Multi-version transactions on a storage engine

The transactions of the store as programs on its engine. User keys and values are
arbitrary types; the engine keys and values are structured as the code decodes them,
with the key order of their encoding. Each program runs under the engine lock.
Versions are unbounded, so the highest version is no bound at all.
-/
namespace ToyDB.Mvcc
open ToyDB.Collections ToyDB.Effects ToyDB.Storage

/-- An engine key. -/
inductive Key (K : Type) where
  | nextVersion
  | txnActive (version : ℕ)
  | txnActiveSnapshot (version : ℕ)
  | txnWrite (version : ℕ) (key : K)
  | version (key : K) (version : ℕ)
  | unversioned (key : K)
  deriving DecidableEq

namespace Key
variable {K : Type}

/-- The order of the encoded keys: by variant, then by the fields in order. -/
def rank : Key K → ℕ ×ₗ ℕ ×ₗ WithBot K ×ₗ ℕ
  | nextVersion => toLex (0, toLex (0, toLex (⊥, 0)))
  | txnActive v => toLex (1, toLex (v, toLex (⊥, 0)))
  | txnActiveSnapshot v => toLex (2, toLex (v, toLex (⊥, 0)))
  | txnWrite v key => toLex (3, toLex (v, toLex (WithBot.some key, 0)))
  | version key v => toLex (4, toLex (0, toLex (WithBot.some key, v)))
  | unversioned key => toLex (5, toLex (0, toLex (WithBot.some key, 0)))

theorem rank_injective : Function.Injective (rank (K := K)) := by
  intro a b h
  cases a <;> cases b <;> simp_all [rank]

instance [LinearOrder K] : LinearOrder (Key K) := LinearOrder.lift' rank rank_injective

/-- Versions are ordered by user key first. -/
theorem version_le_iff [LinearOrder K] {k k' : K} {u v : ℕ} :
    version k u ≤ version k' v ↔ k < k' ∨ k = k' ∧ u ≤ v := by
  change rank (version k u) ≤ rank (version k' v) ↔ _
  simp [rank, Prod.Lex.toLex_le_toLex]

def isTxnActive : Key K → Bool
  | txnActive _ => true
  | _ => false

/-- The key is a write record of the version. -/
def isTxnWrite (v : ℕ) : Key K → Bool
  | txnWrite u _ => u = v
  | _ => false

/-- The key is a version of a user key that satisfies the predicate. -/
def isVersion (p : K → Bool) : Key K → Bool
  | version key _ => p key
  | _ => false

section
variable [DecidableEq K]

/-- The key is a version of a user key, from a version on. -/
def versionsFrom (k : K) (first : ℕ) : Key K → Bool
  | version key v => key = k ∧ first ≤ v
  | _ => false

/-- The key is a version of a user key, up to a version. -/
def versionsTo (k : K) (last : ℕ) : Key K → Bool
  | version key v => key = k ∧ v ≤ last
  | _ => false

end
end Key

/-- An engine value, as decoded for its key. -/
inductive Value (V : Type) where
  | version (version : ℕ)
  | active (versions : Finset ℕ)
  | empty
  | data (value : Option V)
  | raw (value : V)
  deriving DecidableEq

/-- A program on the engine. -/
abbrev Action (K V : Type) [LinearOrder K] (α : Type) := Store (Key K) (Value V) Failure α

structure TransactionState where
  version : ℕ
  readOnly : Bool
  active : Finset ℕ
  deriving DecidableEq

/-- Whether a version is visible to the transaction. -/
def TransactionState.isVisible (self : TransactionState) (version : ℕ) : Bool :=
  if version ∈ self.active then false
  else if self.readOnly then version < self.version
  else version ≤ self.version

section Transactions
variable {K V : Type} [LinearOrder K]

def decodeVersion : Option (Value V) → Action K V ℕ
  | none => return 1
  | some (.version version) => return version
  | some _ => errdata "version"

def decodeActive : Option (Value V) → Action K V (Finset ℕ)
  | none => return ∅
  | some (.active versions) => return versions
  | some _ => errdata "active set"

def decodeData : Value V → Action K V (Option V)
  | .data value => return value
  | _ => errdata "value"

def getUnversioned (key : K) : Action K V (Option V) := do
  match ← Store.get (.unversioned key) with
  | none => return none
  | some (.raw value) => return some value
  | some _ => errdata "value"

def setUnversioned (key : K) (value : V) : Action K V Unit :=
  Store.set (.unversioned key) (.raw value)

/-- Collects the versions of scanned activity records. -/
def collectActive : List (Key K × Value V) → Finset ℕ → Action K V (Finset ℕ)
  | [], active => return active
  | (.txnActive version, _) :: rest, active => collectActive rest (insert version active)
  | _ :: _, _ => errdata "expected TxnActive key"

def scanActive : Action K V (Finset ℕ) := do
  let found ← Store.scan Key.isTxnActive
  collectActive found ∅

namespace TransactionState

def begin : Action K V TransactionState := do
  let version ← decodeVersion (← Store.get .nextVersion)
  Store.set .nextVersion (.version (version + 1))
  let active ← scanActive
  if active.Nonempty then
    Store.set (.txnActiveSnapshot version) (.active active)
  Store.set (.txnActive version) .empty
  return ⟨version, false, active⟩

def beginReadOnly (asOf : Option ℕ) : Action K V TransactionState := do
  let version ← decodeVersion (← Store.get .nextVersion)
  match asOf with
  | some asOf =>
      if version ≤ asOf then
        errinput s!"version {asOf} does not exist"
      else do
        let active ← decodeActive (← Store.get (.txnActiveSnapshot asOf))
        return ⟨asOf, true, active⟩
  | none => do
      let active ← scanActive
      return ⟨version, true, active⟩

def resume (state : TransactionState) : Action K V TransactionState := do
  if state.readOnly then
    return state
  else
    match ← Store.get (.txnActive state.version) with
    | none => errinput s!"no active transaction at version {state.version}"
    | some _ => return state

def commit (self : TransactionState) : Action K V Unit := do
  if self.readOnly then
    return ()
  else
    let found ← Store.scan (Key.isTxnWrite self.version)
    found.forM fun entry => Store.delete entry.1
    Store.delete (.txnActive self.version)

/-- The keys to delete for scanned write records: each written version, and the record. -/
def rollbackKeys (version : ℕ) : List (Key K × Value V) → Action K V (List (Key K))
  | [] => return []
  | (.txnWrite v key, _) :: rest => do
      let keys ← rollbackKeys version rest
      return .version key version :: .txnWrite v key :: keys
  | _ :: _ => errdata "expected TxnWrite"

def rollback (self : TransactionState) : Action K V Unit := do
  if self.readOnly then
    return ()
  else
    let found ← Store.scan (Key.isTxnWrite self.version)
    let keys ← rollbackKeys self.version found
    keys.forM Store.delete
    Store.delete (.txnActive self.version)

/-- Fails if the latest version of the key is invisible. -/
def checkConflict (self : TransactionState) : Option (Key K × Value V) → Action K V Unit
  | none => return ()
  | some (.version _ version, _) =>
      Program.ensure (self.isVisible version) (.error .serialization)
  | some _ => errdata "expected Key::Version"

def writeVersion (self : TransactionState) (key : K) (value : Option V) : Action K V Unit := do
  Program.ensure (self.readOnly = false) (.error .readOnly)
  let first := self.active.min.untopD (self.version + 1)
  let found ← Store.scan (Key.versionsFrom key first)
  self.checkConflict found.getLast?
  Store.set (.txnWrite self.version key) .empty
  Store.set (.version key self.version) (.data value)

def delete (self : TransactionState) (key : K) : Action K V Unit := self.writeVersion key none

def set (self : TransactionState) (key : K) (value : V) : Action K V Unit :=
  self.writeVersion key (some value)

/-- The value of the first visible version. -/
def firstVisible (self : TransactionState) : List (Key K × Value V) → Action K V (Option V)
  | [] => return none
  | (.version _ version, value) :: rest =>
      if self.isVisible version then decodeData value else self.firstVisible rest
  | _ :: _ => errdata "expected Key::Version"

def get (self : TransactionState) (key : K) : Action K V (Option V) := do
  let found ← Store.scan (Key.versionsTo key self.version)
  self.firstVisible found.reverse

end TransactionState

/-! ## Scans -/

/-- The visible versions among scanned entries. -/
def visibleVersions (txn : TransactionState) :
    List (Key K × Value V) → Action K V (List (K × ℕ × Value V))
  | [] => return []
  | (.version key version, value) :: rest => do
      let versions ← visibleVersions txn rest
      return if txn.isVisible version then (key, version, value) :: versions else versions
  | _ :: _ => errdata "expected Key::Version"

/-- A scan in progress: the entries to emit, and the engine keys that remain. -/
structure ScanIterator (K V : Type) where
  txn : TransactionState
  buffer : List (K × V)
  remainder : Option (Key K → Bool)

namespace ScanIterator

def new (txn : TransactionState) (range : Key K → Bool) : ScanIterator K V := ⟨txn, [], some range⟩

/-- Appends the latest live value of each key to the buffer until it has the given size;
returns also the first version that remains. -/
def fill (size : ℕ) : List (K × ℕ × Value V) → List (K × V) →
    Action K V (List (K × V) × Option (K × ℕ))
  | [], buffer => return (buffer, none)
  | (key, _, value) :: rest, buffer => do
      if rest.head?.any fun next => next.1 = key then
        fill size rest buffer
      else
        match ← decodeData value with
        | none => fill size rest buffer
        | some value =>
            let buffer := buffer ++ [(key, value)]
            if buffer.length = size then
              return (buffer, rest.head?.map fun next => (next.1, next.2.1))
            else
              fill size rest buffer

def fillBuffer (size : ℕ) (self : ScanIterator K V) : Action K V (ScanIterator K V) := do
  if size ≤ self.buffer.length then
    return self
  else
    match self.remainder with
    | none => return self
    | some range =>
        let found ← Store.scan range
        let versions ← visibleVersions self.txn found
        let (buffer, next) ← fill size versions self.buffer
        return { self with
          buffer := buffer
          remainder := next.map fun (key, version) engineKey =>
            Key.version key version ≤ engineKey ∧ range engineKey }

/-- The next entry, and the iterator after it. -/
def next (size : ℕ) (self : ScanIterator K V) :
    Action K V (Option (K × V) × ScanIterator K V) := do
  let self ← if self.buffer.isEmpty then self.fillBuffer size else pure self
  return (self.buffer.head?, { self with buffer := self.buffer.tail })

end ScanIterator

/-- A bound of a key range. -/
inductive Bound (K : Type) where
  | included (key : K)
  | excluded (key : K)
  | unbounded

/-- The key is not below the bound. -/
def Bound.startsAt : Bound K → K → Bool
  | included key, k => key ≤ k
  | excluded key, k => key < k
  | unbounded, _ => true

/-- The key is not above the bound. -/
def Bound.endsAt : Bound K → K → Bool
  | included key, k => k ≤ key
  | excluded key, k => k < key
  | unbounded, _ => true

namespace TransactionState

def scan (self : TransactionState) (first last : Bound K) : ScanIterator K V :=
  ScanIterator.new self (Key.isVersion fun k => first.startsAt k && last.endsAt k)

/-- Scans the keys under a prefix, which is given as the set of these keys. -/
def scanPrefix (self : TransactionState) (isUnder : K → Bool) : ScanIterator K V :=
  ScanIterator.new self (Key.isVersion isUnder)

end TransactionState
end Transactions
end ToyDB.Mvcc
