import Mathlib.Data.Prod.Lex
import ToyDB.Raft.Log
import ToyDB.Storage.Engine

/-!
# The Raft log on its storage engine

The log as the code stores it: entries by index, the term and vote, and the commit
index are keys of a storage engine, and the log keeps its last and commit positions
in memory. Engine operations are taken to be durable in order; flushing is left out.
-/
namespace ToyDB.Raft
open ToyDB.Collections ToyDB.Effects ToyDB.Storage

/-- A log storage key. -/
inductive Key where
  | entry (index : ℕ)
  | termVote
  | commitIndex
  deriving DecidableEq

namespace Key

/-- The order of the encoded keys. -/
def rank : Key → ℕ ×ₗ ℕ
  | entry index => toLex (0, index)
  | termVote => toLex (1, 0)
  | commitIndex => toLex (2, 0)

theorem rank_injective : Function.Injective rank := by
  intro a b h
  cases a <;> cases b <;> simp_all [rank]

instance : LinearOrder Key := LinearOrder.lift' rank rank_injective

def isEntry : Key → Bool
  | entry _ => true
  | _ => false

/-- The key is in the inclusive range of entries. -/
def inRange (first last : ℕ) (key : Key) : Bool := entry first ≤ key ∧ key ≤ entry last

end Key

/-- A stored value, as decoded for its key. -/
inductive Value where
  | entry (entry : Entry)
  | termVote (term : ℕ) (vote : Option NodeID)
  | commitIndex (index : ℕ) (term : ℕ)
  deriving DecidableEq

/-- A program of the log on its engine. -/
abbrev LogAction (α : Type) := Store Key Value Failure α

def decodeEntry : Value → LogAction Entry
  | .entry entry => return entry
  | _ => Program.fail (.error (.invalidData "entry"))

def decodeTermVote : Option Value → LogAction (ℕ × Option NodeID)
  | none => return (0, none)
  | some (.termVote term vote) => return (term, vote)
  | some _ => Program.fail (.error (.invalidData "term and vote"))

def decodeCommitIndex : Option Value → LogAction (ℕ × ℕ)
  | none => return (0, 0)
  | some (.commitIndex index term) => return (index, term)
  | some _ => Program.fail (.error (.invalidData "commit index"))

/-- What the log keeps in memory. -/
structure StoredLog where
  term : ℕ
  vote : Option NodeID
  lastIndex : ℕ
  lastTerm : ℕ
  commitIndex : ℕ
  commitTerm : ℕ
  deriving DecidableEq

namespace StoredLog

/-- The index and term of the last stored entry, or zeroes. -/
def loadLast : Option (Key × Value) → LogAction (ℕ × ℕ)
  | none => return (0, 0)
  | some (_, value) => do
      let entry ← decodeEntry value
      return (entry.index, entry.term)

/-- Loads the log of an engine. -/
def new : LogAction StoredLog := do
  let (term, vote) ← decodeTermVote (← Store.get .termVote)
  let entries ← Store.scan Key.isEntry
  let (lastIndex, lastTerm) ← loadLast entries.getLast?
  let (commitIndex, commitTerm) ← decodeCommitIndex (← Store.get .commitIndex)
  return ⟨term, vote, lastIndex, lastTerm, commitIndex, commitTerm⟩

def setTermVote (self : StoredLog) (term : ℕ) (vote : Option NodeID) : LogAction StoredLog := do
  assert (0 < term) "can't set term 0"
  assert (self.term ≤ term) "term regression"
  assert (self.term < term ∨ self.vote = none ∨ vote = self.vote) "can't change vote"
  if term = self.term ∧ vote = self.vote then
    return self
  Store.set .termVote (.termVote term vote)
  return { self with term := term, vote := vote }

def append (self : StoredLog) (command : Option Bytes) : LogAction (StoredLog × ℕ) := do
  assert (0 < self.term) "can't append entry in term 0"
  let entry : Entry := ⟨self.lastIndex + 1, self.term, command⟩
  Store.set (.entry entry.index) (.entry entry)
  return ({ self with lastIndex := entry.index, lastTerm := entry.term }, entry.index)

def get (index : ℕ) : LogAction (Option Entry) := do
  match ← Store.get (.entry index) with
  | some value => some <$> decodeEntry value
  | none => return none

def commit (self : StoredLog) (index : ℕ) : LogAction StoredLog := do
  match ← get index with
  | none => panic "commit index does not exist"
  | some entry =>
      if entry.index < self.commitIndex then
        panic "commit index regression"
      else if entry.index = self.commitIndex then
        return self
      else
        Store.set .commitIndex (.commitIndex index entry.term)
        return { self with commitIndex := index, commitTerm := entry.term }

def has (self : StoredLog) (index : ℕ) (term : ℕ) : LogAction Bool := do
  if index = 0 ∨ self.lastIndex < index then
    return false
  else if (index, term) = (self.lastIndex, self.lastTerm) then
    return true
  else
    match ← get index with
    | some entry => return entry.term = term
    | none => return false

/-- The entries of an inclusive index range. -/
def scan (first last : ℕ) : LogAction (List Entry) := do
  let found ← Store.scan (Key.inRange first last)
  found.mapM fun p => decodeEntry p.2

/-- The entries ready to apply: after the applied index, up to the commit index. -/
def scanApply (self : StoredLog) (appliedIndex : ℕ) : LogAction (List Entry) :=
  if self.commitIndex ≤ appliedIndex then
    return []
  else
    scan (appliedIndex + 1) self.commitIndex

/-- Writes the entries that are not in the log yet, one by one, and then removes the
tail of the old log, one by one. -/
def writeMissing (self : StoredLog) (entries : List Entry) (last : Entry) :
    LogAction (StoredLog × ℕ) := do
  match entries.head? with
  | none => return (self, self.lastIndex)
  | some first =>
      assert (self.commitIndex < first.index) "spliced entries below commit index"
      entries.forM fun entry => Store.set (.entry entry.index) (.entry entry)
      (List.range' (last.index + 1) (self.lastIndex - last.index)).forM fun index =>
        Store.delete (.entry index)
      return ({ self with lastIndex := last.index, lastTerm := last.term }, last.index)

def splice (self : StoredLog) (entries : List Entry) : LogAction (StoredLog × ℕ) := do
  match entries.head?, entries.getLast? with
  | some first, some last =>
      assert (0 < first.index ∧ 0 < first.term) "spliced entry has index or term 0"
      assert (Log.windows (fun a b => a.index + 1 = b.index) entries)
        "spliced entries are not contiguous"
      assert (Log.windows (fun a b => a.term ≤ b.term) entries)
        "spliced entries have term regression"
      assert (last.term ≤ self.term) "splice term beyond current"
      match ← get (first.index - 1) with
      | some base => assert (base.term ≤ first.term) "splice term regression"
      | none => assert (first.index = 1) "first index must touch existing log"
      let stored ← scan first.index last.index
      let missing ← Log.skipPresent stored entries
      self.writeMissing missing last
  | _, _ => return (self, self.lastIndex)

end StoredLog
end ToyDB.Raft
