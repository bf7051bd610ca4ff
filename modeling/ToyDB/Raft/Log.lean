import ToyDB.Effects.Program
import ToyDB.Raft.Message

/-!
# The Raft log and the effects of a node

The log seen by a node: its entries with the current term, vote and commit
index. A node's code is a program whose events are the messages it sends, the
durable writes of its log, the entries it applies, and a few marks of its
progress. A panic or an error stops the program.
-/
namespace ToyDB.Raft
open ToyDB.Effects

structure Log where
  entries : List Entry
  term : ℕ
  vote : Option NodeID
  commitIndex : ℕ
  commitTerm : ℕ
  deriving DecidableEq

/-- A pending client read. -/
structure Read where
  seq : ℕ
  sender : NodeID
  id : RequestID
  command : Bytes
  deriving DecidableEq

inductive Event where
  | send (envelope : Envelope)
  /-- A durable write of the log, with the log it leaves behind. -/
  | logged (log : Log)
  | applied (entry : Entry) (result : Except Error Bytes)
  /-- The node became leader in the term. -/
  | leading (term : ℕ)
  /-- The leader received a read request and assigned it a sequence number. -/
  | readRequested (term : ℕ) (read : Read)
  /-- The leader executed a read on a state machine that applied these entries. -/
  | readServed (term : ℕ) (read : Read) (applied : List Entry)
  /-- The leader is about to append the command of a write request to its log, as the
  entry with this index and term. -/
  | proposed (id : RequestID) (index term : ℕ)
  deriving DecidableEq

/-- The programs of a node; the supply holds the random numbers. -/
abbrev Action (α : Type) := Program (List ℕ) Event Failure α

def emit (event : Event) : Action Unit := Program.emit event

namespace Log

/-- The empty log of a node that never ran. -/
def empty : Log := ⟨[], 0, none, 0, 0⟩

/-- The index and term of the last entry, or zeroes. -/
def getLastIndex (self : Log) : ℕ × ℕ :=
  match self.entries.getLast? with
  | some entry => (entry.index, entry.term)
  | none => (0, 0)

def getCommitIndex (self : Log) : ℕ × ℕ := (self.commitIndex, self.commitTerm)

def getTermVote (self : Log) : ℕ × Option NodeID := (self.term, self.vote)

/-- Indexes start at 1, so no entry is stored at index 0. -/
def get (self : Log) (index : ℕ) : Option Entry :=
  match index with
  | 0 => none
  | i + 1 => self.entries[i]?

/-- The entries of an inclusive index range. -/
def scan (self : Log) (first last : ℕ) : List Entry :=
  self.entries.filter fun entry => decide (first ≤ entry.index ∧ entry.index ≤ last)

def setTermVote (self : Log) (term : ℕ) (vote : Option NodeID) : Action Log := do
  assert (0 < term) "can't set term 0"
  assert (self.term ≤ term) "term regression"
  assert (self.term < term ∨ self.vote = none ∨ vote = self.vote) "can't change vote"
  if term = self.term ∧ vote = self.vote then
    return self
  let self := { self with term := term, vote := vote }
  emit (.logged self)
  return self

def append (self : Log) (command : Option Bytes) : Action (Log × ℕ) := do
  assert (0 < self.term) "can't append entry in term 0"
  let entry : Entry := ⟨self.getLastIndex.1 + 1, self.term, command⟩
  let self := { self with entries := self.entries ++ [entry] }
  emit (.logged self)
  return (self, entry.index)

def commit (self : Log) (index : ℕ) : Action Log := do
  match self.get index with
  | none => panic "commit index does not exist"
  | some entry =>
      if entry.index < self.commitIndex then
        panic "commit index regression"
      else if entry.index = self.commitIndex then
        return self
      else
        let self := { self with commitIndex := index, commitTerm := entry.term }
        emit (.logged self)
        return self

def has (self : Log) (index : ℕ) (term : ℕ) : Bool :=
  if index = 0 ∨ self.getLastIndex.1 < index then
    false
  else if (index, term) = self.getLastIndex then
    true
  else
    match self.get index with
    | some entry => entry.term = term
    | none => false

/-- The entries ready to apply: after the applied index, up to the commit index. -/
def scanApply (self : Log) (appliedIndex : ℕ) : List Entry :=
  if self.commitIndex ≤ appliedIndex then
    []
  else
    self.scan (appliedIndex + 1) self.commitIndex

/-- Consecutive entries of a spliced batch satisfy the relation. -/
def windows (r : Entry → Entry → Prop) [DecidableRel r] : List Entry → Bool
  | [] => true
  | [_] => true
  | a :: b :: l => decide (r a b) && windows r (b :: l)

/-- Drops the leading entries that the log already has, checking that equal
indexes and terms come with equal commands. The first list is the scan of the
log over the range of the second. -/
def skipPresent {σ ε : Type} : List Entry → List Entry → Program σ ε Failure (List Entry)
  | [], entries => return entries
  | _ :: _, [] => panic "index out of bounds"
  | entry :: stored, new :: entries => do
      assert (entry.index = new.index) "index mismatch"
      if entry.term ≠ new.term then
        return new :: entries
      assert (entry.command = new.command) "command mismatch"
      skipPresent stored entries

/-- Writes the entries that are not in the log yet, which replace everything from
the first of them on. -/
def writeMissing (self : Log) (entries : List Entry) (lastIndex : ℕ) : Action (Log × ℕ) := do
  match entries.head? with
  | none => return (self, self.getLastIndex.1)
  | some first =>
      assert (self.commitIndex < first.index) "spliced entries below commit index"
      let self := { self with entries := self.entries.take (first.index - 1) ++ entries }
      emit (.logged self)
      return (self, lastIndex)

def splice (self : Log) (entries : List Entry) : Action (Log × ℕ) := do
  match entries.head?, entries.getLast? with
  | some first, some last =>
      assert (0 < first.index ∧ 0 < first.term) "spliced entry has index or term 0"
      assert (windows (fun a b => a.index + 1 = b.index) entries)
        "spliced entries are not contiguous"
      assert (windows (fun a b => a.term ≤ b.term) entries)
        "spliced entries have term regression"
      assert (last.term ≤ self.term) "splice term beyond current"
      match self.get (first.index - 1) with
      | some base => assert (base.term ≤ first.term) "splice term regression"
      | none => assert (first.index = 1) "first index must touch existing log"
      let missing ← skipPresent (self.scan first.index last.index) entries
      self.writeMissing missing last.index
  | _, _ => return (self, self.getLastIndex.1)

end Log
end ToyDB.Raft
