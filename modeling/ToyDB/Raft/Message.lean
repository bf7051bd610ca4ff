import ToyDB.Collections.OrderedMap
import ToyDB.Error

/-!
# Raft entries and messages

Terms, indexes and read sequence numbers are unbounded; index zero stands for no
index. Requests and responses carry uninterpreted bytes.
-/
namespace ToyDB.Raft

abbrev NodeID := ℕ
abbrev RequestID := ℕ

/-- A log entry. A missing command is the noop proposed by a new leader. -/
structure Entry where
  index : ℕ
  term : ℕ
  command : Option Bytes
  deriving DecidableEq, Repr

inductive Request where
  | read (command : Bytes)
  | write (command : Bytes)
  | status
  deriving DecidableEq, Repr

/-- The cluster status generated by a leader. -/
structure Status where
  leader : NodeID
  term : ℕ
  matchIndex : List (NodeID × ℕ)
  commitIndex : ℕ
  appliedIndex : ℕ
  deriving DecidableEq, Repr

inductive Response where
  | read (bytes : Bytes)
  | write (bytes : Bytes)
  | status (status : Status)
  deriving DecidableEq, Repr

inductive Message where
  | campaign (lastIndex : ℕ) (lastTerm : ℕ)
  | campaignResponse (vote : Bool)
  | heartbeat (lastIndex commitIndex : ℕ) (readSeq : ℕ)
  | heartbeatResponse (matchIndex : ℕ) (readSeq : ℕ)
  | append (baseIndex : ℕ) (baseTerm : ℕ) (entries : List Entry)
  | appendResponse (matchIndex rejectIndex : ℕ)
  | read (seq : ℕ)
  | readResponse (seq : ℕ)
  | clientRequest (id : RequestID) (request : Request)
  | clientResponse (id : RequestID) (response : Except Error Response)
  deriving DecidableEq

/-- A message with its sender (`from`), the sender's term and its recipient (`to`). -/
structure Envelope where
  sender : NodeID
  term : ℕ
  recipient : NodeID
  message : Message
  deriving DecidableEq

/-- The state machine run below Raft: a deterministic function of the applied
entries. -/
structure StateMachine where
  Contents : Type
  init : Contents
  apply : Contents → Entry → Contents × Except Error Bytes
  read : Contents → Bytes → Except Error Bytes

namespace StateMachine

/-- The contents after applying the given entries in order. -/
def contents (sm : StateMachine) (applied : List Entry) : sm.Contents :=
  applied.foldl (fun c e => (sm.apply c e).1) sm.init

/-- The client result of applying `entry` after the given entries. -/
def result (sm : StateMachine) (applied : List Entry) (entry : Entry) : Except Error Bytes :=
  (sm.apply (sm.contents applied) entry).2

end StateMachine
end ToyDB.Raft
