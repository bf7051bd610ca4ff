import Mathlib.Data.List.Sort
import ToyDB.Raft.Log

/-!
# The Raft node

A node with a dynamic role, driven by `Node.step` on inbound messages and
`Node.tick` on time. The three roles are the instances of `RawNode`; a method
that takes the node mutably returns the changed node. Sets and maps are listed in
increasing order, the order in which the code iterates over them where the order
shows. The state machine is represented by the entries it has applied, so its
contents are `StateMachine.contents` of that list.
-/
namespace ToyDB.Raft
open ToyDB.Effects ToyDB.Collections

/-- A nonempty range of election timeouts, the end excluded. -/
structure TimeoutRange where
  first : ℕ
  bound : ℕ
  nonempty : first < bound

structure Options where
  heartbeatInterval : ℕ
  electionTimeoutRange : TimeoutRange
  maxAppendEntries : ℕ

structure RawNode (R : Type) where
  id : NodeID
  peers : List NodeID
  log : Log
  state : List Entry
  opts : Options
  role : R

/-- A follower replicates entries from a leader, or waits for one. -/
structure Follower where
  leader : Option NodeID
  leaderSeen : ℕ
  electionTimeout : ℕ
  forwarded : List RequestID

/-- A candidate collects votes. -/
structure Candidate where
  votes : List NodeID
  electionDuration : ℕ
  electionTimeout : ℕ

/-- Replication progress of one follower. -/
structure Progress where
  matchIndex : ℕ
  nextIndex : ℕ
  readSeq : ℕ

/-- A pending client write: the node that submitted it and its request ID. -/
structure Write where
  sender : NodeID
  id : RequestID

/-- A leader replicates its log and serves client requests. -/
structure Leader where
  progress : OrderedMap NodeID Progress
  writes : OrderedMap ℕ Write
  reads : List Read
  readSeq : ℕ
  sinceHeartbeat : ℕ

inductive Node where
  | candidate (node : RawNode Candidate)
  | follower (node : RawNode Follower)
  | leader (node : RawNode Leader)

/-- The index of the last applied entry. -/
def getAppliedIndex (state : List Entry) : ℕ :=
  match state.getLast? with
  | some entry => entry.index
  | none => 0

/-- Applies an entry to the state machine, yielding the client result. -/
def applyEntry (sm : StateMachine) (state : List Entry) (entry : Entry) :
    Action (List Entry × Except Error Bytes) := do
  let result := sm.result state entry
  emit (.applied entry result)
  return (state ++ [entry], result)

namespace RawNode
variable {R T : Type}

def intoRole (self : RawNode R) (role : T) : RawNode T :=
  ⟨self.id, self.peers, self.log, self.state, self.opts, role⟩

def term (self : RawNode R) : ℕ := self.log.getTermVote.1

def clusterSize (self : RawNode R) : ℕ := self.peers.length + 1

def quorumSize (self : RawNode R) : ℕ := self.clusterSize / 2 + 1

/-- The quorum value (median) of the given values: the largest value that a
quorum of them reaches. -/
def quorumValue (self : RawNode R) (values : List ℕ) : Action ℕ := do
  assert (values.length = self.clusterSize) "vector size must match cluster size"
  match (values.insertionSort (· ≥ ·))[self.quorumSize - 1]? with
  | some value => return value
  | none => panic "partition index out of bounds"

def randomElectionTimeout (self : RawNode R) : Action ℕ :=
  let range := self.opts.electionTimeoutRange
  Program.draw fun supply =>
    (range.first + supply.headD 0 % (range.bound - range.first), supply.tail)

def send (self : RawNode R) (recipient : NodeID) (message : Message) : Action Unit :=
  emit (.send ⟨self.id, self.term, recipient, message⟩)

def broadcast (self : RawNode R) (message : Message) : Action Unit :=
  self.peers.forM fun id => self.send id message

/-- Applies any committed entries that are not applied yet. -/
def maybeApply (self : RawNode R) (sm : StateMachine) : Action (RawNode R) := do
  let entries := self.log.scanApply (getAppliedIndex self.state)
  let state ← entries.foldlM
    (fun state entry => do
      -- the result is thrown away, only the leader responds to clients
      let applied ← applyEntry sm state entry
      return applied.1)
    self.state
  return { self with state := state }

end RawNode

/-! ## Candidate -/

def Candidate.new (electionTimeout : ℕ) : Candidate := ⟨[], 0, electionTimeout⟩

def Follower.new (leader : Option NodeID) (electionTimeout : ℕ) : Follower :=
  ⟨leader, 0, electionTimeout, []⟩

/-- Holds a new election: increases the term, votes for itself and solicits votes. -/
def RawNode.campaign (self : RawNode Candidate) : Action (RawNode Candidate) := do
  let term := self.term + 1
  let electionTimeout ← self.randomElectionTimeout
  let role := Candidate.new electionTimeout
  let self := { self with role := { role with votes := role.votes.insert self.id } }
  let log ← self.log.setTermVote term (some self.id)
  let self := { self with log := log }
  let (lastIndex, lastTerm) := self.log.getLastIndex
  self.broadcast (.campaign lastIndex lastTerm)
  return self

/-! ## Follower -/

namespace RawNode

/-- Aborts all forwarded requests, on term or leader changes. -/
def abortForwarded (self : RawNode Follower) : Action (RawNode Follower) := do
  (self.role.forwarded.insertionSort (· ≤ ·)).forM fun id =>
    self.send self.id (.clientResponse id (.error .abort))
  return { self with role := { self.role with forwarded := [] } }

/-- Creates a node as a leaderless follower, applying what is committed. -/
def new (id : NodeID) (peers : List NodeID) (log : Log) (state : List Entry) (opts : Options)
    (sm : StateMachine) : Action (RawNode Follower) := do
  Program.ensure (id ∉ peers) (.error (.invalidInput "node ID can't be in peers"))
  let node : RawNode Follower := ⟨id, peers, log, state, opts, Follower.new none 0⟩
  let electionTimeout ← node.randomElectionTimeout
  let node := { node with role := { node.role with electionTimeout := electionTimeout } }
  node.maybeApply sm

/-- Campaigns for leadership in a new term. -/
def intoCandidate (self : RawNode Follower) (sm : StateMachine) : Action (RawNode Candidate) := do
  let self ← self.abortForwarded
  let self ← self.maybeApply sm
  let electionTimeout ← self.randomElectionTimeout
  let node ← (self.intoRole (Candidate.new electionTimeout)).campaign
  let (term, vote) := node.log.getTermVote
  assert (node.id ∈ node.role.votes) "candidate did not vote for self"
  assert (term ≠ 0) "candidate can't have term 0"
  assert (vote = some node.id) "log vote does not match self"
  return node

/-- Follows the leader of the current term, or enters a new term leaderless. -/
def intoFollower (self : RawNode Follower) (term : ℕ) (leader : Option NodeID) :
    Action (RawNode Follower) := do
  assert (term ≠ 0) "can't become follower in term 0"
  let self ← self.abortForwarded
  match leader with
  | some leader =>
      assert (leader ∈ self.peers) "leader is not a peer"
      assert (self.role.leader = none) "already have leader in term"
      assert (term = self.term) "can't follow leader in different term"
      return { self with role := Follower.new (some leader) self.role.electionTimeout }
  | none =>
      assert (term ≠ self.term) "can't become leaderless follower in current term"
      let log ← self.log.setTermVote term none
      let self := { self with log := log }
      let electionTimeout ← self.randomElectionTimeout
      return { self with role := Follower.new none electionTimeout }

/-- Checks that the message comes from the node's leader, following it if there
is none. -/
def checkLeader (self : RawNode Follower) (msg : Envelope) : Action (RawNode Follower) := do
  match self.role.leader with
  | some leader =>
      assert (msg.sender = leader) "multiple leaders in term"
      return self
  | none => self.intoFollower msg.term (some msg.sender)

def stepHeartbeat (self : RawNode Follower) (sm : StateMachine) (msg : Envelope)
    (lastIndex commitIndex : ℕ) (readSeq : ℕ) : Action (RawNode Follower) := do
  assert (commitIndex ≤ lastIndex) "commit_index after last_index"
  let self ← self.checkLeader msg
  -- last_index always has the leader's term
  let matchIndex := if self.log.has lastIndex msg.term then lastIndex else 0
  self.send msg.sender (.heartbeatResponse matchIndex readSeq)
  if matchIndex ≠ 0 ∧ self.log.getCommitIndex.1 < commitIndex then
    let log ← self.log.commit commitIndex
    let self := { self with log := log }
    self.maybeApply sm
  else
    return self

def stepAppend (self : RawNode Follower) (msg : Envelope) (baseIndex : ℕ) (baseTerm : ℕ)
    (entries : List Entry) : Action (RawNode Follower) := do
  assert (∀ first ∈ entries.head?, baseIndex = first.index - 1) "base index mismatch"
  let self ← self.checkLeader msg
  if baseIndex = 0 ∨ self.log.has baseIndex baseTerm then
    let matchIndex := (entries.getLast?.map Entry.index).getD baseIndex
    let spliced ← self.log.splice entries
    let self := { self with log := spliced.1 }
    self.send msg.sender (.appendResponse matchIndex 0)
    return self
  else
    let rejectIndex := min baseIndex (self.log.getLastIndex.1 + 1)
    self.send msg.sender (.appendResponse 0 rejectIndex)
    return self

/-- Votes for a candidate, unless its log is less up to date. -/
def stepVote (self : RawNode Follower) (msg : Envelope) (lastIndex lastTerm : ℕ) :
    Action (RawNode Follower) := do
  let (logIndex, logTerm) := self.log.getLastIndex
  if lastTerm < logTerm ∨ logTerm = lastTerm ∧ lastIndex < logIndex then
    self.send msg.sender (.campaignResponse false)
    return self
  let log ← self.log.setTermVote msg.term (some msg.sender)
  let self := { self with log := log }
  self.send msg.sender (.campaignResponse true)
  return self

/-- Processes the request of a vote. A node votes once per term, but may repeat it. -/
def stepCampaign (self : RawNode Follower) (msg : Envelope) (lastIndex lastTerm : ℕ) :
    Action (RawNode Follower) := do
  match self.log.getTermVote.2 with
  | some vote =>
      if msg.sender ≠ vote then
        self.send msg.sender (.campaignResponse false)
        return self
      else
        self.stepVote msg lastIndex lastTerm
  | none => self.stepVote msg lastIndex lastTerm

def stepClientRequest (self : RawNode Follower) (msg : Envelope) (id : RequestID) :
    Action (RawNode Follower) := do
  assert (msg.sender = self.id) "client request from other node"
  match self.role.leader with
  | some leader =>
      let forwarded := self.role.forwarded.insert id
      let self := { self with role := { self.role with forwarded := forwarded } }
      self.send leader msg.message
      return self
  | none =>
      self.send msg.sender (.clientResponse id (.error .abort))
      return self

def stepClientResponse (self : RawNode Follower) (msg : Envelope) (id : RequestID)
    (response : Except Error Response) : Action (RawNode Follower) := do
  assert (some msg.sender = self.role.leader) "client response from non-leader"
  if id ∈ self.role.forwarded then
    let forwarded := self.role.forwarded.erase id
    let self := { self with role := { self.role with forwarded := forwarded } }
    self.send self.id (.clientResponse id response)
    return self
  else
    return self

/-- Processes a message of the follower's own term. -/
def stepMessage (self : RawNode Follower) (sm : StateMachine) (msg : Envelope) :
    Action (RawNode Follower) := do
  -- record when we last saw a message from the leader
  let role := if some msg.sender = self.role.leader then
    { self.role with leaderSeen := 0 } else self.role
  let self := { self with role := role }
  match msg.message with
  | .heartbeat lastIndex commitIndex readSeq =>
      self.stepHeartbeat sm msg lastIndex commitIndex readSeq
  | .append baseIndex baseTerm entries => self.stepAppend msg baseIndex baseTerm entries
  | .read seq =>
      let self ← self.checkLeader msg
      self.send msg.sender (.readResponse seq)
      return self
  | .campaign lastIndex lastTerm => self.stepCampaign msg lastIndex lastTerm
  | .clientRequest id _ => self.stepClientRequest msg id
  | .clientResponse id response => self.stepClientResponse msg id response
  | .campaignResponse _ => return self
  | .heartbeatResponse _ _ => panic "follower received unexpected message"
  | .appendResponse _ _ => panic "follower received unexpected message"
  | .readResponse _ => panic "follower received unexpected message"

/-- Processes an inbound message as a follower. After entering a later term the
message is of the node's own term, so the source's recursive call processes it. -/
def stepFollower (self : RawNode Follower) (sm : StateMachine) (msg : Envelope) :
    Action Node := do
  if msg.term < self.term then
    return .follower self
  if self.term < msg.term then
    let self ← self.intoFollower msg.term none
    let self ← self.stepMessage sm msg
    return .follower self
  let self ← self.stepMessage sm msg
  return .follower self

def tickFollower (self : RawNode Follower) (sm : StateMachine) : Action Node := do
  let self := { self with role := { self.role with leaderSeen := self.role.leaderSeen + 1 } }
  if self.role.electionTimeout ≤ self.role.leaderSeen then
    let node ← self.intoCandidate sm
    return .candidate node
  return .follower self

end RawNode

/-! ## Leader -/

namespace Progress

/-- Attempts to advance the match index, telling whether it did. -/
def advance (self : Progress) (matchIndex : ℕ) : Bool × Progress :=
  if matchIndex ≤ self.matchIndex then
    (false, self)
  else
    (true, { self with
      matchIndex := matchIndex, nextIndex := max self.nextIndex (matchIndex + 1) })

/-- Attempts to advance the read sequence number, telling whether it did. -/
def advanceRead (self : Progress) (readSeq : ℕ) : Bool × Progress :=
  if readSeq ≤ self.readSeq then
    (false, self)
  else
    (true, { self with readSeq := readSeq })

/-- Attempts to regress the next index, telling whether it did. -/
def regressNext (self : Progress) (nextIndex : ℕ) : Bool × Progress :=
  if self.nextIndex ≤ nextIndex ∨ self.nextIndex ≤ self.matchIndex + 1 then
    (false, self)
  else
    (true, { self with nextIndex := max nextIndex (self.matchIndex + 1) })

end Progress

def Leader.new (peers : List NodeID) (lastIndex : ℕ) : Leader where
  progress := peers.foldl (fun m p => m.insert p ⟨0, lastIndex + 1, 0⟩) OrderedMap.empty
  writes := OrderedMap.empty
  reads := []
  readSeq := 0
  sinceHeartbeat := 0

namespace RawNode

/-- The progress of a follower. -/
def progress (self : RawNode Leader) (id : NodeID) : Action Progress :=
  match self.role.progress.get id with
  | some progress => return progress
  | none => panic "unknown node"

def setProgress (self : RawNode Leader) (id : NodeID) (progress : Progress) : RawNode Leader :=
  { self with role := { self.role with progress := self.role.progress.insert id progress } }

/-- The index and term of the entry before the next index, or zeroes. -/
def appendBase (self : RawNode Leader) (nextIndex : ℕ) : Action (ℕ × ℕ) :=
  if nextIndex = 1 then
    return (0, 0)
  else
    match self.log.get (nextIndex - 1) with
    | some entry => return (entry.index, entry.term)
    | none => panic "missing base entry"

/-- Sends a batch of pending entries to a follower, or an empty probe. -/
def maybeSendAppend (self : RawNode Leader) (peer : NodeID) (probe : Bool) :
    Action (RawNode Leader) := do
  let lastIndex := self.log.getLastIndex.1
  let progress ← self.progress peer
  assert (progress.nextIndex ≠ 0) "invalid next_index"
  assert (progress.matchIndex < progress.nextIndex) "invalid next_index <= match_index"
  assert (progress.matchIndex ≤ lastIndex) "invalid match_index > last_index"
  assert (progress.nextIndex ≤ lastIndex + 1) "invalid next_index > last_index + 1"
  if progress.matchIndex = lastIndex then
    return self
  -- there is no point in probing a confirmed base index
  let probe := probe && decide (progress.matchIndex + 1 < progress.nextIndex)
  if lastIndex < progress.nextIndex ∧ probe = false then
    return self
  let (baseIndex, baseTerm) ← self.appendBase progress.nextIndex
  let entries :=
    if probe then [] else
      (self.log.scan progress.nextIndex lastIndex).take self.opts.maxAppendEntries
  -- optimistically assume that the entries will be accepted
  let progress := match entries.getLast? with
    | some last => { progress with nextIndex := last.index + 1 }
    | none => progress
  let self := self.setProgress peer progress
  self.send peer (.append baseIndex baseTerm entries)
  return self

/-- Appends a command to the log and replicates it to the peers in steady state. -/
def propose (self : RawNode Leader) (command : Option Bytes) :
    Action (RawNode Leader × ℕ) := do
  let appended ← self.log.append command
  let index := appended.2
  let self := { self with log := appended.1 }
  let self ← self.peers.foldlM
    (fun self peer => do
      let progress ← self.progress peer
      if index = progress.nextIndex then
        self.maybeSendAppend peer false
      else
        return self)
    self
  return (self, index)

/-- Broadcasts a heartbeat to all peers. -/
def heartbeat (self : RawNode Leader) : Action (RawNode Leader) := do
  let (lastIndex, lastTerm) := self.log.getLastIndex
  let commitIndex := self.log.getCommitIndex.1
  let readSeq := self.role.readSeq
  assert (lastTerm = self.term) "leader's last_term not in current term"
  let self := { self with role := { self.role with sinceHeartbeat := 0 } }
  self.broadcast (.heartbeat lastIndex commitIndex readSeq)
  return self

/-- Executes the pending reads up to the given sequence number. The reads are in
the order of their sequence numbers. -/
def serveReads (self : RawNode Leader) (sm : StateMachine) (quorumReadSeq : ℕ) :
    List Read → Action (List Read)
  | [] => return []
  | read :: reads => do
      if quorumReadSeq < read.seq then
        return read :: reads
      let response := sm.read (sm.contents self.state) read.command
      emit (.readServed self.term read self.state)
      self.send read.sender (.clientResponse read.id (response.map Response.read))
      self.serveReads sm quorumReadSeq reads

/-- Executes any ready reads, those confirmed by a quorum. -/
def maybeRead (self : RawNode Leader) (sm : StateMachine) : Action (RawNode Leader) := do
  if self.role.reads = [] then
    return self
  let (commitIndex, commitTerm) := self.log.getCommitIndex
  -- only read after committing and applying an entry of our own term
  if commitTerm < self.term ∨ getAppliedIndex self.state < commitIndex then
    return self
  let quorumReadSeq ← self.quorumValue
    (self.role.progress.values.map Progress.readSeq ++ [self.role.readSeq])
  let reads ← self.serveReads sm quorumReadSeq self.role.reads
  return { self with role := { self.role with reads := reads } }

/-- Applies one committed entry and responds to the client that submitted it. -/
def applyAndRespond (self : RawNode Leader) (sm : StateMachine) (entry : Entry) :
    Action (RawNode Leader) := do
  let write := self.role.writes.get entry.index
  let writes := self.role.writes.erase entry.index
  let self := { self with role := { self.role with writes := writes } }
  let applied ← applyEntry sm self.state entry
  let self := { self with state := applied.1 }
  match write with
  | some write =>
      self.send write.sender (.clientResponse write.id (applied.2.map Response.write))
      return self
  | none => return self

/-- Commits the entries that a quorum has, and applies them. -/
def maybeCommitAndApply (self : RawNode Leader) (sm : StateMachine) :
    Action (RawNode Leader × ℕ) := do
  let lastIndex := self.log.getLastIndex.1
  let commitIndex ← self.quorumValue
    (self.role.progress.values.map Progress.matchIndex ++ [lastIndex])
  let (oldIndex, oldTerm) := self.log.getCommitIndex
  if commitIndex ≤ oldIndex then
    return (self, oldIndex)
  -- only an entry of our own term can be committed by counting replicas
  match self.log.get commitIndex with
  | none => panic "commit index missing"
  | some entry =>
      if entry.term ≠ self.term then
        return (self, oldIndex)
      let log ← self.log.commit commitIndex
      let self := { self with log := log }
      let entries := self.log.scanApply (getAppliedIndex self.state)
      let self ← entries.foldlM (fun self entry => self.applyAndRespond sm entry) self
      -- pending reads may have waited for an entry of our own term
      if oldTerm ≠ self.term then
        let self ← self.maybeRead sm
        return (self, commitIndex)
      return (self, commitIndex)

/-- Enters a later term as a leaderless follower, aborting in-flight requests. -/
def leaderIntoFollower (self : RawNode Leader) (term : ℕ) : Action (RawNode Follower) := do
  assert (self.term < term) "leader can only become follower in later term"
  (self.role.writes.values.insertionSort fun a b => a.id ≤ b.id).forM fun write =>
    self.send write.sender (.clientResponse write.id (.error .abort))
  (self.role.reads.insertionSort fun a b => a.id ≤ b.id).forM fun read =>
    self.send read.sender (.clientResponse read.id (.error .abort))
  let log ← self.log.setTermVote term none
  let self := { self with log := log }
  let electionTimeout ← self.randomElectionTimeout
  return self.intoRole (Follower.new none electionTimeout)

def status (self : RawNode Leader) : Status where
  leader := self.id
  term := self.term
  matchIndex := ((self.role.progress.entries.map fun p => (p.1, p.2.matchIndex)) ++
    [(self.id, self.log.getLastIndex.1)]).insertionSort fun a b => a.1 ≤ b.1
  commitIndex := self.log.getCommitIndex.1
  appliedIndex := getAppliedIndex self.state

/-- Records a confirmed read sequence number, and executes reads if it advances. -/
def advanceRead (self : RawNode Leader) (sm : StateMachine) (id : NodeID) (readSeq : ℕ) :
    Action (RawNode Leader) := do
  let progress ← self.progress id
  let advanced := progress.advanceRead readSeq
  let self := self.setProgress id advanced.2
  if advanced.1 then
    self.maybeRead sm
  else
    return self

/-- Records a match index, and commits and applies entries if it advances. -/
def advanceMatch (self : RawNode Leader) (sm : StateMachine) (id : NodeID) (matchIndex : ℕ) :
    Action (RawNode Leader) := do
  let progress ← self.progress id
  let advanced := progress.advance matchIndex
  let self := self.setProgress id advanced.2
  if advanced.1 then
    let committed ← self.maybeCommitAndApply sm
    return committed.1
  else
    return self

/-- Probes a follower that lacks the last index. -/
def probeLast (self : RawNode Leader) (id : NodeID) (lastIndex : ℕ) :
    Action (RawNode Leader) := do
  let progress ← self.progress id
  let self := self.setProgress id (progress.regressNext lastIndex).2
  self.maybeSendAppend id true

def stepHeartbeatResponse (self : RawNode Leader) (sm : StateMachine) (msg : Envelope)
    (matchIndex readSeq : ℕ) : Action (RawNode Leader) := do
  let lastIndex := self.log.getLastIndex.1
  assert (matchIndex ≤ lastIndex) "future match index"
  assert (readSeq ≤ self.role.readSeq) "future read sequence number"
  let self ← self.advanceRead sm msg.sender readSeq
  if matchIndex = 0 then
    -- an append to the follower failed, or it is catching up
    let self ← self.probeLast msg.sender lastIndex
    self.advanceMatch sm msg.sender matchIndex
  else
    -- if the match index advances, an append response got lost
    self.advanceMatch sm msg.sender matchIndex

def stepAppended (self : RawNode Leader) (sm : StateMachine) (msg : Envelope)
    (matchIndex : ℕ) : Action (RawNode Leader) := do
  let lastIndex := self.log.getLastIndex.1
  assert (matchIndex ≤ lastIndex) "future match index"
  let self ← self.advanceMatch sm msg.sender matchIndex
  -- eagerly send any further pending entries
  self.maybeSendAppend msg.sender false

def stepRejected (self : RawNode Leader) (msg : Envelope) (rejectIndex : ℕ) :
    Action (RawNode Leader) := do
  let lastIndex := self.log.getLastIndex.1
  assert (rejectIndex ≤ lastIndex) "future reject index"
  let progress ← self.progress msg.sender
  -- a rejection at or below the match index is stale
  if rejectIndex ≤ progress.matchIndex then
    return self
  let regressed := progress.regressNext rejectIndex
  let self := self.setProgress msg.sender regressed.2
  if regressed.1 then
    self.maybeSendAppend msg.sender true
  else
    return self

def stepRequest (self : RawNode Leader) (sm : StateMachine) (msg : Envelope) (id : RequestID) :
    Request → Action (RawNode Leader)
  | .write command => do
      emit (.proposed id (self.log.getLastIndex.1 + 1) self.term)
      let proposed ← self.propose (some command)
      let index := proposed.2
      let self := proposed.1
      let writes := self.role.writes.insert index ⟨msg.sender, id⟩
      let self := { self with role := { self.role with writes := writes } }
      if self.clusterSize = 1 then
        let committed ← self.maybeCommitAndApply sm
        return committed.1
      return self
  | .read command => do
      let seq := self.role.readSeq + 1
      let read : Read := ⟨seq, msg.sender, id, command⟩
      emit (.readRequested self.term read)
      let reads := self.role.reads ++ [read]
      let self := { self with role := { self.role with readSeq := seq, reads := reads } }
      self.broadcast (.read seq)
      if self.clusterSize = 1 then
        self.maybeRead sm
      else
        return self
  | .status => do
      self.send msg.sender (.clientResponse id (.ok (.status self.status)))
      return self

/-- Processes a message of the leader's own term. -/
def stepLeaderMessage (self : RawNode Leader) (sm : StateMachine) (msg : Envelope) :
    Action (RawNode Leader) := do
  match msg.message with
  | .heartbeatResponse matchIndex readSeq =>
      self.stepHeartbeatResponse sm msg matchIndex readSeq
  | .appendResponse matchIndex rejectIndex =>
      if rejectIndex = 0 ∧ 0 < matchIndex then
        self.stepAppended sm msg matchIndex
      else if matchIndex = 0 ∧ 0 < rejectIndex then
        self.stepRejected msg rejectIndex
      else
        panic "invalid message"
  | .readResponse seq => self.advanceRead sm msg.sender seq
  | .clientRequest id request => self.stepRequest sm msg id request
  | .campaign _ _ => do
      self.send msg.sender (.campaignResponse false)
      return self
  | .campaignResponse _ => return self
  | .heartbeat _ _ _ => panic "saw other leader in term"
  | .append _ _ _ => panic "saw other leader in term"
  | .read _ => panic "saw other leader in term"
  | .clientResponse _ _ => panic "unexpected message"

def stepLeader (self : RawNode Leader) (sm : StateMachine) (msg : Envelope) : Action Node := do
  if msg.term < self.term then
    return .leader self
  if self.term < msg.term then
    let self ← self.leaderIntoFollower msg.term
    self.stepFollower sm msg
  else
    let self ← self.stepLeaderMessage sm msg
    return .leader self

def tickLeader (self : RawNode Leader) : Action Node := do
  let sinceHeartbeat := self.role.sinceHeartbeat + 1
  let self := { self with role := { self.role with sinceHeartbeat := sinceHeartbeat } }
  if self.opts.heartbeatInterval ≤ self.role.sinceHeartbeat then
    let self ← self.heartbeat
    return .leader self
  return .leader self

/-! ## Candidate transitions and steps -/

/-- Follows the winner of the election, or enters a later term leaderless. -/
def candidateIntoFollower (self : RawNode Candidate) (term : ℕ) (leader : Option NodeID) :
    Action (RawNode Follower) := do
  let electionTimeout ← self.randomElectionTimeout
  match leader with
  | some leader =>
      assert (term = self.term) "can't follow leader in different term"
      return self.intoRole (Follower.new (some leader) electionTimeout)
  | none =>
      assert (term ≠ self.term) "can't become leaderless follower in current term"
      let log ← self.log.setTermVote term none
      let self := { self with log := log }
      return self.intoRole (Follower.new none electionTimeout)

/-- Becomes leader, proposing a noop in the new term. -/
def intoLeader (self : RawNode Candidate) (sm : StateMachine) : Action (RawNode Leader) := do
  let (term, vote) := self.log.getTermVote
  assert (term ≠ 0) "leaders can't have term 0"
  assert (vote = some self.id) "leader did not vote for self"
  emit (.leading term)
  let node := self.intoRole (Leader.new self.peers self.log.getLastIndex.1)
  let proposed ← node.propose none
  let committed ← proposed.1.maybeCommitAndApply sm
  committed.1.heartbeat

def stepCandidate (self : RawNode Candidate) (sm : StateMachine) (msg : Envelope) :
    Action Node := do
  if msg.term < self.term then
    return .candidate self
  if self.term < msg.term then
    let self ← self.candidateIntoFollower msg.term none
    self.stepFollower sm msg
  else
    match msg.message with
    | .campaignResponse true =>
        let votes := self.role.votes.insert msg.sender
        let self := { self with role := { self.role with votes := votes } }
        if self.quorumSize ≤ self.role.votes.length then
          let node ← self.intoLeader sm
          return .leader node
        return .candidate self
    | .campaignResponse false => return .candidate self
    | .campaign _ _ => do
        self.send msg.sender (.campaignResponse false)
        return .candidate self
    | .heartbeat _ _ _ => do
        let self ← self.candidateIntoFollower msg.term (some msg.sender)
        self.stepFollower sm msg
    | .append _ _ _ => do
        let self ← self.candidateIntoFollower msg.term (some msg.sender)
        self.stepFollower sm msg
    | .read _ => do
        let self ← self.candidateIntoFollower msg.term (some msg.sender)
        self.stepFollower sm msg
    | .clientRequest id _ => do
        self.send msg.sender (.clientResponse id (.error .abort))
        return .candidate self
    | .heartbeatResponse _ _ => panic "unexpected message"
    | .appendResponse _ _ => panic "unexpected message"
    | .readResponse _ => panic "unexpected message"
    | .clientResponse _ _ => panic "unexpected message"

def tickCandidate (self : RawNode Candidate) : Action Node := do
  let electionDuration := self.role.electionDuration + 1
  let self := { self with role := { self.role with electionDuration := electionDuration } }
  if self.role.electionTimeout ≤ self.role.electionDuration then
    let self ← self.campaign
    return .candidate self
  return .candidate self

end RawNode

/-! ## The public interface -/

namespace Node

/-- Creates a node. A single-node cluster becomes leader immediately. -/
def new (id : NodeID) (peers : List NodeID) (log : Log) (state : List Entry) (opts : Options)
    (sm : StateMachine) : Action Node := do
  let node ← RawNode.new id peers log state opts sm
  if node.clusterSize = 1 then
    let candidate ← node.intoCandidate sm
    let leader ← candidate.intoLeader sm
    return .leader leader
  return .follower node

def id : Node → NodeID
  | candidate node => node.id
  | follower node => node.id
  | leader node => node.id

def peers : Node → List NodeID
  | candidate node => node.peers
  | follower node => node.peers
  | leader node => node.peers

def log : Node → Log
  | candidate node => node.log
  | follower node => node.log
  | leader node => node.log

def state : Node → List Entry
  | candidate node => node.state
  | follower node => node.state
  | leader node => node.state

def term (self : Node) : ℕ := self.log.getTermVote.1

/-- Processes an inbound message. -/
def step (self : Node) (sm : StateMachine) (msg : Envelope) : Action Node := do
  assert (msg.recipient = self.id) "message to other node"
  assert (msg.sender ∈ self.peers ∨ msg.sender = self.id) "unknown sender"
  match self with
  | candidate node => node.stepCandidate sm msg
  | follower node => node.stepFollower sm msg
  | leader node => node.stepLeader sm msg

/-- Advances time by a tick. -/
def tick (self : Node) (sm : StateMachine) : Action Node :=
  match self with
  | candidate node => node.tickCandidate
  | follower node => node.tickFollower sm
  | leader node => node.tickLeader

end Node
end ToyDB.Raft
