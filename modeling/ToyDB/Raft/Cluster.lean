import ToyDB.Raft.Node

/-!
# A cluster of Raft nodes

The nodes of a cluster, the messages in flight between them, and the trace of
everything they did. An action of the environment ticks a node, delivers, loses
or duplicates a message, submits a client request, or crashes and starts a node.
A crash may happen between steps or after any number of the events of a step; the
durable log and the state machine survive, but the stored commit index and any
tail of the applied entries may be lost by the time the node starts again.
-/
namespace ToyDB.Raft
open ToyDB.Effects

/-- What a crash leaves of a node. -/
structure Disk where
  log : Log
  state : List Entry

namespace Disk

def empty : Disk := ⟨Log.empty, []⟩

/-- The disk after an event of the node. -/
def record (disk : Disk) : Event → Disk
  | .logged log => { disk with log := log }
  | .applied entry _ => { disk with state := disk.state ++ [entry] }
  | _ => disk

/-- The disk found on start, after losing commit indexes above `commitIndex` and
all but the first `applied` applied entries. -/
def restore (disk : Disk) (commitIndex : ℕ) (applied : ℕ) : Disk where
  log :=
    if commitIndex < disk.log.commitIndex then
      { disk.log with
        commitIndex := commitIndex
        commitTerm := ((disk.log.get commitIndex).map Entry.term).getD 0 }
    else disk.log
  state := disk.state.take applied

end Disk

/-- A node process: stopped with its disk, or running since it started with the
term `startTerm` in its log. -/
inductive Process where
  | down (disk : Disk)
  | up (node : Node) (startTerm : ℕ)

def Process.disk : Process → Disk
  | down disk => disk
  | up node _ => ⟨node.log, node.state⟩

/-- Whether the process runs a node, started in a term, that satisfies the test. -/
def Process.any (test : Node → ℕ → Bool) : Process → Bool
  | up node startTerm => test node startTerm
  | down _ => false

theorem Process.exists_up {process : Process} {t : Node → ℕ → Bool} (h : process.any t) :
    ∃ node startTerm, process = .up node startTerm ∧ t node startTerm := by
  cases process with
  | down disk => cases h
  | up node startTerm => exact ⟨node, startTerm, rfl, h⟩

/-- Whether the process is a leader of the term. -/
def Process.leads (term : ℕ) : Process → Bool
  | up (.leader node) _ => node.term = term
  | _ => false

theorem Process.leads_iff {term : ℕ} {process : Process} : process.leads term ↔
    ∃ node startTerm, process = .up (.leader node) startTerm ∧ node.term = term := by
  cases process with
  | down disk => simp [leads]
  | up node startTerm => cases node <;> simp [leads]

/-- What a node did, or what happened to it. -/
inductive Mark where
  | event (event : Event)
  | submitted (id : RequestID) (request : Request)
  | panicked (message : String)
  deriving DecidableEq

/-- The nodes of a cluster, in increasing order, with what they all run. -/
structure Config where
  members : List NodeID
  increasing : members.Pairwise (· < ·)
  opts : Options
  sm : StateMachine

namespace Config

/-- All other nodes of the cluster. -/
def peers (cfg : Config) (id : NodeID) : List NodeID := cfg.members.filter (· ≠ id)

theorem nodup (cfg : Config) : cfg.members.Nodup := cfg.increasing.imp fun h => h.ne

theorem mem_peers {cfg : Config} {i n : NodeID} : n ∈ cfg.peers i ↔ n ∈ cfg.members ∧ n ≠ i := by
  simp [peers]

theorem peers_nodup (cfg : Config) (i : NodeID) : (cfg.peers i).Nodup := cfg.nodup.filter _

theorem length_peers {cfg : Config} {i : NodeID} (h : i ∈ cfg.members) :
    (cfg.peers i).length + 1 = cfg.members.length := by
  have he : cfg.peers i = cfg.members.erase i := by
    rw [cfg.nodup.erase_eq_filter, peers]
    exact List.filter_congr fun n _ => by by_cases hn : n = i <;> simp [hn]
  have hp := List.length_pos_of_mem h
  rw [he, List.length_erase_of_mem h]
  omega

end Config

structure World where
  process : NodeID → Process
  network : List Envelope
  trace : List (NodeID × Mark)

/-- What makes a node run: the start of its process, a tick, the message at a
position of the network, or a client request. -/
inductive Input where
  | start (id : NodeID) (commitIndex : ℕ) (applied : ℕ)
  | tick (id : NodeID)
  | deliver (position : ℕ)
  | submit (id : NodeID) (request : RequestID) (body : Request)

/-- An action of the environment. `run` processes an input with the given random
numbers; if a number of events is given, the node crashes after them. -/
inductive Move where
  | run (input : Input) (supply : List ℕ) (cut : Option ℕ)
  | crash (id : NodeID)
  | drop (position : ℕ)
  | duplicate (position : ℕ)

namespace World

/-- All nodes are stopped and have never run. -/
def init : World := ⟨fun _ => .down .empty, [], []⟩

/-- The server routes a client response addressed to the node itself to the
waiting client, and every other message to a peer. -/
def routed : Event → Option Envelope
  | .send envelope =>
      match envelope.message with
      | .clientResponse _ _ =>
          if envelope.recipient = envelope.sender then none else some envelope
      | _ => some envelope
  | _ => none

def setProcess (w : World) (id : NodeID) (process : Process) : World :=
  { w with process := Function.update w.process id process }

def mark (w : World) (id : NodeID) (marks : List Mark) : World :=
  { w with trace := w.trace ++ marks.map fun m => (id, m) }

/-- Adds the events of a node to the trace and its messages to the network. -/
def observe (w : World) (id : NodeID) (events : List Event) : World :=
  { w.mark id (events.map Mark.event) with network := w.network ++ events.filterMap routed }

@[simp] theorem setProcess_trace (w : World) (id : NodeID) (process : Process) :
    (w.setProcess id process).trace = w.trace := rfl

@[simp] theorem mark_trace (w : World) (id : NodeID) (marks : List Mark) :
    (w.mark id marks).trace = w.trace ++ marks.map fun m => (id, m) := rfl

@[simp] theorem observe_trace (w : World) (id : NodeID) (events : List Event) :
    (w.observe id events).trace = w.trace ++ events.map fun e => (id, Mark.event e) := by
  simp [observe, Function.comp_def]

/-- Lets a node whose disk was `disk` run a program, until it returns, fails or is
cut after the given number of events. -/
def execute (w : World) (id : NodeID) (disk : Disk) (startTerm : ℕ) (program : Action Node)
    (supply : List ℕ) (cut : Option ℕ) : World :=
  let outcome := program supply
  match cut with
  | some k =>
      let events := outcome.events.take k
      (w.observe id events).setProcess id (.down (events.foldl Disk.record disk))
  | none =>
      let w := w.observe id outcome.events
      let stopped := Process.down (outcome.events.foldl Disk.record disk)
      match outcome.result with
      | .ok node => w.setProcess id (.up node startTerm)
      | .error (.panic message) => (w.mark id [.panicked message]).setProcess id stopped
      | .error (.error _) => w.setProcess id stopped

/-- Steps a running node with a message. -/
def stepNode (cfg : Config) (w : World) (msg : Envelope) (supply : List ℕ) (cut : Option ℕ) :
    Option World :=
  match w.process msg.recipient with
  | .up node startTerm =>
      some (w.execute msg.recipient ⟨node.log, node.state⟩ startTerm (node.step cfg.sm msg)
        supply cut)
  | .down _ => none

/-- Processes an input, or nothing if it is not possible. -/
def input (cfg : Config) (w : World) (supply : List ℕ) (cut : Option ℕ) : Input → Option World
  | .start id commitIndex applied =>
      match w.process id with
      | .down disk =>
          if id ∈ cfg.members then
            let disk := disk.restore commitIndex applied
            some (w.execute id disk disk.log.term
              (Node.new id (cfg.peers id) disk.log disk.state cfg.opts cfg.sm) supply cut)
          else none
      | .up _ _ => none
  | .tick id =>
      match w.process id with
      | .up node startTerm =>
          some (w.execute id ⟨node.log, node.state⟩ startTerm (node.tick cfg.sm) supply cut)
      | .down _ => none
  | .deliver position =>
      match w.network[position]? with
      | some msg =>
          stepNode cfg { w with network := w.network.eraseIdx position } msg supply cut
      | none => none
  | .submit id request body =>
      match w.process id with
      | .up node _ =>
          stepNode cfg (w.mark id [.submitted request body])
            ⟨id, node.term, id, .clientRequest request body⟩ supply cut
      | .down _ => none

/-- The effect of an action, or nothing if it is not possible. -/
def step (cfg : Config) (w : World) : Move → Option World
  | .run i supply cut => w.input cfg supply cut i
  | .crash id =>
      match w.process id with
      | .up node _ => some (w.setProcess id (.down ⟨node.log, node.state⟩))
      | .down _ => none
  | .drop position => some { w with network := w.network.eraseIdx position }
  | .duplicate position =>
      match w.network[position]? with
      | some msg => some { w with network := w.network ++ [msg] }
      | none => none

/-- The effect of a list of actions. -/
def run (cfg : Config) : World → List Move → Option World
  | w, [] => some w
  | w, m :: ms => (w.step cfg m).bind fun w' => run cfg w' ms

/-- The worlds of all runs from the start of the cluster. -/
def Reachable (cfg : Config) (w : World) : Prop := ∃ moves, run cfg init moves = some w

@[simp] theorem run_nil (cfg : Config) (w : World) : run cfg w [] = some w := rfl

@[simp] theorem run_cons (cfg : Config) (w : World) (m : Move) (ms : List Move) :
    run cfg w (m :: ms) = (w.step cfg m).bind fun w' => run cfg w' ms := rfl

theorem run_append (cfg : Config) (w : World) (ms ns : List Move) :
    run cfg w (ms ++ ns) = (run cfg w ms).bind fun w' => run cfg w' ns := by
  induction ms generalizing w with
  | nil => rfl
  | cons m ms ih =>
      simp only [List.cons_append, run_cons]
      cases w.step cfg m with
      | none => rfl
      | some w' => exact ih w'

/-- What running a program does: the node emits some of the events, stays up only if
it emits all of them and returns, and may leave a mark that it panicked. -/
theorem execute_cases (w : World) (i : NodeID) (disk : Disk) (startTerm : ℕ)
    (program : Action Node) (supply : List ℕ) (cut : Option ℕ) :
    ∃ k panics, (∀ m ∈ panics, ∃ message, m = (i, Mark.panicked message)) ∧
      (w.execute i disk startTerm program supply cut).trace = w.trace ++
        ((program supply).events.take k).map (fun e => (i, Mark.event e)) ++ panics ∧
      (w.execute i disk startTerm program supply cut).network = w.network ++
        ((program supply).events.take k).filterMap routed ∧
      (∀ j ≠ i, (w.execute i disk startTerm program supply cut).process j = w.process j) ∧
      ((∃ disk', (w.execute i disk startTerm program supply cut).process i = .down disk') ∨
        ∃ node, (w.execute i disk startTerm program supply cut).process i = .up node startTerm ∧
          (program supply).result = .ok node ∧
          (program supply).events.take k = (program supply).events) := by
  have hall : (program supply).events.take (program supply).events.length =
      (program supply).events := List.take_length
  have hother : ∀ (v : World) p, ∀ j ≠ i, (v.setProcess i p).process j = v.process j :=
    fun v p j hj => Function.update_of_ne hj _ _
  cases cut with
  | some k =>
      refine ⟨k, [], by simp, ?_, rfl, hother _ _, Or.inl ⟨_, Function.update_self _ _ _⟩⟩
      simp only [execute, setProcess_trace, observe_trace, List.append_nil]
  | none =>
      simp only [execute]
      cases hout : (program supply).result with
      | ok node =>
          refine ⟨_, [], by simp, ?_, by rw [hall]; rfl, hother _ _,
            Or.inr ⟨node, Function.update_self _ _ _, rfl, hall⟩⟩
          rw [hall, setProcess_trace, observe_trace, List.append_nil]
      | error f =>
          cases f with
          | error e =>
              refine ⟨_, [], by simp, ?_, by rw [hall]; rfl, hother _ _,
                Or.inl ⟨_, Function.update_self _ _ _⟩⟩
              rw [hall, setProcess_trace, observe_trace, List.append_nil]
          | panic message =>
              refine ⟨_, [(i, .panicked message)], by simp, ?_, by rw [hall]; rfl, hother _ _,
                Or.inl ⟨_, Function.update_self _ _ _⟩⟩
              rw [hall, setProcess_trace, mark_trace, observe_trace]
              rfl

/-- The world after a run from the start of the cluster. -/
def after (cfg : Config) (moves : List Move) : World := (run cfg init moves).getD init

theorem run_after {c : Config} {m : List Move} (h : (run c init m).isSome) :
    run c init m = some (after c m) := by
  obtain ⟨w, hw⟩ := Option.isSome_iff_exists.mp h
  rw [after, hw, Option.getD_some]

end World

/-! ## A cluster of three nodes -/

/-- A state machine that answers a request with its command. -/
def StateMachine.echo : StateMachine where
  Contents := Unit
  init := ()
  apply := fun _ entry => ((), .ok (entry.command.getD []))
  read := fun _ command => .ok command

/-- Three nodes that campaign whenever they miss a tick of their leader. -/
def Config.three : Config where
  members := [1, 2, 3]
  increasing := by decide
  opts := ⟨1, ⟨1, 2, by decide⟩, 1⟩
  sm := .echo

namespace Move

def start (id : NodeID) : Move := .run (.start id 0 0) [] none

def tick (id : NodeID) : Move := .run (.tick id) [] none

def deliver (position : ℕ) : Move := .run (.deliver position) [] none

def submit (id : NodeID) (request : RequestID) (body : Request) : Move :=
  .run (.submit id request body) [] none

/-- Node 1 becomes leader with the vote of node 2, which then acknowledges the noop
of the leader. The leader commits it. -/
def election : List Move :=
  [start 1, start 2, start 3, tick 1, deliver 0, deliver 1, deliver 1, deliver 4]

end Move
end ToyDB.Raft
