import Mathlib
import ToyDB.Effects.Meter
import ToyDB.Raft.Cluster

/-!
# What requests cost

The cost of an event for one request ID: an answer to the node's own client, and a
command that is appended or passed on. A node pays for answers out of the requests
it has accepted and not answered yet, and for commands out of the message it
processes.
-/
namespace ToyDB.Raft
open ToyDB.Effects ToyDB.Collections

/-- The event answers the request to the client of the node itself. -/
def Event.answers (id : RequestID) : Event → Bool
  | .send env =>
      match env.message with
      | .clientResponse x _ => x = id ∧ env.recipient = env.sender
      | _ => false
  | _ => false

/-- The message carries the request. -/
def Envelope.requests (id : RequestID) (env : Envelope) : Bool :=
  match env.message with
  | .clientRequest x _ => x = id
  | _ => false

/-- The event appends the command of the request, or passes it on. -/
def Event.proposes (id : RequestID) : Event → Bool
  | .send env => env.requests id
  | .proposed x _ _ => x = id
  | _ => false

/-- The answers and the commands of an event. -/
def charge (id : RequestID) (e : Event) : ℕ × ℕ :=
  ((e.answers id).toNat, (e.proposes id).toNat)

/-- What a message adds to the budget of the node that processes it: a command, and an
answer if it comes from the node's own client. -/
def due (id : RequestID) (msg : Envelope) : ℕ × ℕ :=
  ((msg.requests id && msg.sender = msg.recipient).toNat, (msg.requests id).toNat)

/-! ## Programs without cost -/

section Costless
variable {id : RequestID} {R : Type} {self : RawNode R}

theorem costless_assert {p : Prop} [Decidable p] {m : String} :
    Costless (charge id) (assert p m : Action Unit) fun _ => p := costless_ensure

theorem costless_panic {α : Type} {P : α → Prop} {m : String} :
    Costless (charge id) (panic m : Action α) P := costless_fail

theorem costless_setTermVote (l : Log) (T : ℕ) (v : Option NodeID) :
    Costless (charge id) (l.setTermVote T v) fun _ => True := by
  unfold Log.setTermVote
  refine costless_assert.bind fun _ _ => costless_assert.bind fun _ _ =>
    costless_assert.bind fun _ _ => costless_ite (fun _ => costless_pure trivial) fun _ => ?_
  exact (costless_emit (by rfl)).bind fun _ _ => costless_pure trivial

theorem costless_append (l : Log) (c : Option Bytes) :
    Costless (charge id) (l.append c) fun _ => True := by
  unfold Log.append
  exact costless_assert.bind fun _ _ => (costless_emit (by rfl)).bind fun _ _ => costless_pure trivial

theorem costless_commit (l : Log) (k : ℕ) :
    Costless (charge id) (l.commit k) fun _ => True := by
  unfold Log.commit
  split
  · exact costless_panic
  · refine costless_ite (fun _ => costless_panic) fun _ =>
      costless_ite (fun _ => costless_pure trivial) fun _ => ?_
    exact (costless_emit (by rfl)).bind fun _ _ => costless_pure trivial

theorem costless_skipPresent (stored entries : List Entry) :
    Costless (charge id) (Log.skipPresent stored entries : Action (List Entry)) fun _ => True := by
  induction stored generalizing entries with
  | nil => exact costless_pure trivial
  | cons entry stored ih =>
      cases entries with
      | nil => exact costless_panic
      | cons new entries =>
          exact costless_assert.bind fun _ _ => costless_ite (fun _ => costless_pure trivial)
            fun _ => costless_assert.bind fun _ _ => ih entries

theorem costless_splice (l : Log) (entries : List Entry) :
    Costless (charge id) (l.splice entries) fun _ => True := by
  have hwrite : ∀ entries k, Costless (charge id) (l.writeMissing entries k) fun _ => True := by
    intro entries k
    unfold Log.writeMissing
    split
    · exact costless_pure trivial
    · exact costless_assert.bind fun _ _ => (costless_emit (by rfl)).bind fun _ _ => costless_pure trivial
  unfold Log.splice
  split
  · refine costless_assert.bind fun _ _ => costless_assert.bind fun _ _ =>
      costless_assert.bind fun _ _ => costless_assert.bind fun _ _ => ?_
    split <;> exact costless_assert.bind fun _ _ =>
      (costless_skipPresent _ _).bind fun _ _ => hwrite _ _
  · exact costless_pure trivial

theorem costless_quorumValue (values : List ℕ) :
    Costless (charge id) (self.quorumValue values) fun _ => True := by
  unfold RawNode.quorumValue
  refine costless_assert.bind fun _ _ => ?_
  split
  · exact costless_pure trivial
  · exact costless_panic

theorem costless_randomElectionTimeout :
    Costless (charge id) self.randomElectionTimeout fun _ => True := costless_draw

theorem costless_send {t : NodeID} {m : Message}
    (h : charge id (.send ⟨self.id, self.term, t, m⟩) = 0) :
    Costless (charge id) (self.send t m) fun _ => True := costless_emit h

theorem costless_broadcast {m : Message}
    (h : ∀ t, charge id (.send ⟨self.id, self.term, t, m⟩) = 0) :
    Costless (charge id) (self.broadcast m) fun _ => True :=
  costless_forM fun t _ => costless_send (h t)

theorem costless_applyEntry (sm : StateMachine) (state : List Entry) (e : Entry) :
    Costless (charge id) (applyEntry sm state e) fun _ => True :=
  (costless_emit (by rfl)).bind fun _ _ => costless_pure trivial

theorem costless_maybeApply (sm : StateMachine) :
    Costless (charge id) (self.maybeApply sm) fun self' =>
      self'.id = self.id ∧ self'.role = self.role := by
  unfold RawNode.maybeApply
  refine Costless.bind (P := fun _ => True) (costless_foldlM (fun _ _ _ => ?_) trivial)
    fun _ _ => costless_pure ⟨rfl, rfl⟩
  exact (costless_applyEntry _ _ _).bind fun _ _ => costless_pure trivial

theorem costless_campaign {self : RawNode Candidate} :
    Costless (charge id) self.campaign fun _ => True := by
  unfold RawNode.campaign
  exact costless_randomElectionTimeout.bind fun _ _ => (costless_setTermVote _ _ _).bind fun _ _ =>
    (costless_broadcast fun _ => rfl).bind fun _ _ => costless_pure trivial

end Costless

/-! ## Leaders without cost -/

/-- The clients that a leader has to answer stay the same. -/
structure Keeps (node node' : RawNode Leader) : Prop where
  same : node'.id = node.id
  writes : node'.role.writes = node.role.writes
  reads : node'.role.reads = node.role.reads

theorem Keeps.refl (self : RawNode Leader) : Keeps self self := ⟨rfl, rfl, rfl⟩

theorem Keeps.trans {a b c : RawNode Leader} (h : Keeps a b) (h' : Keeps b c) : Keeps a c :=
  ⟨h'.same.trans h.same, h'.writes.trans h.writes, h'.reads.trans h.reads⟩

section Leader
variable {id : RequestID} {self : RawNode Leader}

theorem keeps_setProgress (p : NodeID) (x : Progress) : Keeps self (self.setProgress p x) :=
  ⟨rfl, rfl, rfl⟩

theorem costless_progress (p : NodeID) :
    Costless (charge id) (self.progress p) fun _ => True := by
  unfold RawNode.progress
  split
  · exact costless_pure trivial
  · exact costless_panic

theorem costless_appendBase (k : ℕ) :
    Costless (charge id) (self.appendBase k) fun _ => True := by
  unfold RawNode.appendBase
  refine costless_ite (fun _ => costless_pure trivial) fun _ => ?_
  split
  · exact costless_pure trivial
  · exact costless_panic

theorem costless_maybeSendAppend (p : NodeID) (probe : Bool) :
    Costless (charge id) (self.maybeSendAppend p probe) (Keeps self) := by
  unfold RawNode.maybeSendAppend
  refine (costless_progress p).bind fun _ _ => costless_assert.bind fun _ _ =>
    costless_assert.bind fun _ _ => costless_assert.bind fun _ _ => costless_assert.bind fun _ _ =>
    costless_ite (fun _ => costless_pure (Keeps.refl self)) fun _ =>
    costless_ite (fun _ => costless_pure (Keeps.refl self)) fun _ => ?_
  exact (costless_appendBase _).bind fun _ _ => (costless_send rfl).bind
    fun _ _ => costless_pure (keeps_setProgress _ _)

theorem costless_propose (c : Option Bytes) :
    Costless (charge id) (self.propose c) fun r => Keeps self r.1 := by
  unfold RawNode.propose
  refine (costless_append _ _).bind fun appended _ => ?_
  refine Costless.bind (P := Keeps self) (costless_foldlM (fun self₁ p h => ?_) ⟨rfl, rfl, rfl⟩)
    fun self₁ h => costless_pure h
  exact (costless_progress p).bind fun _ _ => costless_ite
    (fun _ => (costless_maybeSendAppend p false).mono fun _ h' => h.trans h')
    fun _ => costless_pure h

theorem costless_heartbeat : Costless (charge id) self.heartbeat (Keeps self) := by
  unfold RawNode.heartbeat
  exact costless_assert.bind fun _ _ => (costless_broadcast fun _ => rfl).bind
    fun _ _ => costless_pure ⟨rfl, rfl, rfl⟩

end Leader
end ToyDB.Raft
