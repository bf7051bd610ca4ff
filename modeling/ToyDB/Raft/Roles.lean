import ToyDB.Raft.Steps

/-!
# What a role knows

The invariants of a follower, a candidate and a leader, in terms of the history.
They speak of the node's own part of the history, which other nodes do not change,
and otherwise only of what stays true.
-/
namespace ToyDB.Raft
open ToyDB.Consensus ToyDB.Effects

/-- A follower in the term that knows its leader followed it; one that does not
never followed anyone in the term, unless it was restarted in it. -/
structure FollowerRole (cfg : Config) (h : History) (i : NodeID) (T startTerm : ℕ)
    (role : Follower) : Prop where
  led : ∀ m, role.leader = some m → m ∈ cfg.members ∧ m ≠ i ∧ Led h.core m T ∧
    h.follows i T = true
  idle : role.leader = none → role.forwarded = []
  followed : role.leader = none → h.follows i T = true → startTerm = T
  former : Led h.core i T → startTerm = T

/-- A candidate voted for itself with its log, and has the votes it counts. -/
structure CandidateRole (cfg : Config) (h : History) (i : NodeID) (log : Log)
    (role : Candidate) : Prop where
  vote : log.vote = some i
  vote_log : (h.core i).voteLog log.term = log.entries
  not_led : ¬ Led h.core i log.term
  not_follows : h.follows i log.term = false
  nodup : role.votes.Nodup
  own : i ∈ role.votes
  votes : ∀ v ∈ role.votes, v ∈ cfg.members ∧ (h.core v).voted log.term = some i

/-- The leader knows no more of a follower than the follower did. -/
structure ProgressOf (h : History) (p : NodeID) (T lastIndex : ℕ) (x : Progress) : Prop where
  match_lt : x.matchIndex < x.nextIndex
  next_le : x.nextIndex ≤ lastIndex + 1
  acked : x.matchIndex ≤ (h.core p).acked T
  confirmed : x.readSeq ≤ h.confirmed p T

/-- A client whose request a leader handles: the leader itself or a follower. -/
structure Client (cfg : Config) (h : History) (i : NodeID) (T : ℕ) (n : NodeID) : Prop where
  member : n ∈ cfg.members
  follows : n ≠ i → h.follows n T = true

/-- A pending write is for an entry of the log that was appended for it. -/
structure WriteOf (cfg : Config) (h : History) (i : NodeID) (T : ℕ) (entries : List Entry)
    (k : ℕ) (w : Write) : Prop where
  client : Client cfg h i T w.sender
  pos : 0 < k
  entry : ∃ e c, entries[k - 1]? = some e ∧ e.command = some c ∧
    h.requests w.sender w.id (.write c) ∧ h.marked i (.proposed w.id e.index e.term)

/-- A pending read has the sequence number of its request. -/
structure ReadOf (cfg : Config) (h : History) (i : NodeID) (T : ℕ) (r : Read) : Prop where
  client : Client cfg h i T r.sender
  pos : 0 < r.seq
  request : (h.reads i T)[r.seq - 1]? = some r

structure LeaderRole (cfg : Config) (h : History) (i : NodeID) (T : ℕ) (entries : List Entry)
    (role : Leader) : Prop where
  led : Led h.core i T
  keys : role.progress.keys = cfg.peers i
  progress : ∀ {p x}, role.progress.get p = some x → ProgressOf h p T entries.length x
  seq : role.readSeq = (h.reads i T).length
  writes : ∀ {k w}, role.writes.get k = some w → WriteOf cfg h i T entries k w
  reads : ∀ r ∈ role.reads, ReadOf cfg h i T r

/-! ## Roles at a point -/

structure FollowerAt {cfg : Config} {i : NodeID} (startTerm : ℕ) (node : RawNode Follower)
    (g : Point cfg i) : Prop extends RunsAt node g where
  role : FollowerRole cfg g.hist i node.log.term startTerm node.role

structure CandidateAt {cfg : Config} {i : NodeID} (node : RawNode Candidate) (g : Point cfg i) :
    Prop extends RunsAt node g where
  role : CandidateRole cfg g.hist i node.log node.role

structure LeaderAt {cfg : Config} {i : NodeID} (node : RawNode Leader) (g : Point cfg i) :
    Prop extends RunsAt node g where
  role : LeaderRole cfg g.hist i node.log.term node.log.entries node.role
  commit : (g.hist.core i).commitTo node.log.term ≤ node.log.commitIndex

/-- The node holds the invariant of its role. A leader has appended to its log. -/
def NodeAt {cfg : Config} {i : NodeID} (startTerm : ℕ) (node : Node) (g : Point cfg i) : Prop :=
  match node with
  | .follower node => FollowerAt startTerm node g
  | .candidate node => CandidateAt node g
  | .leader node => LeaderAt node g ∧ lastTerm node.log.entries = node.log.term

def Node.isFollower : Node → Bool
  | .follower _ => true
  | _ => false

/-- A node that started in the term is a follower until it leaves it. -/
def Started (startTerm : ℕ) (node : Node) : Prop :=
  startTerm ≤ node.term ∧ (node.isFollower = false → startTerm < node.term)

/-! ## What the history's growth preserves -/

section Grows
variable {cfg : Config} {h h' : History} {i : NodeID} {T : ℕ}

theorem FollowerRole.grows {startTerm : ℕ} {role : Follower}
    (hr : FollowerRole cfg h i T startTerm role) (hg : History.Grows h h')
    (hstart : (h'.core i).start T = (h.core i).start T) (hfollows : h'.follows i T = h.follows i T) :
    FollowerRole cfg h' i T startTerm role where
  led m hm := by
    obtain ⟨h₁, h₂, h₃, h₄⟩ := hr.led m hm
    exact ⟨h₁, h₂, hg.core.led h₃, hg.follows h₄⟩
  idle := hr.idle
  followed hn hf := hr.followed hn (hfollows ▸ hf)
  former hl := hr.former (by rwa [Led, hstart] at hl)

theorem CandidateRole.grows {log : Log} {role : Candidate}
    (hr : CandidateRole cfg h i log role) (hg : History.Grows h h')
    (hcore : h'.core i = h.core i) (hfollows : h'.follows i = h.follows i) :
    CandidateRole cfg h' i log role where
  vote := hr.vote
  vote_log := by rw [hcore, hr.vote_log]
  not_led := by rw [Led, hcore]; exact hr.not_led
  not_follows := by rw [hfollows, hr.not_follows]
  nodup := hr.nodup
  own := hr.own
  votes v hv := ⟨(hr.votes v hv).1, (hg.core v).voted (hr.votes v hv).2⟩

theorem ProgressOf.grows {p : NodeID} {lastIndex lastIndex' : ℕ} {x : Progress}
    (hp : ProgressOf h p T lastIndex x) (hg : History.Grows h h') (hle : lastIndex ≤ lastIndex') :
    ProgressOf h' p T lastIndex' x where
  match_lt := hp.match_lt
  next_le := hp.next_le.trans (by omega)
  acked := hp.acked.trans ((hg.core p).acked T)
  confirmed := hp.confirmed.trans (hg.confirmed p T)

theorem Client.grows {n : NodeID} (hc : Client cfg h i T n) (hg : History.Grows h h') :
    Client cfg h' i T n :=
  ⟨hc.member, fun hn => hg.follows (hc.follows hn)⟩

theorem WriteOf.grows {entries entries' : List Entry} {k : ℕ} {w : Write}
    (hw : WriteOf cfg h i T entries k w) (hg : History.Grows h h') (hp : entries <+: entries') :
    WriteOf cfg h' i T entries' k w where
  client := hw.client.grows hg
  pos := hw.pos
  entry := by
    obtain ⟨e, c, he, hc, hr, hm⟩ := hw.entry
    exact ⟨e, c, getElem?_of_initial hp he, hc, hg.requests hr, hg.marked hm⟩

theorem ReadOf.grows {r : Read} (hr : ReadOf cfg h i T r) (hg : History.Grows h h') :
    ReadOf cfg h' i T r :=
  ⟨hr.client.grows hg, hr.pos, getElem?_of_initial (hg.reads i T) hr.request⟩

theorem LeaderRole.grows {entries entries' : List Entry} {role : Leader}
    (hr : LeaderRole cfg h i T entries role) (hg : History.Grows h h') (hp : entries <+: entries')
    (hreads : h'.reads i T = h.reads i T) : LeaderRole cfg h' i T entries' role where
  led := hg.core.led hr.led
  keys := hr.keys
  progress hx := (hr.progress hx).grows hg hp.length_le
  seq := by rw [hreads, hr.seq]
  writes hw := (hr.writes hw).grows hg hp
  reads r hr' := (hr.reads r hr').grows hg

end Grows

section Points
variable {cfg : Config} {i : NodeID} {g g' : Point cfg i}

theorem RunsAt.of_disk {R : Type} {self : RawNode R} (hr : RunsAt self g)
    (hd : g'.disk = g.disk) : RunsAt self g' :=
  { hr with disk := hd.trans hr.disk }

theorem FollowerAt.kept {startTerm : ℕ} {self : RawNode Follower} (hf : FollowerAt startTerm self g)
    (hg : History.Grows g.hist g'.hist) (hk : Kept i g.hist g'.hist)
    (hfollows : g'.hist.follows = g.hist.follows) (hd : g'.disk = g.disk) :
    FollowerAt startTerm self g' :=
  ⟨hf.toRunsAt.of_disk hd, hf.role.grows hg (congrFun hk.start _) (by rw [hfollows])⟩

theorem NodeAt.runsAt {startTerm : ℕ} {node : Node} (hn : NodeAt startTerm node g) :
    g.disk = ⟨node.log, node.state⟩ ∧ i ∈ cfg.members := by
  match node with
  | .follower _ => exact ⟨hn.disk, hn.member⟩
  | .candidate _ => exact ⟨hn.disk, hn.member⟩
  | .leader _ => exact ⟨hn.1.disk, hn.1.member⟩

theorem NodeAt.core_term {startTerm : ℕ} {node : Node} (hn : NodeAt startTerm node g) :
    (g.hist.core i).term = node.term := by
  have := g.stored.term
  rwa [hn.runsAt.1] at this

/-- While other nodes move, the invariant of a node remains. -/
theorem NodeAt.grows {startTerm : ℕ} {node : Node} (hn : NodeAt startTerm node g)
    (hg : History.Grows g.hist g'.hist) (hs : History.Same i g.hist g'.hist)
    (hd : g'.disk = g.disk) : NodeAt startTerm node g' := by
  match node with
  | .follower node =>
      exact ⟨hn.toRunsAt.of_disk hd, hn.role.grows hg (by rw [hs.core]) (by rw [hs.follows])⟩
  | .candidate node => exact ⟨hn.toRunsAt.of_disk hd, hn.role.grows hg hs.core hs.follows⟩
  | .leader node =>
      obtain ⟨hn, hlast⟩ := hn
      exact ⟨⟨hn.toRunsAt.of_disk hd, hn.role.grows hg List.prefix_rfl (by rw [hs.reads]),
        by rw [hs.core]; exact hn.commit⟩, hlast⟩

/-- A follower that was not restarted in its term. -/
theorem FollowerAt.restarted {self : RawNode Follower} (hf : FollowerAt 0 self g)
    (startTerm : ℕ) : FollowerAt startTerm self g := by
  have hpos : ¬ Led g.hist.core i self.log.term := fun hl => by
    have := hf.role.former hl
    have := (g.inv.core.led_le hl).1
    omega
  have hfollows : self.role.leader = none → ¬ g.hist.follows i self.log.term = true := by
    intro hn hfo
    have := hf.role.followed hn hfo
    obtain ⟨_, m, _, hl⟩ := g.inv.follows_led hfo
    have := (g.inv.core.led_le hl).1
    omega
  exact ⟨hf.toRunsAt, hf.role.led, hf.role.idle, fun hn hfo => absurd hfo (hfollows hn),
    fun hl => absurd hl hpos⟩

theorem NodeAt.restarted {node : Node} (hn : NodeAt 0 node g) (startTerm : ℕ) :
    NodeAt startTerm node g := by
  match node with
  | .follower _ => exact FollowerAt.restarted hn startTerm
  | .candidate _ => exact hn
  | .leader _ => exact hn

end Points

/-! ## Inbound messages -/

/-- A message that node `i` in the term may have to process: one from another node
or the request of a local client. -/
inductive Inbound (cfg : Config) (h : History) (i : NodeID) (T : ℕ) (msg : Envelope) : Prop where
  | delivered (hs : Sent cfg h msg) (ht : msg.recipient = i) (hne : msg.sender ≠ i)
  | submitted (id : RequestID) (request : Request) (hr : h.requests i id request)
      (hmsg : msg = ⟨i, T, i, .clientRequest id request⟩)

theorem Inbound.grows {cfg : Config} {h h' : History} {i : NodeID} {T : ℕ} {msg : Envelope}
    (hm : Inbound cfg h i T msg) (hg : History.Grows h h') : Inbound cfg h' i T msg := by
  cases hm with
  | delivered hs ht hne => exact .delivered (hs.grows hg) ht hne
  | submitted id request hr hmsg => exact .submitted id request (hg.requests hr) hmsg

/-- A message of the term in which the follower was restarted that is addressed to
its former role: a response to the leader it was, a request forwarded to it, or a
response from the leader it followed. -/
def StaleFollower (startTerm : ℕ) (self : RawNode Follower) (msg : Envelope) : Prop :=
  startTerm = self.term ∧ msg.term = self.term ∧
    match msg.message with
    | .heartbeatResponse _ _ => True
    | .appendResponse _ _ => True
    | .readResponse _ => True
    | .clientRequest _ _ => msg.sender ≠ self.id
    | .clientResponse _ _ => self.role.leader ≠ some msg.sender
    | _ => False

def Stale (startTerm : ℕ) (node : Node) (msg : Envelope) : Prop :=
  match node with
  | .follower node => StaleFollower startTerm node msg
  | _ => False

theorem Stale.term_eq {startTerm : ℕ} {node : Node} {msg : Envelope}
    (h : Stale startTerm node msg) : msg.term = startTerm := by
  cases node with
  | candidate _ => exact h.elim
  | leader _ => exact h.elim
  | follower _ => exact h.2.1.trans h.1.symm

end ToyDB.Raft
