import ToyDB.Raft.History

/-!
# The meaning of disks, messages and events

What the durable state, the messages and the events of a node say about the
history of its cluster. All that is said about messages stays true as the history
grows. `nodeSystem` is the specification of one node: its history may move with
the events it emits, which must be true of the history, as must be its disk.
-/
namespace ToyDB.Raft
open ToyDB.Consensus ToyDB.Effects

/-- The members of the cluster as a set. -/
def Config.memberSet (cfg : Config) : Finset NodeID := ⟨cfg.members, cfg.nodup⟩

@[simp] theorem Config.mem_memberSet {cfg : Config} {n : NodeID} :
    n ∈ cfg.memberSet ↔ n ∈ cfg.members := Iff.rfl

@[simp] theorem Config.card_memberSet (cfg : Config) :
    cfg.memberSet.card = cfg.members.length := rfl

/-- The log as the history knows it, with a commit index that is not ahead, and the
state made of entries that are committed. -/
structure Stored (h : History) (i : NodeID) (log : Log) (state : List Entry) : Prop where
  term : (h.core i).term = log.term
  entries : (h.core i).log = log.entries
  vote : (h.core i).voted log.term = log.vote
  commit_le : log.commitIndex ≤ log.entries.length
  commit_term : log.commitTerm = lastTerm (log.entries.take log.commitIndex)
  committed : Chosen h.core log.term (log.entries.take log.commitIndex)
  state_initial : state <+: log.entries
  applied : Chosen h.core log.term state

/-- A successful write was requested by the node, and its result is that of the
committed entry that a leader appended for it. A successful read is one that a leader
executed. -/
def Answers (cfg : Config) (h : History) (n : NodeID) (id : RequestID) :
    Except Error Response → Prop
  | .ok (.write r) => ∃ T p e c l, Chosen h.core T (p ++ [e]) ∧ e.command = some c ∧
      h.requests n id (.write c) ∧ h.marked l (.proposed id e.index e.term) ∧
      cfg.sm.result p e = .ok r
  | .ok (.read r) => ∃ l T read state, h.marked l (.readServed T read state) ∧
      read.sender = n ∧ read.id = id ∧ cfg.sm.read (cfg.sm.contents state) read.command = .ok r
  | _ => True

/-- The leader `f` of the term may send entries from `base` on. -/
structure Sendable (cfg : Config) (h : History) (f : NodeID) (T : ℕ) (baseIndex : ℕ)
    (baseTerm : ℕ) (entries : List Entry) : Prop where
  led : Led h.core f T
  slice : ∃ base, base.length = baseIndex ∧ lastTerm base = baseTerm ∧
    base ++ entries <+: (h.core f).full T
  nonempty : baseIndex = 0 → entries = [] → cfg.opts.maxAppendEntries = 0

/-- The leader `f` of the term may announce its last and its commit index. -/
structure Beats (h : History) (f : NodeID) (T : ℕ) (lastIndex commitIndex : ℕ)
    (readSeq : ℕ) : Prop where
  led : Led h.core f T
  commit_le : commitIndex ≤ lastIndex
  log : ∃ p, p <+: (h.core f).full T ∧ p.length = lastIndex ∧ lastTerm p = T ∧
    Chosen h.core T (p.take commitIndex)
  reads : readSeq ≤ (h.reads f T).length

/-- Node `f` confirmed the read sequence number to the leader `t`. -/
structure Confirms (h : History) (f t : NodeID) (T : ℕ) (seq : ℕ) : Prop where
  led : Led h.core t T
  reads : seq ≤ (h.reads t T).length
  confirmed : seq ≤ h.confirmed f T

/-- Node `f` answers an append of the leader `t`. -/
structure Appended (cfg : Config) (h : History) (f t : NodeID) (T : ℕ)
    (matchIndex rejectIndex : ℕ) : Prop where
  led : Led h.core t T
  acked : matchIndex ≤ (h.core f).acked T
  reject : rejectIndex ≤ ((h.core t).full T).length
  one : matchIndex = 0 ∨ rejectIndex = 0
  nonempty : matchIndex = 0 → rejectIndex = 0 → cfg.opts.maxAppendEntries = 0

/-- What a message from `f` to `t` in the term says. -/
def Means (cfg : Config) (h : History) (f : NodeID) (T : ℕ) (t : NodeID) : Message → Prop
  | .campaign lastIndex lastTerm' => (h.core f).voted T = some f ∧
      ((h.core f).voteLog T).length = lastIndex ∧ lastTerm ((h.core f).voteLog T) = lastTerm'
  | .campaignResponse vote => vote = true → (h.core f).voted T = some t
  | .heartbeat lastIndex commitIndex readSeq => Beats h f T lastIndex commitIndex readSeq
  | .heartbeatResponse matchIndex readSeq =>
      Confirms h f t T readSeq ∧ matchIndex ≤ (h.core f).acked T
  | .append baseIndex baseTerm entries => Sendable cfg h f T baseIndex baseTerm entries
  | .appendResponse matchIndex rejectIndex => Appended cfg h f t T matchIndex rejectIndex
  | .read seq => Led h.core f T ∧ seq ≤ (h.reads f T).length
  | .readResponse seq => Confirms h f t T seq
  | .clientRequest id request =>
      Led h.core t T ∧ h.follows f T = true ∧ h.requests f id request
  | .clientResponse id response =>
      Answers cfg h t id response ∧ (f ≠ t → Led h.core f T ∧ h.follows t T = true)

/-- A message between members of the cluster, of which only client responses stay
at their node. -/
structure Sent (cfg : Config) (h : History) (env : Envelope) : Prop where
  sender : env.sender ∈ cfg.members
  recipient : env.recipient ∈ cfg.members
  means : Means cfg h env.sender env.term env.recipient env.message

/-- What an event of node `i` says. -/
def Occurs (cfg : Config) (i : NodeID) (h : History) : Event → Prop
  | .send env => env.sender = i ∧ Sent cfg h env ∧
      (env.recipient = i → ∃ id response, env.message = .clientResponse id response)
  | .logged log => Chosen h.core log.term (log.entries.take log.commitIndex) ∧
      log.commitIndex ≤ log.entries.length ∧ (h.core i).log = log.entries
  | .applied entry result => ∃ T p, Chosen h.core T (p ++ [entry]) ∧ entry.index = p.length + 1 ∧
      result = cfg.sm.result p entry
  | .leading T => Led h.core i T
  | .readRequested T read => T = (h.core i).term ∧ Led h.core i T ∧
      (∀ v, h.confirmed v T < read.seq) ∧ h.requests read.sender read.id (.read read.command)
  | .readServed T read applied => Led h.core i T ∧ 0 < read.seq ∧
      (h.reads i T)[read.seq - 1]? = some read ∧
      (∃ Q, IsQuorum cfg.memberSet Q ∧ ∀ v ∈ Q, v = i ∨ read.seq ≤ h.confirmed v T) ∧
      applied <+: (h.core i).full T ∧ (h.core i).commitTo T ≤ applied.length ∧
      ∃ s, (h.core i).start T = some s ∧ s.length < applied.length
  | .proposed _ _ _ => True

/-! ## What stays true -/

section Grows
variable {cfg : Config} {h h' : History} (hg : History.Grows h h')
include hg

theorem Answers.grows {n : NodeID} {id : RequestID} {response : Except Error Response}
    (ha : Answers cfg h n id response) : Answers cfg h' n id response := by
  match response with
  | .ok (.write r) =>
      obtain ⟨T, p, e, c, l, hc, he, hr, hm, hs⟩ := ha
      exact ⟨T, p, e, c, l, hc.grows hg.core le_rfl, he, hg.requests hr, hg.marked hm, hs⟩
  | .ok (.read r) =>
      obtain ⟨l, T, read, state, hm, hs⟩ := ha
      exact ⟨l, T, read, state, hg.marked hm, hs⟩
  | .ok (.status _) => trivial
  | .error _ => trivial

theorem Confirms.grows {f t : NodeID} {T : ℕ} {seq : ℕ}
    (hc : Confirms h f t T seq) : Confirms h' f t T seq where
  led := hg.core.led hc.led
  reads := hc.reads.trans (hg.reads t T).length_le
  confirmed := hc.confirmed.trans (hg.confirmed f T)

theorem Means.grows {f t : NodeID} {T : ℕ} {m : Message} (hm : Means cfg h f T t m) :
    Means cfg h' f T t m := by
  cases m with
  | campaign lastIndex lastTerm' =>
      obtain ⟨hv, hl, ht⟩ := hm
      have hlog := (hg.core f).voteLog hv
      exact ⟨(hg.core f).voted hv, by rw [hlog, hl], by rw [hlog, ht]⟩
  | campaignResponse vote => exact fun hv => (hg.core f).voted (hm hv)
  | heartbeat lastIndex commitIndex readSeq =>
      obtain ⟨hled, hle, ⟨p, hp, hlen, hT, hc⟩, hr⟩ := hm
      exact ⟨hg.core.led hled, hle, ⟨p, hp.trans ((hg.core f).full hled), hlen, hT,
        hc.grows hg.core le_rfl⟩, hr.trans (hg.reads f T).length_le⟩
  | heartbeatResponse matchIndex readSeq =>
      exact ⟨hm.1.grows hg, hm.2.trans ((hg.core f).acked T)⟩
  | append baseIndex baseTerm entries =>
      obtain ⟨hled, ⟨base, hlen, hT, hp⟩, hne⟩ := hm
      exact ⟨hg.core.led hled, ⟨base, hlen, hT, hp.trans ((hg.core f).full hled)⟩, hne⟩
  | appendResponse matchIndex rejectIndex =>
      exact { hm with
        led := hg.core.led hm.led
        acked := hm.acked.trans ((hg.core f).acked T)
        reject := hm.reject.trans ((hg.core t).full hm.led).length_le }
  | read seq => exact ⟨hg.core.led hm.1, hm.2.trans (hg.reads f T).length_le⟩
  | readResponse seq => exact Confirms.grows hg hm
  | clientRequest id request => exact ⟨hg.core.led hm.1, hg.follows hm.2.1, hg.requests hm.2.2⟩
  | clientResponse id response =>
      exact ⟨hm.1.grows hg, fun hne => ⟨hg.core.led (hm.2 hne).1, hg.follows (hm.2 hne).2⟩⟩

theorem Sent.grows {env : Envelope} (hs : Sent cfg h env) : Sent cfg h' env :=
  ⟨hs.sender, hs.recipient, hs.means.grows hg⟩

/-- A disk stays true while other nodes move. -/
theorem Stored.grows {i : NodeID} {log : Log} {state : List Entry} (hs : Stored h i log state)
    (hi : History.Same i h h') : Stored h' i log state where
  term := hi.core ▸ hs.term
  entries := hi.core ▸ hs.entries
  vote := hi.core ▸ hs.vote
  commit_le := hs.commit_le
  commit_term := hs.commit_term
  committed := hs.committed.grows hg.core le_rfl
  state_initial := hs.state_initial
  applied := hs.applied.grows hg.core le_rfl

end Grows

/-! ## The specification of a node -/

/-- A history with the disk of node `i`. -/
structure Point (cfg : Config) (i : NodeID) where
  hist : History
  disk : Disk
  inv : hist.Inv cfg.memberSet
  stored : Stored hist i disk.log disk.state

/-- Commitments, read requests, elections and the marks of a node only change with the events
that show them, and client requests do not change. -/
structure Shown (i : NodeID) (es : Option Event) (h h' : History) : Prop where
  commit : ∀ T, (h'.core i).commitTo T = (h.core i).commitTo T ∨
    ∃ log, es = some (.logged log) ∧ log.term = T ∧ log.commitIndex = (h'.core i).commitTo T ∧
      log.entries = (h'.core i).full T
  reads : ∀ T, h'.reads i T = h.reads i T ∨
    ∃ read, es = some (.readRequested T read) ∧ read.seq = (h.reads i T).length + 1 ∧
      h'.reads i T = h.reads i T ++ [read]
  requests : h'.requests = h.requests
  start : ∀ T, (h'.core i).start T = (h.core i).start T ∨ es = some (.leading T)
  marked : ∀ n e, h'.marked n e → h.marked n e ∨ n = i ∧ es = some e

theorem Shown.refl (i : NodeID) (es : Option Event) (h : History) : Shown i es h h :=
  ⟨fun _ => Or.inl rfl, fun _ => Or.inl rfl, rfl, fun _ => Or.inl rfl, fun _ _ hm => Or.inl hm⟩

/-- The specification of node `i`. -/
def nodeSystem (cfg : Config) (i : NodeID) : System (Point cfg i) Event where
  silent g g' := g'.disk = g.disk ∧ History.Moves cfg.memberSet i g.hist g'.hist ∧
    Shown i none g.hist g'.hist
  visible g e g' := g'.disk = g.disk.record e ∧ History.Moves cfg.memberSet i g.hist g'.hist ∧
    Occurs cfg i g'.hist e ∧ Shown i (some e) g.hist g'.hist

section Paths
variable {cfg : Config} {i : NodeID} {g g' : Point cfg i} {es : List Event}

theorem path_moves (h : (nodeSystem cfg i).Path g es g') :
    History.Moves cfg.memberSet i g.hist g'.hist :=
  h.relates (R := fun g g' => History.Moves cfg.memberSet i g.hist g'.hist) (fun _ => .refl)
    (fun h₁ h₂ => h₁.trans h₂) (fun _ _ hs => hs.2.1) fun _ _ _ hv => hv.2.1

theorem path_grows (h : (nodeSystem cfg i).Path g es g') : History.Grows g.hist g'.hist :=
  History.Moves.grows g.inv (path_moves h)

theorem path_disk (h : (nodeSystem cfg i).Path g es g') :
    g'.disk = es.foldl Disk.record g.disk := by
  induction h with
  | refl g => rfl
  | silent hs _ ih => rw [ih, hs.1]
  | visible hv _ ih => rw [ih, hv.1, List.foldl_cons]

end Paths

/-- Every run of the program is a run of node `i` that satisfies the postcondition,
or fails for the reason `X`. -/
abbrev Runs (cfg : Config) (i : NodeID) (X : Prop) {α : Type} (x : Action α)
    (Q : α → Point cfg i → Prop) (g : Point cfg i) : Prop :=
  wp (nodeSystem cfg i) x Q (fun _ _ => X) g

/-- A call: what the called program leaves behind, and that the history grew. -/
theorem Runs.bind {cfg : Config} {i : NodeID} {X : Prop} {α β : Type} {x : Action α}
    {f : α → Action β} {Q : α → Point cfg i → Prop} {Q' : β → Point cfg i → Prop}
    {g : Point cfg i} (hx : Runs cfg i X x Q g)
    (hf : ∀ a g', History.Grows g.hist g'.hist → Q a g' → Runs cfg i X (f a) Q' g') :
    Runs cfg i X (x >>= f) Q' g := by
  refine wp_bind fun s => ?_
  obtain ⟨g', hp, hr⟩ := hx s
  refine ⟨g', hp, ?_⟩
  cases he : (x s).result with
  | ok a => rw [he] at hr; exact hf a g' (path_grows hp) hr
  | error c => rw [he] at hr; exact hr

/-- A weaker postcondition, given that the history grew. -/
theorem Runs.mono {cfg : Config} {i : NodeID} {X : Prop} {α : Type} {x : Action α}
    {Q Q' : α → Point cfg i → Prop} {g : Point cfg i} (hx : Runs cfg i X x Q g)
    (hQ : ∀ a g', History.Grows g.hist g'.hist → Q a g' → Q' a g') : Runs cfg i X x Q' g := by
  intro s
  obtain ⟨g', hp, hr⟩ := hx s
  refine ⟨g', hp, ?_⟩
  cases he : (x s).result with
  | ok a => rw [he] at hr; exact hQ a g' (path_grows hp) hr
  | error c => rw [he] at hr; exact hr

end ToyDB.Raft
