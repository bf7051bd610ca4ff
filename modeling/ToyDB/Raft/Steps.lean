import ToyDB.Raft.LogFacts

/-!
# The steps of a running node

A node runs at a point if it is the node of the point and its log and state are
those of the disk. The lemmas below say once for each effect of a node (a message,
a durable write, an applied entry, a silent addition to the history) what it
requires and which point it leads to.
-/
namespace ToyDB.Raft
open ToyDB.Consensus ToyDB.Effects

/-- The fixed part of node `i` in the cluster. -/
structure Member (cfg : Config) (i : NodeID) {R : Type} (node : RawNode R) : Prop where
  id : node.id = i
  member : i ∈ cfg.members
  peers : node.peers = cfg.peers i
  opts : node.opts = cfg.opts

/-- The node runs on the disk of the point. -/
structure RunsAt {cfg : Config} {i : NodeID} {R : Type} (node : RawNode R) (g : Point cfg i) :
    Prop extends Member cfg i node where
  disk : g.disk = ⟨node.log, node.state⟩

section Basic
variable {cfg : Config} {i : NodeID} {R T : Type} {self : RawNode R} {g : Point cfg i}

theorem Member.mem_peers (hm : Member cfg i self) {n : NodeID} :
    n ∈ self.peers ↔ n ∈ cfg.members ∧ n ≠ i := by
  rw [hm.peers, Config.mem_peers]

theorem Member.clusterSize (hm : Member cfg i self) : self.clusterSize = cfg.members.length := by
  rw [RawNode.clusterSize, hm.peers, Config.length_peers hm.member]

/-- A member stays one when only its log, state or role change. -/
theorem Member.with_role (hm : Member cfg i self) {other : RawNode T} (hid : other.id = self.id)
    (hpeers : other.peers = self.peers) (hopts : other.opts = self.opts) : Member cfg i other where
  id := hid.trans hm.id
  member := hm.member
  peers := hpeers.trans hm.peers
  opts := hopts.trans hm.opts

theorem RunsAt.stored (hr : RunsAt self g) : Stored g.hist i self.log self.state := by
  have := g.stored
  rwa [hr.disk] at this

theorem RunsAt.indexed (hr : RunsAt self g) : Indexed self.log.entries :=
  hr.stored.entries ▸ g.inv.log_indexed i

theorem RunsAt.accounted (hr : RunsAt self g) : Accounted g.hist self.log.entries :=
  hr.stored.entries ▸ g.inv.log_accounted i

theorem RunsAt.state_indexed (hr : RunsAt self g) : Indexed self.state :=
  hr.indexed.of_initial hr.stored.state_initial

theorem RunsAt.grounded (hr : RunsAt self g) : Grounded g.hist.core self.log.entries :=
  hr.stored.entries ▸ g.inv.core.log_grounded i

/-- The log of the leader of the node's term, from the history. -/
theorem RunsAt.full_eq (hr : RunsAt self g) (hl : Led g.hist.core i self.log.term) :
    (g.hist.core i).full self.log.term = self.log.entries := by
  have := g.inv.core.lead_log (n := i) (by rwa [hr.stored.term])
  rw [hr.stored.term] at this
  rw [← this, hr.stored.entries]

theorem RunsAt.appliedIndex (hr : RunsAt self g) :
    getAppliedIndex self.state = self.state.length :=
  getAppliedIndex_eq hr.state_indexed

/-- The entries ready to apply continue the state within the committed log. -/
theorem RunsAt.ready (hr : RunsAt self g) :
    let ready := self.state ++ self.log.scanApply (getAppliedIndex self.state)
    ready <+: self.log.entries ∧ Chosen g.hist.core self.log.term ready := by
  have hs := hr.stored
  simp only [hr.appliedIndex, Log.scanApply_eq hr.indexed]
  rcases Nat.le_total self.state.length self.log.commitIndex with hle | hle
  · have hlen := hs.commit_le
    obtain ⟨t, ht⟩ := List.prefix_of_prefix_length_le hs.state_initial
      (List.take_prefix self.log.commitIndex self.log.entries)
      (by simp only [List.length_take]; omega)
    rw [← ht, List.drop_left, ht]
    exact ⟨List.take_prefix _ _, hs.committed⟩
  · rw [List.drop_of_length_le (by simp only [List.length_take]; omega), List.append_nil]
    exact ⟨hs.state_initial, hs.applied⟩

end Basic

section Rules
variable {cfg : Config} {i : NodeID} {X : Prop} {α : Type} {g : Point cfg i}

theorem runs_emit {e : Event} {k : History} (hm : History.Moves cfg.memberSet i g.hist k)
    (hs : Stored k i (g.disk.record e).log (g.disk.record e).state) (ho : Occurs cfg i k e)
    (hsh : Shown i (some e) g.hist k) :
    Runs cfg i X (emit e) (fun _ g' => g'.hist = k ∧ g'.disk = g.disk.record e) g :=
  wp_emit (k := ⟨k, g.disk.record e, History.Moves.inv g.inv hm, hs⟩) ⟨rfl, hm, ho, hsh⟩ ⟨rfl, rfl⟩

/-- An event that says something true and changes nothing. -/
theorem runs_note {e : Event} (he : g.disk.record e = g.disk) (ho : Occurs cfg i g.hist e) :
    Runs cfg i X (emit e) (fun _ g' => g' = g) g :=
  wp_emit (k := g) ⟨he.symm, .refl, ho, Shown.refl i _ _⟩ rfl

/-- A mark of progress, which the history keeps. -/
theorem runs_mark {e : Event} (he : g.disk.record e = g.disk)
    (ho : Occurs cfg i (g.hist.mark i e) e) :
    Runs cfg i X (emit e) (fun _ g' => g'.hist = g.hist.mark i e ∧ g'.disk = g.disk) g := by
  have hmark : Shown i (some e) g.hist (g.hist.mark i e) := {
    Shown.refl i (some e) g.hist with
    marked := by
      rintro n x (hx | ⟨rfl, rfl⟩)
      · exact Or.inl hx
      · exact Or.inr ⟨rfl, rfl⟩ }
  have hs : Stored (g.hist.mark i e) i g.disk.log g.disk.state := { g.stored with }
  exact he ▸ runs_emit (.single (.mark e)) (he.symm ▸ hs) ho hmark

theorem runs_silent {x : Action α} {Q : α → Point cfg i → Prop} {h' : History}
    (hm : History.Moves cfg.memberSet i g.hist h') (hs : Stored h' i g.disk.log g.disk.state)
    (hsh : Shown i none g.hist h')
    (hx : ∀ g' : Point cfg i, g'.hist = h' → g'.disk = g.disk → Runs cfg i X x Q g') :
    Runs cfg i X x Q g :=
  wp_silent (k := ⟨h', g.disk, History.Moves.inv g.inv hm, hs⟩) ⟨rfl, hm, hsh⟩ (hx _ rfl rfl)

theorem runs_assert {p : Prop} [Decidable p] {m : String} (hp : p) :
    Runs cfg i X (assert p m) (fun _ g' => g' = g) g :=
  wp_ensure hp rfl

theorem runs_pure {a : α} {Q : α → Point cfg i → Prop} (h : Q a g) : Runs cfg i X (pure a) Q g :=
  wp_pure h

theorem runs_panic {m : String} {Q : α → Point cfg i → Prop} (h : X) :
    Runs cfg i X (panic m) Q g :=
  wp_fail h

/-- A call that leaves the point as it is. -/
theorem runs_seq {β : Type} {x : Action α} {f : α → Action β} {Q : β → Point cfg i → Prop}
    (hx : Runs cfg i X x (fun _ g' => g' = g) g) (hf : ∀ a, Runs cfg i X (f a) Q g) :
    Runs cfg i X (x >>= f) Q g :=
  wp_bind (wp_mono hx (fun a _ h => h ▸ hf a) (fun _ _ h => h))

/-- A call that leaves the point as it is, with what it returns. -/
theorem runs_value {β : Type} {x : Action α} {f : α → Action β} {P : α → Prop}
    {Q : β → Point cfg i → Prop} (hx : Runs cfg i X x (fun a g' => g' = g ∧ P a) g)
    (hf : ∀ a, P a → Runs cfg i X (f a) Q g) : Runs cfg i X (x >>= f) Q g :=
  wp_bind (wp_mono hx (fun a _ h => h.1 ▸ hf a h.2) (fun _ _ h => h))

/-- An assertion that holds. -/
theorem runs_assert_bind {β : Type} {p : Prop} [Decidable p] {m : String} {f : Unit → Action β}
    {Q : β → Point cfg i → Prop} (hp : p) (hf : Runs cfg i X (f ()) Q g) :
    Runs cfg i X (assert p m >>= f) Q g :=
  runs_seq (runs_assert hp) fun _ => hf

/-- An assertion that may fail for the reason `X`. -/
theorem runs_assert_or {β : Type} {p : Prop} [Decidable p] {m : String} {f : Unit → Action β}
    {Q : β → Point cfg i → Prop} (hX : ¬ p → X) (hf : p → Runs cfg i X (f ()) Q g) :
    Runs cfg i X (assert p m >>= f) Q g := by
  by_cases hp : p
  · exact runs_assert_bind hp (hf hp)
  · refine wp_bind ?_
    rw [assert, Program.ensure, if_neg hp]
    exact wp_fail (hX hp)

theorem runs_ite {p : Prop} [Decidable p] {x y : Action α} {Q : α → Point cfg i → Prop}
    (hx : p → Runs cfg i X x Q g) (hy : ¬ p → Runs cfg i X y Q g) :
    Runs cfg i X (if p then x else y) Q g := by
  split_ifs with hp
  · exact hx hp
  · exact hy hp

/-- A loop of calls that leave the point as it is. -/
theorem runs_forM {β : Type} {f : β → Action Unit} {l : List β}
    (hf : ∀ b ∈ l, Runs cfg i X (f b) (fun _ g' => g' = g) g) :
    Runs cfg i X (l.forM f) (fun _ g' => g' = g) g := by
  induction l with
  | nil => exact runs_pure rfl
  | cons b l ih =>
      change Runs cfg i X (f b >>= fun _ => l.forM f) _ g
      exact runs_seq (hf b List.mem_cons_self)
        fun _ => ih fun c hc => hf c (List.mem_cons_of_mem b hc)

end Rules

/-! ## Messages -/

section Messages
variable {cfg : Config} {i : NodeID} {X : Prop} {R : Type} {self : RawNode R} {g : Point cfg i}

theorem runs_send (hm : Member cfg i self) {t : NodeID} {m : Message} (ht : t ∈ cfg.members)
    (hmeans : Means cfg g.hist i self.log.term t m)
    (hself : t = i → ∃ id response, m = .clientResponse id response) :
    Runs cfg i X (self.send t m) (fun _ g' => g' = g) g :=
  runs_note rfl ⟨hm.id, ⟨hm.id ▸ hm.member, ht, hm.id.symm ▸ hmeans⟩, hself⟩

/-- Answering the node's own client. -/
theorem runs_answer (hm : Member cfg i self) {t : NodeID} (ht : t = i) {id : RequestID}
    {response : Except Error Response} (ha : Answers cfg g.hist i id response) :
    Runs cfg i X (self.send t (.clientResponse id response)) (fun _ g' => g' = g) g := by
  subst ht
  exact runs_send hm hm.member ⟨ha, fun h => absurd rfl h⟩ fun _ => ⟨_, _, rfl⟩

theorem runs_broadcast (hm : Member cfg i self) {m : Message}
    (hmeans : ∀ t ∈ self.peers, Means cfg g.hist i self.log.term t m) :
    Runs cfg i X (self.broadcast m) (fun _ g' => g' = g) g :=
  runs_forM fun t ht => by
    have hp := hm.mem_peers.mp ht
    exact runs_send hm hp.1 (hmeans t ht) fun h => absurd h hp.2

end Messages

/-! ## Terms and votes -/

section Terms
variable {cfg : Config} {i : NodeID} {X : Prop} {R : Type} {self : RawNode R} {g : Point cfg i}

/-- The core of a history after a change of one node. -/
def History.withCore (h : History) (i : NodeID) (x : Local NodeID Entry) : History :=
  { h with core := Function.update h.core i x }

@[simp] theorem History.withCore_core_self (h : History) (i : NodeID) (x : Local NodeID Entry) :
    (h.withCore i x).core i = x := by simp [withCore]

@[simp] theorem History.withCore_follows (h : History) (i : NodeID) (x : Local NodeID Entry) :
    (h.withCore i x).follows = h.follows := rfl

@[simp] theorem History.withCore_reads (h : History) (i : NodeID) (x : Local NodeID Entry) :
    (h.withCore i x).reads = h.reads := rfl

@[simp] theorem History.withCore_marked (h : History) (i : NodeID) (x : Local NodeID Entry) :
    (h.withCore i x).marked = h.marked := rfl

@[simp] theorem History.withCore_confirmed (h : History) (i : NodeID) (x : Local NodeID Entry) :
    (h.withCore i x).confirmed = h.confirmed := rfl

/-- One step of the core is a move of the history. -/
theorem History.Moves.core {members : Finset NodeID} {i : NodeID} {h : History}
    {x : Local NodeID Entry} (hs : Step members i h.core (Function.update h.core i x))
    (hidx : Indexed x.log) (hacc : Accounted h x.log) :
    History.Moves members i h (h.withCore i x) :=
  .single (.core _ hs (by simpa using hidx) (by simpa using hacc))

theorem Shown.withCore {i : NodeID} {es : Option Event} {h : History} {x : Local NodeID Entry}
    (hc : x.commitTo = (h.core i).commitTo)
    (hs : ∀ T, x.start T = (h.core i).start T ∨ es = some (.leading T)) :
    Shown i es h (h.withCore i x) :=
  ⟨fun T => Or.inl (by simp [hc]), fun _ => Or.inl rfl, rfl, fun T => by simpa using hs T,
    fun _ _ hm => Or.inl hm⟩

/-- The log in a term the node entered or voted in without changing its entries. -/
theorem Stored.enter {h : History} {log : Log} {state : List Entry} (hs : Stored h i log state)
    {x : Local NodeID Entry} (hg : History.Grows h (h.withCore i x)) (hlog : x.log = (h.core i).log)
    (hle : log.term ≤ x.term) :
    Stored (h.withCore i x) i { log with term := x.term, vote := x.voted x.term } state where
  term := by simp
  entries := by simpa [hlog] using hs.entries
  vote := by simp
  commit_le := hs.commit_le
  commit_term := hs.commit_term
  committed := hs.committed.grows hg.core hle
  state_initial := hs.state_initial
  applied := hs.applied.grows hg.core hle

/-- Writing a new term or vote to the disk. -/
theorem runs_logged_enter (hr : RunsAt self g) {x : Local NodeID Entry}
    (hm : Step cfg.memberSet i g.hist.core (Function.update g.hist.core i x))
    (hlog : x.log = (g.hist.core i).log) (hcommit : x.commitTo = (g.hist.core i).commitTo)
    (hstart : x.start = (g.hist.core i).start) {l : Log} (hl : l = { self.log with term := x.term, vote := x.voted x.term })
    (hle : self.log.term ≤ x.term) :
    Runs cfg i X (do emit (.logged l); return l) (fun l' g' => l' = l ∧
      g'.hist = g.hist.withCore i x ∧ g'.disk = ⟨l, self.state⟩) g := by
  have hs := hr.stored
  have hmoves := History.Moves.core hm (hlog ▸ hs.entries ▸ hr.indexed)
    (hlog ▸ hs.entries ▸ hr.accounted)
  have hst := hs.enter (hmoves.grows g.inv) hlog hle
  subst hl
  have hdisk : g.disk.record (.logged { self.log with term := x.term, vote := x.voted x.term }) =
      ⟨{ self.log with term := x.term, vote := x.voted x.term }, self.state⟩ := by
    rw [hr.disk]
    rfl
  refine Runs.bind (runs_emit hmoves (hdisk ▸ hst) ⟨hst.committed, hst.commit_le, hst.entries⟩
    (Shown.withCore hcommit fun T => .inl (congrFun hstart T))) fun _ g' _ hg' => runs_pure ⟨rfl, hg'.1, hg'.2.trans hdisk⟩

theorem runs_setTermVote_later (hr : RunsAt self g) {T : ℕ} (hT : self.log.term < T) :
    Runs cfg i X (self.log.setTermVote T none) (fun l g' =>
      l = { self.log with term := T, vote := none } ∧
      g'.hist = g.hist.withCore i { g.hist.core i with term := T } ∧
      g'.disk = ⟨l, self.state⟩) g := by
  have hterm : (g.hist.core i).term = self.log.term := hr.stored.term
  have hfresh : (g.hist.core i).voted T = none := by
    by_contra hv
    obtain ⟨c, hc⟩ := Option.ne_none_iff_exists'.mp hv
    have := (g.inv.core.voted_le hc).2
    omega
  unfold Log.setTermVote
  refine runs_assert_bind (by omega) (runs_assert_bind (by omega) (runs_assert_bind (by omega) ?_))
  rw [if_neg (by omega)]
  exact wp_mono (runs_logged_enter hr (x := { g.hist.core i with term := T })
    (.advance T (by omega)) rfl rfl rfl (by rw [hfresh]) hT.le)
    (fun l g' h => ⟨h.1, h.2.1, h.1 ▸ h.2.2⟩) (fun _ _ h => h)

/-- The history of a node that starts campaigning for the next term. -/
def campaigning (x : Local NodeID Entry) (i : NodeID) : Local NodeID Entry :=
  { x with
    term := x.term + 1
    voted := Function.update x.voted (x.term + 1) (some i)
    voteLog := Function.update x.voteLog (x.term + 1) x.log }

theorem runs_setTermVote_campaign (hr : RunsAt self g) :
    Runs cfg i X (self.log.setTermVote (self.log.term + 1) (some i)) (fun l g' =>
      l = { self.log with term := self.log.term + 1, vote := some i } ∧
      g'.hist = g.hist.withCore i (campaigning (g.hist.core i) i) ∧
      g'.disk = ⟨l, self.state⟩) g := by
  have hterm : (g.hist.core i).term = self.log.term := hr.stored.term
  unfold Log.setTermVote
  refine runs_assert_bind (by omega) (runs_assert_bind (by omega) (runs_assert_bind (by omega) ?_))
  rw [if_neg (by omega)]
  exact wp_mono (runs_logged_enter hr (x := campaigning (g.hist.core i) i)
    (.campaign _ (Nat.lt_succ_self _)) rfl rfl rfl (by simp [campaigning, hterm])
    (by simp [campaigning, hterm]))
    (fun l g' h => ⟨h.1, h.2.1, h.1 ▸ h.2.2⟩) (fun _ _ h => h)

/-- The history of a node that votes in its term. -/
def voting (x : Local NodeID Entry) (c : NodeID) : Local NodeID Entry :=
  { x with
    voted := Function.update x.voted x.term (some c)
    voteLog := Function.update x.voteLog x.term x.log }

/-- Voting for a candidate that is at least as up to date, for the first time or
again. -/
theorem runs_setTermVote_vote (hr : RunsAt self g) {c : NodeID} (hT : 0 < self.log.term)
    (hvote : self.log.vote = none ∨ self.log.vote = some c)
    (hc : (g.hist.core c).voted self.log.term = some c)
    (hu : UpToDate ((g.hist.core c).voteLog self.log.term) self.log.entries) :
    Runs cfg i X (self.log.setTermVote self.log.term (some c)) (fun l g' =>
      l = { self.log with vote := some c } ∧
      (g'.hist = g.hist ∨ g'.hist = g.hist.withCore i (voting (g.hist.core i) c)) ∧
      (g'.hist.core i).voted self.log.term = some c ∧
      g'.disk = ⟨l, self.state⟩) g := by
  have hs := hr.stored
  have hterm : (g.hist.core i).term = self.log.term := hs.term
  have hlog : (g.hist.core i).log = self.log.entries := hs.entries
  have hvoted : (g.hist.core i).voted self.log.term = self.log.vote := hs.vote
  unfold Log.setTermVote
  refine runs_assert_bind hT (runs_assert_bind le_rfl (runs_assert_bind ?_ ?_))
  · rcases hvote with hv | hv
    · exact Or.inr (Or.inl hv)
    · exact Or.inr (Or.inr hv.symm)
  split_ifs with hsame
  · refine runs_pure ⟨by rw [hsame.2], Or.inl rfl, by rw [hvoted, hsame.2], hr.disk⟩
  · have hnone : self.log.vote = none := by
      rcases hvote with hv | hv
      · exact hv
      · exact absurd ⟨rfl, hv.symm⟩ hsame
    refine wp_mono (runs_logged_enter hr (x := voting (g.hist.core i) c)
      (.vote c (by rw [hterm, hvoted, hnone]) (by rw [hterm, hc]) (by rw [hterm, hlog]; exact hu))
      rfl rfl rfl (by simp [voting, hterm]) (by simp [voting, hterm])) (fun l g' h => ?_)
      (fun _ _ h => h)
    refine ⟨h.1, Or.inr h.2.1, ?_, h.1 ▸ h.2.2⟩
    rw [h.2.1]
    simp [voting, hterm]

end Terms

/-! ## Entries -/

section Entries
variable {cfg : Config} {i : NodeID} {X : Prop} {R : Type} {self : RawNode R} {g : Point cfg i}

/-- The log after a rewrite that keeps the committed and the applied entries. -/
theorem Stored.rewrite {h : History} {log : Log} {state : List Entry} (hs : Stored h i log state)
    {x : Local NodeID Entry} (hg : History.Grows h (h.withCore i x))
    (hterm : x.term = (h.core i).term) (hvoted : x.voted = (h.core i).voted)
    (hc : log.entries.take log.commitIndex <+: x.log) (hst : state <+: x.log) :
    Stored (h.withCore i x) i { log with entries := x.log } state := by
  have hlen : (log.entries.take log.commitIndex).length = log.commitIndex := by
    have := hs.commit_le
    simp only [List.length_take]
    omega
  have htake : x.log.take log.commitIndex = log.entries.take log.commitIndex := by
    have := List.prefix_iff_eq_take.mp hc
    rw [hlen] at this
    exact this.symm
  exact {
    term := by simpa [hterm] using hs.term
    entries := by simp
    vote := by simpa [hvoted] using hs.vote
    commit_le := hlen ▸ hc.length_le
    commit_term := by rw [htake]; exact hs.commit_term
    committed := by rw [htake]; exact hs.committed.grows hg.core le_rfl
    state_initial := hst
    applied := hs.applied.grows hg.core le_rfl }

/-- Writing entries to the disk. -/
theorem runs_logged_entries (hr : RunsAt self g) {x : Local NodeID Entry}
    (hm : Step cfg.memberSet i g.hist.core (Function.update g.hist.core i x))
    (hidx : Indexed x.log) (hacc : Accounted g.hist x.log) (hterm : x.term = (g.hist.core i).term)
    (hvoted : x.voted = (g.hist.core i).voted) (hcommit : x.commitTo = (g.hist.core i).commitTo)
    (hstart : x.start = (g.hist.core i).start) (hc : self.log.entries.take self.log.commitIndex <+: x.log)
    (hst : self.state <+: x.log) :
    Runs cfg i X (emit (.logged { self.log with entries := x.log })) (fun _ g' =>
      g'.hist = g.hist.withCore i x ∧
      g'.disk = ⟨{ self.log with entries := x.log }, self.state⟩) g := by
  have hmoves := History.Moves.core hm hidx hacc
  have hst := hr.stored.rewrite (hmoves.grows g.inv) hterm hvoted hc hst
  have hdisk : g.disk.record (.logged { self.log with entries := x.log }) =
      ⟨{ self.log with entries := x.log }, self.state⟩ := by
    rw [hr.disk]
    rfl
  refine wp_mono (runs_emit hmoves (hdisk ▸ hst) ⟨hst.committed, hst.commit_le, hst.entries⟩
    (Shown.withCore hcommit fun T => .inl (congrFun hstart T))) (fun _ g' h => ⟨h.1, h.2.trans hdisk⟩) (fun _ _ h => h)

/-- The history of a leader that appends an entry. -/
def appending (x : Local NodeID Entry) (e : Entry) : Local NodeID Entry :=
  { x with
    log := x.log ++ [e]
    full := Function.update x.full x.term (x.log ++ [e]) }

/-- A leader that marked the command appends it. -/
theorem runs_append (hr : RunsAt self g) (hl : Led g.hist.core i self.log.term)
    (command : Option Bytes)
    (hacc : Accounted g.hist [⟨self.log.entries.length + 1, self.log.term, command⟩]) :
    let e : Entry := ⟨self.log.entries.length + 1, self.log.term, command⟩
    Runs cfg i X (self.log.append command) (fun a g' =>
      a = ({ self.log with entries := self.log.entries ++ [e] }, self.log.entries.length + 1) ∧
      g'.hist = g.hist.withCore i (appending (g.hist.core i) e) ∧
      g'.disk = ⟨a.1, self.state⟩) g := by
  intro e
  have hs := hr.stored
  have hpos := (g.inv.core.led_le hl).1
  have hx : (appending (g.hist.core i) e).log = self.log.entries ++ [e] := by
    simp [appending, hs.entries]
  have hw := runs_logged_entries (X := X) hr (x := appending (g.hist.core i) e)
    (.append e (by rwa [hs.term]) (by simp [e, hs.term])) (hx ▸ hr.indexed.concat rfl)
    (hx ▸ hr.accounted.append hacc) rfl rfl rfl rfl
    (hx ▸ (List.take_prefix _ _).trans (List.prefix_append _ _))
    (hx ▸ hs.state_initial.trans (List.prefix_append _ _))
  rw [hx] at hw
  unfold Log.append
  refine runs_assert_bind hpos ?_
  rw [Log.getLastIndex_eq hr.indexed]
  exact Runs.bind hw fun _ g' _ hg' => runs_pure ⟨rfl, hg'⟩

/-- Committing entries that are chosen in the history `h'` the node moves to. -/
theorem runs_commit (hr : RunsAt self g) {k : ℕ} (hlt : self.log.commitIndex < k)
    (hk : k ≤ self.log.entries.length) {h' : History}
    (hm : History.Moves cfg.memberSet i g.hist h')
    (hterm : (h'.core i).term = (g.hist.core i).term)
    (hlog : (h'.core i).log = (g.hist.core i).log)
    (hvoted : (h'.core i).voted = (g.hist.core i).voted)
    (hc : Chosen h'.core self.log.term (self.log.entries.take k))
    (hsh : ∀ l : Log, l.term = self.log.term → l.commitIndex = k →
      l.entries = self.log.entries → Shown i (some (.logged l)) g.hist h') :
    let l : Log := { self.log with
      commitIndex := k, commitTerm := lastTerm (self.log.entries.take k) }
    Runs cfg i X (self.log.commit k) (fun l' g' => l' = l ∧ g'.hist = h' ∧
      g'.disk = ⟨l, self.state⟩) g := by
  intro l
  have hs := hr.stored
  obtain ⟨k, rfl⟩ : ∃ j, k = j + 1 := ⟨k - 1, by omega⟩
  obtain ⟨e, he⟩ : ∃ e, self.log.entries[k]? = some e :=
    ⟨_, List.getElem?_eq_getElem (by omega)⟩
  have hidx := hr.indexed k e he
  have hl : l = { self.log with commitIndex := k + 1, commitTerm := e.term } := by
    simp only [l, lastTerm_take he]
  have hst : Stored h' i l self.state := {
    term := hterm.trans hs.term
    entries := hlog.trans hs.entries
    vote := (congrFun hvoted _).trans hs.vote
    commit_le := hk
    commit_term := rfl
    committed := hc
    state_initial := hs.state_initial
    applied := hs.applied.grows (hm.grows g.inv).core le_rfl }
  have hdisk : g.disk.record (.logged l) = ⟨l, self.state⟩ := by
    rw [hr.disk]
    rfl
  unfold Log.commit
  simp only [Log.get, he, hidx]
  rw [if_neg (by omega), if_neg (by omega), ← hl]
  exact Runs.bind (runs_emit hm (hdisk ▸ hst) ⟨hc, hk, hst.entries⟩ (hsh l rfl rfl rfl))
    fun _ g' _ hg' => runs_pure ⟨rfl, hg'.1, hg'.2.trans hdisk⟩

theorem runs_applyEntry {log : Log} {state : List Entry} {e : Entry} (hd : g.disk = ⟨log, state⟩)
    (hp : state ++ [e] <+: log.entries) (hc : Chosen g.hist.core log.term (state ++ [e])) :
    Runs cfg i X (applyEntry cfg.sm state e) (fun a g' =>
      a = (state ++ [e], cfg.sm.result state e) ∧ g'.hist = g.hist ∧
      g'.disk = ⟨log, state ++ [e]⟩) g := by
  have hs : Stored g.hist i log state := by
    have := g.stored
    rwa [hd] at this
  have hdisk : g.disk.record (.applied e (cfg.sm.result state e)) = ⟨log, state ++ [e]⟩ := by
    rw [hd]
    rfl
  have hidx : Indexed log.entries := hs.entries ▸ g.inv.log_indexed i
  have he : e.index = state.length + 1 := (hidx.of_initial hp).index_append (j := 0) rfl
  unfold applyEntry
  refine Runs.bind (runs_emit (k := g.hist) .refl ?_ ⟨_, state, hc, he, rfl⟩ (Shown.refl i _ _))
    fun _ g' _ hg' => runs_pure ⟨rfl, hg'.1, hg'.2.trans hdisk⟩
  rw [hdisk]
  exact { hs with state_initial := hp, applied := hc }

/-- Applying what is committed changes the state only. -/
theorem runs_maybeApply (hr : RunsAt self g) :
    Runs cfg i X (self.maybeApply cfg.sm) (fun self' g' =>
      (∃ state, self' = { self with state := state }) ∧ g'.hist = g.hist ∧ RunsAt self' g') g := by
  unfold RawNode.maybeApply
  obtain ⟨hp, hc⟩ := hr.ready
  refine Runs.bind (Q := fun state g' => g'.hist = g.hist ∧ g'.disk = ⟨self.log, state⟩)
    (wp_mono (wp_foldlM (I := fun rest state g' => g'.hist = g.hist ∧
      g'.disk = ⟨self.log, state⟩ ∧ state ++ rest <+: self.log.entries ∧
      Chosen g.hist.core self.log.term (state ++ rest)) ?_ ⟨rfl, hr.disk, hp, hc⟩)
      (fun state g' h => ⟨h.1, h.2.1⟩) (fun _ _ h => h)) fun state g' _ hg' => runs_pure ?_
  · rintro e rest state g' ⟨hh, hd, hp, hc⟩
    have happ : state ++ e :: rest = (state ++ [e]) ++ rest := by simp
    rw [happ] at hp hc
    have hp' : state ++ [e] <+: self.log.entries := (List.prefix_append _ _).trans hp
    refine Runs.bind (runs_applyEntry hd hp' (hh ▸ hc.initial (List.prefix_append _ _)))
      fun a g'' _ ha => runs_pure ?_
    obtain ⟨rfl, hh', hd'⟩ := ha
    exact ⟨hh'.trans hh, hd', hp, hc⟩
  · exact ⟨⟨state, rfl⟩, hg'.1, { hr with disk := hg'.2 }⟩

end Entries

/-! ## Silent additions -/

section Silent
variable {cfg : Config} {i : NodeID} {X : Prop} {R α : Type} {self : RawNode R} {g : Point cfg i}
  {x : Action α} {Q : α → Point cfg i → Prop}

/-- What a silent addition leaves as it is. -/
structure Kept (i : NodeID) (h h' : History) : Prop where
  term : (h'.core i).term = (h.core i).term
  log : (h'.core i).log = (h.core i).log
  voted : (h'.core i).voted = (h.core i).voted
  start : (h'.core i).start = (h.core i).start
  full : (h'.core i).full = (h.core i).full
  commitTo : (h'.core i).commitTo = (h.core i).commitTo
  reads : h'.reads = h.reads
  requests : h'.requests = h.requests
  marked : h'.marked = h.marked

theorem Kept.stored {h h' : History} (hk : Kept i h h') (hg : History.Grows h h') {log : Log}
    {state : List Entry} (hs : Stored h i log state) : Stored h' i log state where
  term := hk.term.trans hs.term
  entries := hk.log.trans hs.entries
  vote := (congrFun hk.voted _).trans hs.vote
  commit_le := hs.commit_le
  commit_term := hs.commit_term
  committed := hs.committed.grows hg.core le_rfl
  state_initial := hs.state_initial
  applied := hs.applied.grows hg.core le_rfl

theorem runs_move {h' : History} (hm : History.Move cfg.memberSet i g.hist h')
    (hk : Kept i g.hist h')
    (hx : ∀ g' : Point cfg i, g'.hist = h' → g'.disk = g.disk → History.Grows g.hist h' →
      Runs cfg i X x Q g') :
    Runs cfg i X x Q g := by
  have hg := hm.grows g.inv
  exact runs_silent (.single hm) (hk.stored hg g.stored)
    ⟨fun T => Or.inl (by rw [hk.commitTo]), fun T => Or.inl (by rw [hk.reads]), hk.requests,
      fun T => Or.inl (by rw [hk.start]), fun _ _ hm => Or.inl (hk.marked ▸ hm)⟩
    fun g' hh hd => hx g' hh hd hg

/-- Acknowledging a prefix of the leader's log. -/
theorem runs_ack (hr : RunsAt self g) {n : NodeID} {k : ℕ} (hn : Led g.hist.core n self.log.term)
    (hk : k ≤ ((g.hist.core n).full self.log.term).length)
    (hp : ((g.hist.core n).full self.log.term).take k <+: self.log.entries)
    (hx : ∀ g' : Point cfg i, History.Grows g.hist g'.hist → Kept i g.hist g'.hist →
      g'.hist.follows = g.hist.follows → g'.hist.confirmed = g.hist.confirmed →
      g'.disk = g.disk → k ≤ (g'.hist.core i).acked self.log.term → Runs cfg i X x Q g') :
    Runs cfg i X x Q g := by
  have hterm : (g.hist.core i).term = self.log.term := hr.stored.term
  rw [← hterm] at hn hk hp
  rw [← hr.stored.entries] at hp
  refine runs_move (.core _ (.ack n k hn hk hp) ?_ ?_) ?_ fun g' hh hd hg => ?_
  · simpa using hr.stored.entries ▸ hr.indexed
  · simpa using hr.stored.entries ▸ hr.accounted
  · constructor <;> simp
  · rw [← hh] at hg
    refine hx g' hg ?_ ?_ ?_ hd ?_
    all_goals rw [hh]
    · constructor <;> simp
    · simp [hterm]

/-- Confirming a read sequence number to the leader. -/
theorem runs_confirm (hr : RunsAt self g) {m : NodeID} {seq : ℕ}
    (hm : Led g.hist.core m self.log.term) (hle : seq ≤ (g.hist.reads m self.log.term).length)
    (hx : ∀ g' : Point cfg i, History.Grows g.hist g'.hist → Kept i g.hist g'.hist →
      g'.hist.follows = g.hist.follows → g'.hist.core = g.hist.core → g'.disk = g.disk →
      seq ≤ g'.hist.confirmed i self.log.term → Runs cfg i X x Q g') :
    Runs cfg i X x Q g := by
  have hterm : (g.hist.core i).term = self.log.term := hr.stored.term
  rw [← hterm] at hm hle
  refine runs_move (.confirm m seq hm hle) ?_ fun g' hh hd hg => ?_
  · constructor <;> rfl
  · rw [← hh] at hg
    refine hx g' hg ?_ ?_ ?_ hd ?_
    all_goals rw [hh]
    · constructor <;> rfl
    · simp [hterm]

/-- Following the leader of the term. -/
theorem runs_follow (hr : RunsAt self g) {m : NodeID} (hm : Led g.hist.core m self.log.term)
    (hne : m ≠ i)
    (hx : ∀ g' : Point cfg i, History.Grows g.hist g'.hist → Kept i g.hist g'.hist →
      g'.hist.core = g.hist.core → g'.disk = g.disk →
      g'.hist.follows i self.log.term = true → Runs cfg i X x Q g') :
    Runs cfg i X x Q g := by
  have hterm : (g.hist.core i).term = self.log.term := hr.stored.term
  rw [← hterm] at hm
  refine runs_move (.follow m hm hne) ?_ fun g' hh hd hg => ?_
  · constructor <;> rfl
  · rw [← hh] at hg
    refine hx g' hg ?_ ?_ hd ?_
    all_goals rw [hh]
    · constructor <;> rfl
    · simp [hterm]

end Silent
end ToyDB.Raft
