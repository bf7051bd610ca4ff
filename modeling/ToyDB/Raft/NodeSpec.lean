import ToyDB.Raft.CommitSpec

/-!
# The node keeps its invariant

The remaining transitions and steps of a leader and a candidate, and from them the
public interface: starting, stepping and ticking a node. A step can only fail on a
message for the role the node had before a restart, or when nothing may be
appended at all.
-/
namespace ToyDB.Raft
open ToyDB.Consensus ToyDB.Effects ToyDB.Collections

section Leader
variable {cfg : Config} {i : NodeID} {X : Prop} {startTerm : ℕ} {self : RawNode Leader}
  {g : Point cfg i}

theorem runs_leaderIntoFollower (hl : LeaderAt self g) {T : ℕ} (hT : self.log.term < T) :
    Runs cfg i X (self.leaderIntoFollower T) (fun self' g' =>
      FollowerAt 0 self' g' ∧ self'.log.term = T) g := by
  have hterm : (g.hist.core i).term = self.log.term := hl.stored.term
  unfold RawNode.leaderIntoFollower
  refine runs_assert_bind hT (runs_seq (runs_forM fun w hw => ?_) fun _ =>
    runs_seq (runs_forM fun r hr => ?_) fun _ => ?_)
  · obtain ⟨k, hk⟩ := OrderedMap.mem_values ((List.mem_insertionSort _).mp hw)
    exact runs_respond hl (hl.role.writes hk).client trivial
  · exact runs_respond hl (hl.role.reads r ((List.mem_insertionSort _).mp hr)).client trivial
  refine Runs.bind (runs_setTermVote_later hl.toRunsAt hT) ?_
  rintro l g' _ ⟨rfl, hh, hd⟩
  refine runs_seq runs_randomElectionTimeout fun t => ?_
  refine runs_pure ⟨⟨⟨hl.toMember.with_role rfl rfl rfl, hd⟩, ?_⟩, rfl⟩
  rw [hh]
  exact .fresh g.inv (hterm.trans_lt hT) rfl rfl rfl

/-- What a response leaves of a leader: the entries and the term. -/
def Leads (self : RawNode Leader) (self' : RawNode Leader) (g' : Point cfg i) : Prop :=
  LeaderAt self' g' ∧ self'.log.entries = self.log.entries ∧ self'.log.term = self.log.term ∧
    self'.peers = self.peers

theorem runs_advanceRead (hl : LeaderAt self g) {p : NodeID} (hp : p ∈ self.peers) {seq : ℕ}
    (hc : seq ≤ g.hist.confirmed p self.log.term) :
    Runs cfg i X (self.advanceRead cfg.sm p seq) (Leads self) g := by
  unfold RawNode.advanceRead
  refine runs_value (runs_progress hl hp) fun x hx => ?_
  have hl' := hl.setProgress hp (hx.advanceRead hc)
  refine runs_ite (fun _ => wp_mono (runs_maybeRead hl') ?_ (fun _ _ h => h))
    fun _ => runs_pure ⟨hl', rfl, rfl, rfl⟩
  rintro self' g' ⟨hl'', hlog, hpeers⟩
  exact ⟨hl'', by rw [hlog]; rfl, by rw [hlog]; rfl, hpeers⟩

theorem runs_advanceMatch (hl : LeaderAt self g) {p : NodeID} (hp : p ∈ self.peers) {m : ℕ}
    (hm : m ≤ self.log.entries.length) (ha : m ≤ (g.hist.core p).acked self.log.term) :
    Runs cfg i X (self.advanceMatch cfg.sm p m) (Leads self) g := by
  unfold RawNode.advanceMatch
  refine runs_value (runs_progress hl hp) fun x hx => ?_
  have hl' := hl.setProgress hp (hx.advance hm ha)
  exact runs_ite (fun _ => Runs.bind (runs_maybeCommitAndApply hl') fun a g' _ ha => runs_pure ha)
    fun _ => runs_pure ⟨hl', rfl, rfl, rfl⟩

/-- A node never acknowledges more than the leader has. -/
theorem LeaderAt.acked_le (hl : LeaderAt self g) {p : NodeID} {m : ℕ}
    (ha : m ≤ (g.hist.core p).acked self.log.term) : m ≤ self.log.entries.length := by
  rcases Nat.eq_zero_or_pos ((g.hist.core p).acked self.log.term) with h0 | h0
  · omega
  · obtain ⟨_, n, hn, hle⟩ := g.inv.core.acked_le h0
    obtain rfl := g.inv.core.unique_leader hn hl.role.led
    rw [hl.full_eq] at hle
    omega

theorem runs_stepHeartbeatResponse (hl : LeaderAt self g) {msg : Envelope}
    (hp : msg.sender ∈ self.peers) {matchIndex readSeq : ℕ}
    (hc : Confirms g.hist msg.sender i self.log.term readSeq)
    (ha : matchIndex ≤ (g.hist.core msg.sender).acked self.log.term) :
    Runs cfg i X (self.stepHeartbeatResponse cfg.sm msg matchIndex readSeq) (Leads self) g := by
  unfold RawNode.stepHeartbeatResponse
  rw [Log.getLastIndex_eq hl.indexed]
  refine runs_assert_bind (hl.acked_le ha) (runs_assert_bind (by rw [hl.role.seq]; exact hc.reads)
    (Runs.bind (runs_advanceRead hl hp hc.confirmed) ?_))
  rintro self₁ g₁ hg₁ ⟨hl₁, he₁, ht₁, hp₁⟩
  have ha₁ : matchIndex ≤ (g₁.hist.core msg.sender).acked self₁.log.term := by
    rw [ht₁]
    exact ha.trans ((hg₁.core _).acked _)
  refine runs_ite (fun _ => Runs.bind (Q := Leads self₁) ?_ ?_) fun _ => ?_
  · unfold RawNode.probeLast
    refine runs_value (runs_progress hl₁ (hp₁ ▸ hp)) fun x hx => ?_
    have hl₂ := hl₁.setProgress (hp₁ ▸ hp) (hx.regressNext self.log.entries.length)
    refine wp_mono (runs_maybeSendAppend hl₂ (hp₁ ▸ hp) true) ?_ (fun _ _ h => h)
    rintro self₃ g₃ ⟨rfl, hl₃, hlog, hpeers, _⟩
    exact ⟨hl₃, by rw [hlog]; rfl, by rw [hlog]; rfl, hpeers⟩
  · rintro self₂ g₂ hg₂ ⟨hl₂, he₂, ht₂, hp₂⟩
    have ha₂ : matchIndex ≤ (g₂.hist.core msg.sender).acked self₂.log.term := by
      rw [ht₂]
      exact ha₁.trans ((hg₂.core _).acked _)
    exact wp_mono (runs_advanceMatch hl₂ (hp₂.trans hp₁ ▸ hp) (hl₂.acked_le ha₂) ha₂)
      (fun self₃ g₃ h => ⟨h.1, h.2.1.trans (he₂.trans he₁), h.2.2.1.trans (ht₂.trans ht₁),
        h.2.2.2.trans (hp₂.trans hp₁)⟩) (fun _ _ h => h)
  · exact wp_mono (runs_advanceMatch hl₁ (hp₁ ▸ hp) (hl₁.acked_le ha₁) ha₁)
      (fun self₃ g₃ h => ⟨h.1, h.2.1.trans he₁, h.2.2.1.trans ht₁, h.2.2.2.trans hp₁⟩)
      (fun _ _ h => h)

theorem runs_stepAppended (hl : LeaderAt self g) {msg : Envelope} (hp : msg.sender ∈ self.peers)
    {matchIndex : ℕ} (ha : matchIndex ≤ (g.hist.core msg.sender).acked self.log.term) :
    Runs cfg i X (self.stepAppended cfg.sm msg matchIndex) (Leads self) g := by
  unfold RawNode.stepAppended
  rw [Log.getLastIndex_eq hl.indexed]
  refine runs_assert_bind (hl.acked_le ha)
    (Runs.bind (runs_advanceMatch hl hp (hl.acked_le ha) ha) ?_)
  rintro self₁ g₁ _ ⟨hl₁, he₁, ht₁, hp₁⟩
  refine wp_mono (runs_maybeSendAppend hl₁ (hp₁ ▸ hp) false) ?_ (fun _ _ h => h)
  rintro self₂ g₂ ⟨rfl, hl₂, hlog, hpeers, _⟩
  exact ⟨hl₂, by rw [hlog, he₁], by rw [hlog, ht₁], hpeers.trans hp₁⟩

theorem runs_stepRejected (hl : LeaderAt self g) {msg : Envelope} (hp : msg.sender ∈ self.peers)
    {rejectIndex : ℕ} (hr : rejectIndex ≤ self.log.entries.length) :
    Runs cfg i X (self.stepRejected msg rejectIndex) (Leads self) g := by
  have hdone : Leads self self g := ⟨hl, rfl, rfl, rfl⟩
  unfold RawNode.stepRejected
  rw [Log.getLastIndex_eq hl.indexed]
  refine runs_assert_bind hr (runs_value (runs_progress hl hp) fun x hx => ?_)
  refine runs_ite (fun _ => runs_pure hdone) fun _ => ?_
  have hl₁ := hl.setProgress hp (hx.regressNext rejectIndex)
  refine runs_ite (fun _ => wp_mono (runs_maybeSendAppend hl₁ hp true) ?_ (fun _ _ h => h))
    fun _ => runs_pure ⟨hl₁, rfl, rfl, rfl⟩
  rintro self₂ g₂ ⟨rfl, hl₂, hlog, hpeers, _⟩
  exact ⟨hl₂, by rw [hlog]; rfl, by rw [hlog]; rfl, hpeers⟩

/-- The leader's log ends in an entry of its term. -/
def LeadsOwn (self : RawNode Leader) (g : Point cfg i) : Prop :=
  LeaderAt self g ∧ lastTerm self.log.entries = self.log.term

theorem Leads.own {self' : RawNode Leader} {g' : Point cfg i} (h : Leads self self' g')
    (hlast : lastTerm self.log.entries = self.log.term) : LeadsOwn self' g' :=
  ⟨h.1, by rw [h.2.1, h.2.2.1, hlast]⟩

theorem runs_stepWrite (hl : LeaderAt self g) {msg : Envelope} {id : RequestID} {command : Bytes}
    (hc : Client cfg g.hist i self.log.term msg.sender)
    (hreq : g.hist.requests msg.sender id (.write command)) :
    Runs cfg i X (self.stepRequest cfg.sm msg id (.write command)) LeadsOwn g := by
  unfold RawNode.stepRequest
  refine Runs.bind (runs_mark (by rw [hl.disk]; rfl) trivial) ?_
  rintro _ g₀ hg₀ ⟨hh, hd⟩
  have hl₀ := hl.marked hg₀ hh hd
  have hmark : g₀.hist.marked i (.proposed id (self.log.entries.length + 1) self.log.term) := by
    rw [hh, Log.getLastIndex_eq hl.indexed]
    exact Or.inr ⟨rfl, rfl⟩
  have hacc : Accounted g₀.hist
      [⟨self.log.entries.length + 1, self.log.term, some command⟩] := by
    rintro e he c hc
    obtain rfl := List.mem_singleton.mp he
    obtain rfl := Option.some.inj hc
    exact ⟨i, msg.sender, id, hmark, hg₀.requests hreq⟩
  refine Runs.bind (runs_propose hl₀ (some command) hacc) ?_
  rintro ⟨self₁, index⟩ g₁ hg₁ ⟨hl₁, hi₁, ht₁, he₁⟩
  simp only at hl₁ hi₁ ht₁ he₁ ⊢
  have hlast : lastTerm self₁.log.entries = self₁.log.term := by
    rw [he₁, ht₁]
    simp [lastTerm]
  have hentry : self₁.log.entries[index - 1]? =
      some ⟨index, self.log.term, some command⟩ := by
    rw [he₁, hi₁]
    simp
  have hw : WriteOf cfg g₁.hist i self₁.log.term self₁.log.entries index ⟨msg.sender, id⟩ :=
    ⟨ht₁ ▸ hc.grows (hg₀.trans hg₁), by omega, _, command, hentry, rfl,
      (hg₀.trans hg₁).requests hreq, hg₁.marked (hi₁ ▸ hmark)⟩
  have hl₂ := hl₁.with_role
    { self₁.role with writes := self₁.role.writes.insert index ⟨msg.sender, id⟩ } {
      hl₁.role with
      writes := fun {k w} hk => by
        rw [OrderedMap.get_insert] at hk
        split_ifs at hk with heq
        · obtain rfl := Option.some.inj hk
          exact heq ▸ hw
        · exact hl₁.role.writes hk }
  exact runs_ite (fun _ => Runs.bind (runs_maybeCommitAndApply hl₂) fun a g₂ _ ha =>
    runs_pure (Leads.own ha hlast)) fun _ => runs_pure ⟨hl₂, hlast⟩

theorem runs_stepReadRequest (hl : LeaderAt self g)
    (hlast : lastTerm self.log.entries = self.log.term) {msg : Envelope} {id : RequestID}
    {command : Bytes} (hc : Client cfg g.hist i self.log.term msg.sender)
    (hreq : g.hist.requests msg.sender id (.read command)) :
    Runs cfg i X (self.stepRequest cfg.sm msg id (.read command)) LeadsOwn g := by
  set read : Read := ⟨self.role.readSeq + 1, msg.sender, id, command⟩ with hread
  have hterm : (g.hist.core i).term = self.log.term := hl.stored.term
  have hseq := hl.role.seq
  set h' : History := { g.hist with
    reads := History.set g.hist.reads i self.log.term (g.hist.reads i self.log.term ++ [read]) }
    with hh'
  have hreads : h'.reads i self.log.term = g.hist.reads i self.log.term ++ [read] := by simp [hh']
  have hm : History.Moves cfg.memberSet i g.hist h' := by
    refine .single ?_
    have := @History.Move.request cfg.memberSet i g.hist read
    rw [hterm] at this
    exact this hl.role.led
  have hconf : ∀ v, h'.confirmed v self.log.term < self.role.readSeq + 1 := by
    intro v
    have : g.hist.confirmed v self.log.term ≤ (g.hist.reads i self.log.term).length := by
      rcases Nat.eq_zero_or_pos (g.hist.confirmed v self.log.term) with h0 | h0
      · omega
      · obtain ⟨_, m, hm, hle⟩ := g.inv.confirmed_le h0
        obtain rfl := g.inv.core.unique_leader hm hl.role.led
        exact hle
    rw [hseq]
    exact Nat.lt_succ_of_le this
  have hrec : g.disk.record (.readRequested self.log.term read) = g.disk := by
    rw [hl.disk]
    rfl
  have hshown : Shown i (some (.readRequested self.log.term read)) g.hist h' := by
    refine ⟨fun _ => Or.inl rfl, fun T => ?_, rfl, fun _ => Or.inl rfl, fun _ _ hm => Or.inl hm⟩
    by_cases hT : T = self.log.term
    · subst hT
      exact Or.inr ⟨read, rfl, by rw [hread, hseq], hreads⟩
    · exact Or.inl (by simp [hh', History.set, hT])
  unfold RawNode.stepRequest
  refine Runs.bind (runs_emit hm (hrec ▸ { g.stored with })
    ⟨hterm.symm, hl.role.led, hconf, hreq⟩ hshown) ?_
  rintro _ g₁ hg₁ ⟨hh, hd⟩
  have hd₁ : g₁.disk = g.disk := hd.trans hrec
  set node : RawNode Leader := { self with role := { self.role with
    readSeq := self.role.readSeq + 1, reads := self.role.reads ++ [read] } } with hnode
  have hreads₁ : g₁.hist.reads i self.log.term = g.hist.reads i self.log.term ++ [read] := by
    rw [hh, hreads]
  have hl₁ : LeaderAt node g₁ := by
    refine ⟨⟨hl.toMember.with_role rfl rfl rfl, hd₁.trans hl.disk⟩, ?_, by rw [hh]; exact hl.commit⟩
    exact {
      led := hg₁.core.led hl.role.led
      keys := hl.role.keys
      progress := fun hx => (hl.role.progress hx).grows hg₁ le_rfl
      seq := by
        change self.role.readSeq + 1 = (g₁.hist.reads i self.log.term).length
        rw [hreads₁, List.length_append, List.length_singleton, hseq]
      writes := fun hw => (hl.role.writes hw).grows hg₁ List.prefix_rfl
      reads := by
        intro r hr
        rcases List.mem_append.mp hr with hr | hr
        · exact (hl.role.reads r hr).grows hg₁
        · obtain rfl := List.mem_singleton.mp hr
          exact ⟨hc.grows hg₁, Nat.succ_pos _, by
            change (g₁.hist.reads i self.log.term)[self.role.readSeq]? = some read
            rw [hreads₁, hseq]
            simp⟩ }
  refine runs_seq (runs_broadcast hl₁.toMember fun p _ => ⟨hl₁.role.led, hl₁.role.seq.le⟩)
    fun _ => runs_ite (fun _ => wp_mono (runs_maybeRead hl₁) ?_ (fun _ _ h => h))
      fun _ => runs_pure ⟨hl₁, hlast⟩
  rintro self₂ g₂ ⟨hl₂, hlog, _⟩
  exact ⟨hl₂, by rw [hlog]; exact hlast⟩

/-- A message of the leader's own term. -/
theorem runs_stepLeaderMessage (hl : LeaderAt self g)
    (hlast : lastTerm self.log.entries = self.log.term) {msg : Envelope}
    (hT : msg.term = self.log.term) (hm : Inbound cfg g.hist i self.log.term msg)
    (hX : cfg.opts.maxAppendEntries = 0 → X) :
    Runs cfg i X (self.stepLeaderMessage cfg.sm msg) LeadsOwn g := by
  have hdone : LeadsOwn self g := ⟨hl, hlast⟩
  have hrequest : ∀ {id request}, Client cfg g.hist i self.log.term msg.sender →
      g.hist.requests msg.sender id request →
      Runs cfg i X (self.stepRequest cfg.sm msg id request) LeadsOwn g := by
    intro id request hc hreq
    cases request with
    | write command => exact runs_stepWrite hl hc hreq
    | read command => exact runs_stepReadRequest hl hlast hc hreq
    | status => exact runs_seq (runs_respond hl hc trivial) fun _ => runs_pure hdone
  unfold RawNode.stepLeaderMessage
  cases hm with
  | submitted id request hr he =>
      subst he
      exact hrequest ⟨hl.member, fun h => absurd rfl h⟩ hr
  | delivered hs ht hne =>
      have hmeans := hs.means
      rw [ht, hT] at hmeans
      have hp : msg.sender ∈ self.peers := hl.mem_peers.mpr ⟨hs.sender, hne⟩
      have hother : ¬ Led g.hist.core msg.sender self.log.term :=
        fun h => hne (g.inv.core.unique_leader h hl.role.led)
      cases hmsg : msg.message with
      | heartbeatResponse matchIndex readSeq =>
          rw [hmsg] at hmeans
          exact wp_mono (runs_stepHeartbeatResponse hl hp hmeans.1 hmeans.2)
            (fun _ _ h => h.own hlast) (fun _ _ h => h)
      | appendResponse matchIndex rejectIndex =>
          rw [hmsg] at hmeans
          refine runs_ite (fun h => ?_) fun h₁ => runs_ite (fun h => ?_) fun h₂ => ?_
          · exact wp_mono (runs_stepAppended hl hp hmeans.acked) (fun _ _ h => h.own hlast)
              (fun _ _ h => h)
          · exact wp_mono (runs_stepRejected hl hp (by rw [← hl.full_eq]; exact hmeans.reject))
              (fun _ _ h => h.own hlast) (fun _ _ h => h)
          · have hone := hmeans.one
            exact runs_panic (hX (hmeans.nonempty (by omega) (by omega)))
      | readResponse seq =>
          rw [hmsg] at hmeans
          exact wp_mono (runs_advanceRead hl hp hmeans.confirmed) (fun _ _ h => h.own hlast)
            (fun _ _ h => h)
      | clientRequest id request =>
          rw [hmsg] at hmeans
          exact hrequest ⟨hs.sender, fun _ => hmeans.2.1⟩ hmeans.2.2
      | campaign lastIndex lastTerm' =>
          exact runs_seq (runs_send hl.toMember hs.sender (fun h => absurd h (by simp))
            fun h => absurd h hne) fun _ => runs_pure hdone
      | campaignResponse vote => exact runs_pure hdone
      | heartbeat lastIndex commitIndex readSeq =>
          rw [hmsg] at hmeans
          exact absurd hmeans.led hother
      | append baseIndex baseTerm entries =>
          rw [hmsg] at hmeans
          exact absurd hmeans.led hother
      | read seq =>
          rw [hmsg] at hmeans
          exact absurd hmeans.1 hother
      | clientResponse id response =>
          rw [hmsg] at hmeans
          exact absurd (hmeans.2 hne).1 hother

theorem runs_stepLeader (hl : LeaderAt self g)
    (hlast : lastTerm self.log.entries = self.log.term) {msg : Envelope}
    (hm : Inbound cfg g.hist i self.log.term msg)
    (hX : msg.term = self.log.term → cfg.opts.maxAppendEntries = 0 → X) :
    Runs cfg i X (self.stepLeader cfg.sm msg) (fun node g' => NodeAt startTerm node g') g := by
  unfold RawNode.stepLeader
  refine runs_ite (fun _ => runs_pure ⟨hl, hlast⟩) fun hlt => runs_ite (fun hgt => ?_) fun hgt => ?_
  · refine Runs.bind (runs_leaderIntoFollower hl hgt) ?_
    rintro self₁ g₁ hg₁ ⟨hf₁, hT⟩
    exact runs_stepFollower_later hf₁ hT hgt (hm.grows hg₁)
  · have hT : msg.term = self.log.term := le_antisymm (not_lt.mp hgt) (not_lt.mp hlt)
    exact Runs.bind (runs_stepLeaderMessage hl hlast hT hm (hX hT)) fun self₁ g₁ _ h => runs_pure h

end Leader

/-! ## Elections -/

theorem Leader.new_get {peers : List NodeID} {last : ℕ} {p : NodeID} :
    (Leader.new peers last).progress.get p =
      if p ∈ peers then some ⟨0, last + 1, 0⟩ else none := by
  have hfold : ∀ m : OrderedMap NodeID Progress,
      (peers.foldl (fun m p => m.insert p ⟨0, last + 1, 0⟩) m).get p =
        if p ∈ peers then some ⟨0, last + 1, 0⟩ else m.get p := by
    induction peers with
    | nil => simp
    | cons q peers ih =>
        intro m
        rw [List.foldl_cons, ih, OrderedMap.get_insert]
        by_cases h₁ : p ∈ peers <;> by_cases h₂ : p = q <;> simp [h₁, h₂]
  rw [Leader.new, hfold, OrderedMap.get_empty]

section Candidate
variable {cfg : Config} {i : NodeID} {X : Prop} {startTerm : ℕ} {self : RawNode Candidate}
  {g : Point cfg i}

/-- The history of a node that becomes leader of its term. -/
def electing (x : Local NodeID Entry) : Local NodeID Entry :=
  { x with
    start := Function.update x.start x.term (some x.log)
    full := Function.update x.full x.term x.log }

/-- The votes of a majority make the candidate leader. -/
theorem runs_leading (hc : CandidateAt self g) (hq : self.quorumSize ≤ self.role.votes.length) :
    Runs cfg i X (emit (.leading self.log.term)) (fun _ g' =>
      LeaderAt (self.intoRole (Leader.new self.peers self.log.entries.length)) g') g := by
  have hs := hc.stored
  have hterm : (g.hist.core i).term = self.log.term := hs.term
  have hlog : (g.hist.core i).log = self.log.entries := hs.entries
  have hown : (g.hist.core i).voted self.log.term = some i := hs.vote.trans hc.role.vote
  have hQ : IsQuorum cfg.memberSet self.role.votes.toFinset := by
    refine ⟨fun v hv => (hc.role.votes v (List.mem_toFinset.mp hv)).1, ?_⟩
    rw [List.toFinset_card_of_nodup hc.role.nodup, Config.card_memberSet,
      ← hc.toMember.clusterSize]
    rw [RawNode.quorumSize] at hq
    omega
  have hstep : Step cfg.memberSet i g.hist.core
      (Function.update g.hist.core i (electing (g.hist.core i))) := by
    refine .elect _ hQ ?_ ?_ ?_ ?_ <;> rw [hterm]
    · exact fun v hv => (hc.role.votes v (List.mem_toFinset.mp hv)).2
    · exact hown
    · rw [hlog, hc.role.vote_log]
    · exact Option.not_isSome_iff_eq_none.mp hc.role.not_led
  have hm : History.Moves cfg.memberSet i g.hist (g.hist.withCore i (electing (g.hist.core i))) :=
    .core hstep (hlog ▸ hc.indexed) (hlog ▸ hc.accounted)
  have hgrow := hm.grows g.inv
  have hled : Led (g.hist.withCore i (electing (g.hist.core i))).core i self.log.term := by
    simp [Led, electing, hterm]
  have hrec : g.disk.record (.leading self.log.term) = g.disk := by
    rw [hc.disk]
    rfl
  have hst : Stored (g.hist.withCore i (electing (g.hist.core i))) i self.log self.state := {
    term := by simpa [electing] using hs.term
    entries := by simpa [electing] using hs.entries
    vote := by simpa [electing] using hs.vote
    commit_le := hs.commit_le
    commit_term := hs.commit_term
    committed := hs.committed.grows hgrow.core le_rfl
    state_initial := hs.state_initial
    applied := hs.applied.grows hgrow.core le_rfl }
  have hshown : Shown i (some (.leading self.log.term)) g.hist
      (g.hist.withCore i (electing (g.hist.core i))) := by
    refine Shown.withCore rfl fun T => ?_
    by_cases hT : T = self.log.term
    · exact Or.inr (by rw [hT])
    · exact Or.inl (Function.update_of_ne (by rwa [hterm]) _ _)
  refine wp_mono (runs_emit hm (by rw [hrec, hc.disk]; exact hst) hled hshown) ?_
    (fun _ _ h => h)
  rintro _ g₁ ⟨hh, hd⟩
  have hnoreads : g.hist.reads i self.log.term = [] := by
    by_contra hne
    exact hc.role.not_led (g.inv.reads_led hne)
  have hnocommit : (g.hist.core i).commitTo self.log.term = 0 := by
    by_contra hne
    exact hc.role.not_led (g.inv.core.commit_quorum (Nat.pos_of_ne_zero hne)).1
  refine ⟨⟨hc.toMember.with_role rfl rfl rfl, hd.trans (hrec.trans hc.disk)⟩, ?_, ?_⟩
  · rw [hh]
    exact {
      led := hled
      keys := by
        refine OrderedMap.keys_eq (cfg.increasing.filter _) fun p => ?_
        change ((Leader.new self.peers _).progress.get p).isSome = true ↔ p ∈ cfg.peers i
        rw [Leader.new_get, ← hc.peers]
        split_ifs with hp <;> simp [hp]
      progress := by
        intro p x hx
        change (Leader.new self.peers _).progress.get p = some x at hx
        rw [Leader.new_get] at hx
        split_ifs at hx
        obtain rfl := Option.some.inj hx
        exact ⟨Nat.succ_pos _, le_rfl, Nat.zero_le _, Nat.zero_le _⟩
      seq := (congrArg List.length hnoreads).symm
      writes := fun hw => by simp [RawNode.intoRole, Leader.new] at hw
      reads := fun r hr => by simp [RawNode.intoRole, Leader.new] at hr }
  · rw [hh]
    change ((g.hist.withCore i (electing (g.hist.core i))).core i).commitTo self.log.term ≤ _
    simp [electing, hnocommit]

theorem runs_intoLeader (hc : CandidateAt self g)
    (hq : self.quorumSize ≤ self.role.votes.length) :
    Runs cfg i X (self.intoLeader cfg.sm) LeadsOwn g := by
  have hpos := (g.inv.core.voted_le (hc.stored.vote.trans hc.role.vote)).1
  unfold RawNode.intoLeader
  refine runs_assert_bind (Nat.ne_of_gt hpos) (runs_assert_bind (hc.id.symm ▸ hc.role.vote) ?_)
  refine Runs.bind (runs_leading hc hq) fun _ g₁ _ hl₁ => ?_
  rw [Log.getLastIndex_eq hc.indexed]
  refine Runs.bind (runs_propose hl₁ none fun e he c hcmd => ?_) ?_
  · obtain rfl := List.mem_singleton.mp he
    cases hcmd
  rintro ⟨self₂, index⟩ g₂ _ ⟨hl₂, _, ht₂, he₂⟩
  simp only at hl₂ ht₂ he₂
  have hlast : lastTerm self₂.log.entries = self₂.log.term := by
    rw [he₂, ht₂]
    simp [lastTerm]
  refine Runs.bind (runs_maybeCommitAndApply hl₂) ?_
  rintro ⟨self₃, k⟩ g₃ _ ⟨hl₃, he₃, ht₃, _⟩
  simp only at hl₃ he₃ ht₃
  have hlast₃ : lastTerm self₃.log.entries = self₃.log.term := by rw [he₃, ht₃, hlast]
  refine wp_mono (runs_heartbeat hl₃ hlast₃) ?_ (fun _ _ h => h)
  rintro self₄ g₄ ⟨rfl, hl₄, hlog⟩
  exact ⟨hl₄, by rw [hlog]; exact hlast₃⟩

theorem runs_stepVoteGranted (hc : CandidateAt self g) {v : NodeID} (hv : v ∈ cfg.members)
    (hvoted : (g.hist.core v).voted self.log.term = some i) :
    CandidateAt { self with role := { self.role with votes := self.role.votes.insert v } } g :=
  ⟨⟨hc.toMember.with_role rfl rfl rfl, hc.disk⟩, { hc.role with
    nodup := hc.role.nodup.insert
    own := List.mem_insert_of_mem hc.role.own
    votes := fun n hn => by
      rcases List.mem_insert_iff.mp hn with rfl | hn
      · exact ⟨hv, hvoted⟩
      · exact hc.role.votes n hn }⟩

theorem runs_stepCandidate (hc : CandidateAt self g) {msg : Envelope}
    (hm : Inbound cfg g.hist i self.log.term msg) :
    Runs cfg i X (self.stepCandidate cfg.sm msg) (fun node g' => NodeAt startTerm node g') g := by
  unfold RawNode.stepCandidate
  refine runs_ite (fun _ => runs_pure hc) fun hlt => runs_ite (fun hgt => ?_) fun hgt => ?_
  · refine Runs.bind (runs_candidateIntoFollower_later hc hgt) ?_
    rintro self₁ g₁ hg₁ ⟨hf₁, hT⟩
    exact runs_stepFollower_later hf₁ hT hgt (hm.grows hg₁)
  have hT : msg.term = self.log.term := le_antisymm (not_lt.mp hgt) (not_lt.mp hlt)
  have hm' := hm
  cases hm with
  | submitted id request hr he =>
      subst he
      exact runs_seq (runs_answer hc.toMember rfl trivial) fun _ => runs_pure hc
  | delivered hs ht hne =>
      have hmeans := hs.means
      rw [ht, hT] at hmeans
      cases hmsg : msg.message with
      | campaignResponse vote =>
          rw [hmsg] at hmeans
          cases vote with
          | false => exact runs_pure hc
          | true =>
              have hc' := runs_stepVoteGranted hc hs.sender (hmeans rfl)
              exact runs_ite (fun hq => Runs.bind (runs_intoLeader hc' hq) fun _ _ _ h =>
                runs_pure h) fun _ => runs_pure hc'
      | campaign lastIndex lastTerm' =>
          exact runs_seq (runs_send hc.toMember hs.sender (fun h => absurd h (by simp))
            fun h => absurd h hne) fun _ => runs_pure hc
      | heartbeat lastIndex commitIndex readSeq =>
          rw [hmsg] at hmeans
          exact runs_lostElection hc hT hm' hs.sender hne hmeans.led
      | append baseIndex baseTerm entries =>
          rw [hmsg] at hmeans
          exact runs_lostElection hc hT hm' hs.sender hne hmeans.led
      | read seq =>
          rw [hmsg] at hmeans
          exact runs_lostElection hc hT hm' hs.sender hne hmeans.1
      | clientRequest id request =>
          rw [hmsg] at hmeans
          exact absurd hmeans.1 hc.role.not_led
      | heartbeatResponse matchIndex readSeq =>
          rw [hmsg] at hmeans
          exact absurd hmeans.1.led hc.role.not_led
      | appendResponse matchIndex rejectIndex =>
          rw [hmsg] at hmeans
          exact absurd hmeans.led hc.role.not_led
      | readResponse seq =>
          rw [hmsg] at hmeans
          exact absurd hmeans.led hc.role.not_led
      | clientResponse id response =>
          rw [hmsg] at hmeans
          exact absurd (hmeans.2 hne).2 (by simp [hc.role.not_follows])

end Candidate

/-! ## The public interface -/

section Node
variable {cfg : Config} {i : NodeID} {X : Prop} {startTerm : ℕ} {g : Point cfg i}

/-- A started node. -/
theorem runs_new (hi : i ∈ cfg.members) {log : Log} {state : List Entry}
    (hd : g.disk = ⟨log, state⟩) :
    Runs cfg i X (Node.new i (cfg.peers i) log state cfg.opts cfg.sm)
      (fun node g' => NodeAt log.term node g' ∧ Started log.term node) g := by
  have hterm : (g.hist.core i).term = log.term := by
    have := g.stored.term
    rwa [hd] at this
  unfold Node.new RawNode.new
  refine Runs.bind (Q := fun node g' => FollowerAt log.term node g' ∧ node.log = log) ?_ ?_
  · refine runs_seq (wp_ensure (by simp [Config.peers]) rfl) fun _ =>
      runs_seq runs_randomElectionTimeout fun t => ?_
    refine wp_mono (runs_maybeApply (g := g) ⟨⟨rfl, hi, rfl, rfl⟩, hd⟩) ?_ (fun _ _ h => h)
    rintro self' g' ⟨⟨st, rfl⟩, hh, hr⟩
    exact ⟨⟨hr, fun m hm => by simp [Follower.new] at hm, fun _ => rfl, fun _ _ => rfl,
      fun _ => rfl⟩, rfl⟩
  · rintro node g₁ _ ⟨hf, hlog⟩
    have hT : node.log.term = log.term := by rw [hlog]
    refine runs_ite (fun hsize => ?_) fun _ =>
      runs_pure ⟨hf, hT.symm.le, fun h => by cases h⟩
    refine Runs.bind (runs_intoCandidate hf.toRunsAt) ?_
    rintro self₂ g₂ _ ⟨hc, hlt⟩
    refine Runs.bind (runs_intoLeader hc ?_) fun self₃ g₃ hg₃ h => runs_pure ⟨h, ?_⟩
    · rw [RawNode.quorumSize, hc.toMember.clusterSize, ← hf.toMember.clusterSize, hsize]
      exact List.length_pos_of_mem hc.role.own
    · have h₂ : (g₂.hist.core i).term = self₂.log.term := hc.stored.term
      have h₃ : (g₃.hist.core i).term = self₃.log.term := h.1.stored.term
      have h₄ : log.term < self₃.log.term := by
        have := (hg₃.core i).term
        omega
      exact ⟨h₄.le, fun _ => h₄⟩

/-- A node that started in a term and moves on keeps what a start means. -/
theorem Started.grows {node node' : Node} {g' : Point cfg i} (hs : Started startTerm node)
    (hn : NodeAt startTerm node g) (hn' : NodeAt startTerm node' g')
    (hg : History.Grows g.hist g'.hist)
    (hleft : node'.isFollower = false → node.isFollower = false ∨ node.term < node'.term) :
    Started startTerm node' := by
  have hle := (hg.core i).term
  rw [hn.core_term, hn'.core_term] at hle
  refine ⟨hs.1.trans hle, fun h => ?_⟩
  rcases hleft h with h | h
  · exact (hs.2 h).trans_le hle
  · exact hs.1.trans_lt h

theorem runs_tick {node : Node} (hn : NodeAt startTerm node g) (hs : Started startTerm node) :
    Runs cfg i X (node.tick cfg.sm) (fun node' g' => NodeAt startTerm node' g' ∧
      Started startTerm node') g := by
  suffices h : Runs cfg i X (node.tick cfg.sm) (fun node' g' => NodeAt startTerm node' g' ∧
      (node'.isFollower = false → node.isFollower = false ∨ node.term < node'.term)) g from
    h.mono fun node' g' hg hn' => ⟨hn'.1, hs.grows hn hn'.1 hg hn'.2⟩
  match node with
  | .follower node =>
      exact wp_mono (runs_tickFollower hn) (fun _ _ h => ⟨h.1, fun hf => Or.inr (h.2 hf)⟩)
        (fun _ _ h => h)
  | .candidate node =>
      exact wp_mono (runs_tickCandidate hn) (fun _ _ h => ⟨h, fun _ => Or.inl rfl⟩)
        (fun _ _ h => h)
  | .leader node =>
      exact wp_mono (runs_tickLeader hn.1 hn.2) (fun _ _ h => ⟨h, fun _ => Or.inl rfl⟩)
        (fun _ _ h => h)

/-- Every step of a node keeps its invariant; it can only fail on a stale message, or
at a leader that may not append entries. -/
theorem runs_step {node : Node} (hn : NodeAt startTerm node g) (hs : Started startTerm node)
    {msg : Envelope} (hm : Inbound cfg g.hist i node.term msg) :
    Runs cfg i (Stale startTerm node msg ∨ node.isFollower = false ∧ msg.term = node.term ∧
        cfg.opts.maxAppendEntries = 0) (node.step cfg.sm msg)
      (fun node' g' => NodeAt startTerm node' g' ∧ Started startTerm node') g := by
  have hrec : msg.recipient = i := by
    cases hm with
    | delivered _ ht _ => exact ht
    | submitted _ _ _ he => rw [he]
  have hsend : ∀ {R : Type} {self : RawNode R}, Member cfg i self →
      msg.sender ∈ self.peers ∨ msg.sender = self.id := by
    intro R self hmem
    cases hm with
    | delivered hs _ hne => exact Or.inl (hmem.mem_peers.mpr ⟨hs.sender, hne⟩)
    | submitted _ _ _ he => exact Or.inr (by rw [he, hmem.id])
  suffices h : Runs cfg i _ (node.step cfg.sm msg) (fun node' g' => NodeAt startTerm node' g' ∧
      (node'.isFollower = false → node.isFollower = false ∨ node.term < node'.term)) g from
    h.mono fun node' g' hg hn' => ⟨hn'.1, hs.grows hn hn'.1 hg hn'.2⟩
  unfold Node.step
  match node with
  | .follower node =>
      exact runs_assert_bind (hrec.trans hn.id.symm) (runs_assert_bind (hsend hn.toMember)
        (wp_mono (runs_stepFollower hn hm Or.inl)
          (fun _ _ h => ⟨h.2, fun hf => by rw [h.1] at hf; cases hf⟩) (fun _ _ h => h)))
  | .candidate node =>
      exact runs_assert_bind (hrec.trans hn.id.symm) (runs_assert_bind (hsend hn.toMember)
        (wp_mono (runs_stepCandidate hn hm) (fun _ _ h => ⟨h, fun _ => Or.inl rfl⟩)
          (fun _ _ h => h)))
  | .leader node =>
      exact runs_assert_bind (hrec.trans hn.1.id.symm) (runs_assert_bind (hsend hn.1.toMember)
        (wp_mono (runs_stepLeader hn.1 hn.2 hm fun hT h => Or.inr ⟨rfl, hT, h⟩)
          (fun _ _ h => ⟨h, fun _ => Or.inl rfl⟩) (fun _ _ h => h)))

end Node
end ToyDB.Raft
