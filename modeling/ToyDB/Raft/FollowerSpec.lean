import ToyDB.Raft.Roles
import ToyDB.Raft.Splice

/-!
# The follower keeps its invariant

Every transition and step of a follower that the history allows returns normally,
except that a message for its role before a restart may fail.
-/
namespace ToyDB.Raft
open ToyDB.Consensus ToyDB.Effects

section Follower
variable {cfg : Config} {i : NodeID} {X : Prop} {startTerm : ℕ} {self : RawNode Follower}
  {g : Point cfg i}

theorem runs_abortForwarded (hr : RunsAt self g) :
    Runs cfg i X self.abortForwarded (fun self' g' => g' = g ∧
      self' = { self with role := { self.role with forwarded := [] } }) g := by
  unfold RawNode.abortForwarded
  refine runs_seq (runs_forM fun id _ => ?_) fun _ => runs_pure ⟨rfl, rfl⟩
  exact runs_answer hr.toMember hr.id trivial

theorem runs_randomElectionTimeout {R : Type} {node : RawNode R} :
    Runs cfg i X node.randomElectionTimeout (fun _ g' => g' = g) g :=
  wp_draw fun _ => rfl

/-- A leaderless follower in a later term knows nothing of it. -/
theorem FollowerRole.fresh {h : History} {x : Local NodeID Entry} {T : ℕ} {role : Follower}
    (hi : h.Inv cfg.memberSet) (hT : (h.core i).term < T) (hstart : x.start = (h.core i).start)
    (hl : role.leader = none) (hfw : role.forwarded = []) :
    FollowerRole cfg (h.withCore i x) i T startTerm role where
  led m hm := by simp [hl] at hm
  idle _ := hfw
  followed _ hf := by
    have := (hi.follows_led hf).1
    omega
  former hled := by
    have hled' : Led h.core i T := by simpa [Led, hstart] using hled
    have := (hi.core.led_le hled').2
    omega

theorem runs_intoFollower_later (hr : RunsAt self g) {T : ℕ} (hT : self.log.term < T) :
    Runs cfg i X (self.intoFollower T none) (fun self' g' =>
      FollowerAt 0 self' g' ∧ self'.log.term = T) g := by
  have hterm : (g.hist.core i).term = self.log.term := hr.stored.term
  unfold RawNode.intoFollower
  refine runs_assert_bind (by omega) (runs_value (runs_abortForwarded hr) ?_)
  rintro _ rfl
  refine runs_assert_bind (Nat.ne_of_gt hT) (Runs.bind (runs_setTermVote_later hr hT) ?_)
  rintro l g' _ ⟨rfl, hh, hd⟩
  refine runs_seq runs_randomElectionTimeout fun t => ?_
  refine runs_pure ⟨⟨⟨hr.toMember.with_role rfl rfl rfl, hd⟩, ?_⟩, rfl⟩
  rw [hh]
  exact .fresh g.inv (hterm.trans_lt hT) rfl rfl rfl

/-- Following the leader of the node's own term. -/
theorem runs_intoFollower_leader (hf : FollowerAt startTerm self g)
    (hn : self.role.leader = none) {m : NodeID} (hm : m ∈ cfg.members) (hne : m ≠ i)
    (hl : Led g.hist.core m self.log.term) :
    Runs cfg i X (self.intoFollower self.log.term (some m)) (fun self' g' =>
      FollowerAt startTerm self' g' ∧ self'.log = self.log ∧ self'.role.leader = some m) g := by
  have hpos := (g.inv.core.led_le hl).1
  refine runs_follow hf.toRunsAt hl hne fun g' hg hk hcore hd hfollows => ?_
  have hr' := hf.toRunsAt.of_disk hd
  unfold RawNode.intoFollower
  refine runs_assert_bind (Nat.ne_of_gt hpos) (runs_value (runs_abortForwarded hr') ?_)
  rintro _ rfl
  refine runs_assert_bind (hf.mem_peers.mpr ⟨hm, hne⟩) (runs_assert_bind hn
    (runs_assert_bind rfl (runs_pure ⟨⟨⟨hf.toMember.with_role rfl rfl rfl, hr'.disk⟩, ?_⟩,
      rfl, rfl⟩)))
  exact {
    led := by
      rintro _ ⟨⟩
      exact ⟨hm, hne, hg.core.led hl, hfollows⟩
    idle := fun h => absurd h (Option.some_ne_none m)
    followed := fun h => absurd h (Option.some_ne_none m)
    former := fun h => hf.role.former (by rwa [hcore] at h) }

theorem runs_checkLeader (hf : FollowerAt startTerm self g) {msg : Envelope}
    (hT : msg.term = self.log.term) (hm : msg.sender ∈ cfg.members) (hne : msg.sender ≠ i)
    (hl : Led g.hist.core msg.sender self.log.term) :
    Runs cfg i X (self.checkLeader msg) (fun self' g' =>
      FollowerAt startTerm self' g' ∧ self'.log = self.log ∧
        self'.role.leader = some msg.sender) g := by
  unfold RawNode.checkLeader
  cases hlead : self.role.leader with
  | none =>
      rw [hT]
      exact runs_intoFollower_leader hf hlead hm hne hl
  | some m =>
      obtain ⟨_, _, hled, _⟩ := hf.role.led m hlead
      obtain rfl := g.inv.core.unique_leader hl hled
      exact runs_assert_bind rfl (runs_pure ⟨hf, rfl, hlead⟩)

/-- The log up to an entry of the leader's term is a prefix of the leader's log. -/
theorem RunsAt.has_initial {R : Type} {node : RawNode R} (hr : RunsAt node g) {n : NodeID}
    (hn : Led g.hist.core n node.log.term) {k : ℕ} (hk : node.log.has k node.log.term = true) :
    k ≤ node.log.entries.length ∧
      node.log.entries.take k <+: (g.hist.core n).full node.log.term := by
  obtain ⟨hpos, e, he, ht⟩ := (Log.has_iff hr.indexed).mp hk
  have hp := g.inv.core.prefix_full hr.grounded hn he ht
  have := (List.getElem?_eq_some_iff.mp he).1
  rw [Nat.sub_add_cancel hpos] at hp
  exact ⟨by omega, hp⟩

theorem runs_stepHeartbeat (hf : FollowerAt startTerm self g) {msg : Envelope}
    {lastIndex commitIndex readSeq : ℕ} (hT : msg.term = self.log.term)
    (hm : msg.sender ∈ cfg.members) (hne : msg.sender ≠ i)
    (hb : Beats g.hist msg.sender self.log.term lastIndex commitIndex readSeq) :
    Runs cfg i X (self.stepHeartbeat cfg.sm msg lastIndex commitIndex readSeq) (fun self' g' =>
      FollowerAt startTerm self' g') g := by
  unfold RawNode.stepHeartbeat
  refine runs_assert_bind hb.commit_le (Runs.bind (runs_checkLeader hf hT hm hne hb.led) ?_)
  rintro self₁ g₁ hg₁ ⟨hf₁, hlog, hlead⟩
  rw [hT, ← hlog]
  rw [← hlog] at hb
  have hled := hg₁.core.led hb.led
  -- the part of the log that the heartbeat confirms
  set m := if self₁.log.has lastIndex self₁.log.term = true then lastIndex else 0 with hmdef
  have hmatch : m ≤ self₁.log.entries.length ∧
      self₁.log.entries.take m <+: (g₁.hist.core msg.sender).full self₁.log.term := by
    rw [hmdef]
    split_ifs with hhas
    · exact hf₁.has_initial hled hhas
    · simp
  have hlen : m ≤ ((g₁.hist.core msg.sender).full self₁.log.term).length := by
    have := hmatch.2.length_le
    rw [List.length_take, Nat.min_eq_left hmatch.1] at this
    exact this
  have hfull : ((g₁.hist.core msg.sender).full self₁.log.term).take m =
      self₁.log.entries.take m := by
    have := List.prefix_iff_eq_take.mp hmatch.2
    rw [List.length_take, Nat.min_eq_left hmatch.1] at this
    exact this.symm
  refine runs_ack hf₁.toRunsAt hled hlen (hfull ▸ List.take_prefix _ _)
    fun g₂ hg₂ hk₂ hfo₂ _ hd₂ hack => ?_
  have hf₂ := hf₁.kept hg₂ hk₂ hfo₂ hd₂
  refine runs_confirm hf₂.toRunsAt (hg₂.core.led hled)
    (hb.reads.trans ((hg₁.trans hg₂).reads _ _).length_le)
    fun g₃ hg₃ hk₃ hfo₃ hcore₃ hd₃ hconf => ?_
  have hf₃ := hf₂.kept hg₃ hk₃ hfo₃ hd₃
  have hg := (hg₁.trans hg₂).trans hg₃
  refine runs_seq (runs_send hf₃.toMember hm ⟨⟨hg.core.led hb.led,
    hb.reads.trans (hg.reads _ _).length_le, hconf⟩, hcore₃ ▸ hack⟩ fun h => absurd h hne)
    fun _ => ?_
  split_ifs with hcommit
  · obtain ⟨hm0, hlt⟩ := hcommit
    have hml : m = lastIndex := by
      rw [hmdef] at hm0 ⊢
      split_ifs at hm0 ⊢ with hhas
      · rfl
      · exact absurd rfl hm0
    have hci := hb.commit_le
    have hchosen : Chosen g₃.hist.core self₁.log.term (self₁.log.entries.take commitIndex) := by
      obtain ⟨p, hp, hpl, _, hc⟩ := hb.log
      have hpm : p = self₁.log.entries.take m := by
        have := List.prefix_iff_eq_take.mp (hp.trans ((hg₁.core msg.sender).full hb.led))
        rw [this, hpl, ← hml, hfull]
      have hc := hc.grows hg.core le_rfl
      rwa [hpm, List.take_take, Nat.min_eq_left (by omega)] at hc
    refine Runs.bind (runs_commit hf₃.toRunsAt hlt (by omega) .refl rfl rfl rfl hchosen
      fun l _ _ _ => Shown.refl i _ _) ?_
    rintro l g₄ hg₄ ⟨rfl, hh₄, hd₄⟩
    refine wp_mono (runs_maybeApply (g := g₄) ⟨hf₃.toMember.with_role rfl rfl rfl, hd₄⟩) ?_
      (fun _ _ h => h)
    rintro self₅ g₅ ⟨⟨st, rfl⟩, hh₅, hr₅⟩
    refine ⟨hr₅, ?_⟩
    rw [hh₅, hh₄]
    exact hf₃.role
  · exact runs_pure hf₃

theorem runs_stepAppend (hf : FollowerAt startTerm self g) {msg : Envelope}
    {baseIndex baseTerm : ℕ} {entries : List Entry} (hT : msg.term = self.log.term)
    (hm : msg.sender ∈ cfg.members) (hne : msg.sender ≠ i)
    (hs : Sendable cfg g.hist msg.sender self.log.term baseIndex baseTerm entries) :
    Runs cfg i X (self.stepAppend msg baseIndex baseTerm entries) (fun self' g' =>
      FollowerAt startTerm self' g') g := by
  obtain ⟨base, hlen, hterm, hslice⟩ := hs.slice
  have hidx := (g.inv.full_indexed _ _ hs.led).of_initial hslice
  unfold RawNode.stepAppend
  refine runs_assert_bind ?_ (Runs.bind (runs_checkLeader hf hT hm hne hs.led) ?_)
  · intro first hfirst
    rw [hidx.index_append (j := 0) (by rwa [List.head?_eq_getElem?] at hfirst)]
    omega
  rintro self₁ g₁ hg₁ ⟨hf₁, hlog, hlead⟩
  rw [← hlog] at hslice hs
  have hled := hg₁.core.led hs.led
  have hslice₁ := hslice.trans ((hg₁.core msg.sender).full hs.led)
  split_ifs with hbase
  · -- the base matches, so the entries continue the log
    have hstart : base <+: self₁.log.entries := by
      rcases hbase with h0 | hhas
      · rw [List.length_eq_zero_iff.mp (hlen.trans h0)]
        exact List.nil_prefix
      · obtain ⟨hpos, e, he, ht⟩ := (Log.has_iff hf₁.indexed).mp hhas
        obtain ⟨b, hb, hbt⟩ := exists_last (l := base) (by rintro rfl; simp at hlen; omega)
        rw [hlen] at hb
        have hgb : Grounded g₁.hist.core base := (g₁.inv.core.full_grounded hled).initial
          ((List.prefix_append _ _).trans hslice₁)
        have hmt := g₁.inv.core.matching hf₁.grounded hgb he hb
          (by rw [stamped_term, ht, ← hterm, hbt])
        rw [Nat.sub_add_cancel hpos, List.take_of_length_le (l := base) hlen.le] at hmt
        exact hmt ▸ List.take_prefix _ _
    refine Runs.bind (runs_splice hf₁.toRunsAt ⟨hled, hstart, hslice₁⟩) ?_
    rintro ⟨log', last⟩ g₂ hg₂ ⟨l, hl, hpl, hh₂, hd₂⟩
    obtain rfl : log' = { self₁.log with entries := l } := hl
    have hr₂ : RunsAt { self₁ with log := { self₁.log with entries := l } } g₂ :=
      ⟨hf₁.toMember.with_role rfl rfl rfl, hd₂⟩
    have hf₂ : FollowerAt startTerm { self₁ with log := { self₁.log with entries := l } } g₂ :=
      ⟨hr₂, hf₁.role.grows hg₂ (by rw [hh₂]; simp) (by rw [hh₂]; simp)⟩
    have hmi : (entries.getLast?.map Entry.index).getD baseIndex = (base ++ entries).length := by
      rcases List.eq_nil_or_concat entries with rfl | ⟨front, last, rfl⟩
      · simp [hlen]
      · have hi := hidx.index_getLast (e := last) (by simp)
        simpa using hi
    rw [hmi]
    have hslice₂ := hslice₁.trans ((hg₂.core msg.sender).full hled)
    refine runs_ack hr₂ (n := msg.sender) (k := (base ++ entries).length) (hg₂.core.led hled)
      hslice₂.length_le ((List.prefix_iff_eq_take.mp hslice₂) ▸ hpl)
      fun g₃ hg₃ hk₃ hfo₃ _ hd₃ hack => ?_
    have hf₃ := hf₂.kept hg₃ hk₃ hfo₃ hd₃
    refine runs_seq (runs_send hf₃.toMember hm
      ⟨hg₃.core.led (hg₂.core.led hled), hack, Nat.zero_le _, Or.inr rfl, ?_⟩
      fun h => absurd h hne) fun _ => runs_pure hf₃
    intro h0 _
    rw [List.length_append] at h0
    exact hs.nonempty (by omega) (List.length_eq_zero_iff.mp (by omega))
  · refine runs_seq (runs_send hf₁.toMember hm ⟨hled, Nat.zero_le _, ?_, Or.inl rfl, ?_⟩
      fun h => absurd h hne) fun _ => runs_pure hf₁
    · have := hslice₁.length_le
      rw [List.length_append] at this
      exact (Nat.min_le_left _ _).trans (by omega)
    · intro _ hr0
      have : baseIndex ≠ 0 := fun h => hbase (Or.inl h)
      omega

theorem runs_stepRead (hf : FollowerAt startTerm self g) {msg : Envelope} {seq : ℕ}
    (hT : msg.term = self.log.term) (hm : msg.sender ∈ cfg.members) (hne : msg.sender ≠ i)
    (hl : Led g.hist.core msg.sender self.log.term)
    (hseq : seq ≤ (g.hist.reads msg.sender self.log.term).length) :
    Runs cfg i X (self.checkLeader msg >>= fun self' => do
      self'.send msg.sender (.readResponse seq)
      return self') (fun self' g' => FollowerAt startTerm self' g') g := by
  refine Runs.bind (runs_checkLeader hf hT hm hne hl) ?_
  rintro self₁ g₁ hg₁ ⟨hf₁, hlog, _⟩
  rw [← hlog] at hl hseq
  refine runs_confirm hf₁.toRunsAt (hg₁.core.led hl) (hseq.trans (hg₁.reads _ _).length_le)
    fun g₂ hg₂ hk₂ hfo₂ _ hd₂ hconf => ?_
  have hf₂ := hf₁.kept hg₂ hk₂ hfo₂ hd₂
  have hg := hg₁.trans hg₂
  exact runs_seq (runs_send hf₂.toMember hm
    ⟨hg.core.led hl, hseq.trans (hg.reads _ _).length_le, hconf⟩ fun h => absurd h hne)
    fun _ => runs_pure hf₂

theorem runs_stepVote (hf : FollowerAt startTerm self g) {msg : Envelope} {lastIndex lastTerm' : ℕ}
    (hT : msg.term = self.log.term) (hm : msg.sender ∈ cfg.members) (hne : msg.sender ≠ i)
    (hvote : self.log.vote = none ∨ self.log.vote = some msg.sender)
    (hc : Means cfg g.hist msg.sender self.log.term i (.campaign lastIndex lastTerm')) :
    Runs cfg i X (self.stepVote msg lastIndex lastTerm') (fun self' g' =>
      FollowerAt startTerm self' g') g := by
  obtain ⟨hv, hlen, hterm⟩ := hc
  have hpos := (g.inv.core.voted_le hv).1
  unfold RawNode.stepVote
  rw [Log.getLastIndex_eq hf.indexed]
  simp only
  split_ifs with hless
  · exact runs_seq (runs_send hf.toMember hm (fun h => absurd h (by simp)) fun h => absurd h hne)
      fun _ => runs_pure hf
  · have hu : UpToDate ((g.hist.core msg.sender).voteLog self.log.term) self.log.entries := by
      unfold UpToDate
      omega
    rw [hT]
    refine Runs.bind (runs_setTermVote_vote hf.toRunsAt hpos hvote hv hu) ?_
    rintro l g₁ hg₁ ⟨rfl, hh₁, hv₁, hd₁⟩
    have hrole : FollowerRole cfg g₁.hist i self.log.term startTerm self.role := by
      rcases hh₁ with hh₁ | hh₁
      · rw [hh₁]
        exact hf.role
      · exact hf.role.grows hg₁ (by rw [hh₁]; simp [voting]) (by rw [hh₁]; simp)
    have hf₁ : FollowerAt startTerm
        { self with log := { self.log with vote := some msg.sender } } g₁ :=
      ⟨⟨hf.toMember.with_role rfl rfl rfl, hd₁⟩, hrole⟩
    exact runs_seq (runs_send hf₁.toMember hm (fun _ => hv₁) fun h => absurd h hne)
      fun _ => runs_pure hf₁

theorem runs_stepCampaign (hf : FollowerAt startTerm self g) {msg : Envelope}
    {lastIndex lastTerm' : ℕ} (hT : msg.term = self.log.term) (hm : msg.sender ∈ cfg.members)
    (hne : msg.sender ≠ i)
    (hc : Means cfg g.hist msg.sender self.log.term i (.campaign lastIndex lastTerm')) :
    Runs cfg i X (self.stepCampaign msg lastIndex lastTerm') (fun self' g' =>
      FollowerAt startTerm self' g') g := by
  unfold RawNode.stepCampaign
  simp only [Log.getTermVote]
  cases hv : self.log.vote with
  | none => exact runs_stepVote hf hT hm hne (Or.inl hv) hc
  | some v =>
      simp only
      split_ifs with hsame
      · exact runs_seq (runs_send hf.toMember hm (fun h => absurd h (by simp))
          fun h => absurd h hne) fun _ => runs_pure hf
      · exact runs_stepVote hf hT hm hne (Or.inr (by rw [hv, not_not.mp hsame])) hc

/-- The role of a follower that keeps its leader. -/
theorem FollowerAt.with_role (hf : FollowerAt startTerm self g) (role : Follower)
    (hl : role.leader = self.role.leader) (hfw : role.leader = none → role.forwarded = []) :
    FollowerAt startTerm { self with role := role } g :=
  ⟨⟨hf.toMember.with_role rfl rfl rfl, hf.disk⟩, by rw [hl]; exact hf.role.led, hfw,
    by rw [hl]; exact hf.role.followed, hf.role.former⟩

theorem runs_stepClientRequest (hf : FollowerAt startTerm self g) {msg : Envelope}
    {id : RequestID} {request : Request} (hT : msg.term = self.log.term)
    (hm : Inbound cfg g.hist i self.log.term msg) (hmsg : msg.message = .clientRequest id request)
    (hX : StaleFollower startTerm self msg → X) :
    Runs cfg i X (self.stepClientRequest msg id) (fun self' g' =>
      FollowerAt startTerm self' g') g := by
  unfold RawNode.stepClientRequest
  refine runs_assert_or (fun hne => hX ?_) fun hown => ?_
  · -- a request of another node is for the leader that the node was
    cases hm with
    | delivered hs ht _ =>
        have hmeans := hs.means
        rw [hmsg, ht, hT] at hmeans
        exact ⟨hf.role.former hmeans.1, hT, by simpa [hmsg] using hne⟩
    | submitted _ _ _ he => exact absurd (by rw [he, hf.id]) hne
  · have hreq : g.hist.requests i id request := by
      cases hm with
      | delivered _ _ hne => exact absurd (hown.trans hf.id) hne
      | submitted id' request' hr he =>
          rw [he] at hmsg
          injection hmsg with h₁ h₂
          exact h₁ ▸ h₂ ▸ hr
    cases hl : self.role.leader with
    | some l =>
        obtain ⟨hlm, hli, hled, hfo⟩ := hf.role.led l hl
        have hf' := hf.with_role
          { self.role with forwarded := self.role.forwarded.insert id } rfl
          (fun h => absurd (hl.symm.trans h) (by simp))
        rw [hmsg]
        exact runs_seq (runs_send hf'.toMember hlm ⟨hled, hfo, hreq⟩ fun h => absurd h hli)
          fun _ => runs_pure hf'
    | none =>
        exact runs_seq (runs_answer hf.toMember (hown.trans hf.id) trivial) fun _ => runs_pure hf

theorem runs_stepClientResponse (hf : FollowerAt startTerm self g) {msg : Envelope}
    {id : RequestID} {response : Except Error Response} (hT : msg.term = self.log.term)
    (hne : msg.sender ≠ i)
    (hmsg : msg.message = .clientResponse id response)
    (hc : Means cfg g.hist msg.sender self.log.term i (.clientResponse id response))
    (hX : StaleFollower startTerm self msg → X) :
    Runs cfg i X (self.stepClientResponse msg id response) (fun self' g' =>
      FollowerAt startTerm self' g') g := by
  obtain ⟨hans, hfrom⟩ := hc
  obtain ⟨hled, hfo⟩ := hfrom hne
  unfold RawNode.stepClientResponse
  refine runs_assert_or (fun hno => hX ?_) fun _ => ?_
  · cases hl : self.role.leader with
    | none => exact ⟨hf.role.followed hl hfo, hT, by simp [hmsg, hl]⟩
    | some l =>
        obtain ⟨_, _, hled', _⟩ := hf.role.led l hl
        exact absurd (by rw [hl, g.inv.core.unique_leader hled' hled]) hno
  · split_ifs with hin
    · have hf' := hf.with_role { self.role with forwarded := self.role.forwarded.erase id }
        rfl (fun h => by simp [hf.role.idle h])
      exact runs_seq (runs_answer hf'.toMember hf.id hans) fun _ => runs_pure hf'
    · exact runs_pure hf

/-- A message of the follower's own term. -/
theorem runs_stepMessage (hf : FollowerAt startTerm self g) {msg : Envelope}
    (hT : msg.term = self.log.term) (hm : Inbound cfg g.hist i self.log.term msg)
    (hX : StaleFollower startTerm self msg → X) :
    Runs cfg i X (self.stepMessage cfg.sm msg) (fun self' g' => FollowerAt startTerm self' g') g := by
  unfold RawNode.stepMessage
  set role := if some msg.sender = self.role.leader then { self.role with leaderSeen := 0 }
    else self.role with hrole
  have hl : role.leader = self.role.leader := by rw [hrole]; split_ifs <;> rfl
  have hfw : role.forwarded = self.role.forwarded := by rw [hrole]; split_ifs <;> rfl
  have hf := hf.with_role _ hl fun h => hfw.trans (hf.role.idle (hl.symm.trans h))
  replace hX : StaleFollower startTerm { self with role := role } msg → X := fun h => hX ⟨h.1, h.2.1,
    by have := h.2.2; revert this; cases msg.message <;> simp [hl]⟩
  cases hm with
  | submitted id request hr he =>
      subst he
      exact runs_stepClientRequest hf hT (.submitted id request hr rfl) rfl hX
  | delivered hs ht hne =>
      have hmeans := hs.means
      have hsm := hs.sender
      rw [ht, hT] at hmeans
      cases hmsg : msg.message with
      | heartbeat lastIndex commitIndex readSeq =>
          rw [hmsg] at hmeans
          exact runs_stepHeartbeat hf hT hsm hne hmeans
      | append baseIndex baseTerm entries =>
          rw [hmsg] at hmeans
          exact runs_stepAppend hf hT hsm hne hmeans
      | read seq =>
          rw [hmsg] at hmeans
          exact runs_stepRead hf hT hsm hne hmeans.1 hmeans.2
      | campaign lastIndex lastTerm' =>
          rw [hmsg] at hmeans
          exact runs_stepCampaign hf hT hsm hne hmeans
      | clientRequest id request =>
          exact runs_stepClientRequest hf hT (.delivered hs ht hne) hmsg hX
      | clientResponse id response =>
          rw [hmsg] at hmeans
          exact runs_stepClientResponse hf hT hne hmsg hmeans hX
      | campaignResponse vote => exact runs_pure hf
      | heartbeatResponse matchIndex readSeq =>
          rw [hmsg] at hmeans
          exact runs_panic (hX ⟨hf.role.former hmeans.1.led, hT, by rw [hmsg]; trivial⟩)
      | appendResponse matchIndex rejectIndex =>
          rw [hmsg] at hmeans
          exact runs_panic (hX ⟨hf.role.former hmeans.led, hT, by rw [hmsg]; trivial⟩)
      | readResponse seq =>
          rw [hmsg] at hmeans
          exact runs_panic (hX ⟨hf.role.former hmeans.led, hT, by rw [hmsg]; trivial⟩)

/-- An inbound message of a later term is one for the node in that term. -/
theorem Inbound.later {h : History} {T : ℕ} {msg : Envelope} (hm : Inbound cfg h i T msg)
    (hT : T < msg.term) : Inbound cfg h i msg.term msg := by
  cases hm with
  | delivered hs ht hne => exact .delivered hs ht hne
  | submitted id request hr he => simp [he] at hT

/-- A message that moved the node to its term, before which it knew nothing of it. -/
theorem runs_stepMessage_later (startTerm : ℕ) (hf : FollowerAt 0 self g) {msg : Envelope} {T : ℕ}
    (hT : self.log.term = msg.term) (hlt : T < msg.term) (hm : Inbound cfg g.hist i T msg) :
    Runs cfg i X (self.stepMessage cfg.sm msg) (fun self' g' => FollowerAt startTerm self' g') g := by
  refine wp_mono (runs_stepMessage hf hT.symm (hT ▸ hm.later hlt) ?_)
    (fun _ _ h => h.restarted startTerm) (fun _ _ h => h)
  rintro ⟨h0, h, _⟩
  have : msg.term = 0 := h.trans h0.symm
  omega

/-- A follower stays one. -/
theorem runs_stepFollower (hf : FollowerAt startTerm self g) {msg : Envelope}
    (hm : Inbound cfg g.hist i self.log.term msg) (hX : StaleFollower startTerm self msg → X) :
    Runs cfg i X (self.stepFollower cfg.sm msg) (fun node g' =>
      node.isFollower = true ∧ NodeAt startTerm node g') g := by
  unfold RawNode.stepFollower
  by_cases hlt : msg.term < self.term
  · rw [if_pos hlt]
    exact runs_pure ⟨rfl, hf⟩
  rw [if_neg hlt]
  by_cases hgt : self.term < msg.term
  · rw [if_pos hgt]
    refine Runs.bind (runs_intoFollower_later hf.toRunsAt hgt) ?_
    rintro self₁ g₁ hg₁ ⟨hf₁, hT⟩
    exact Runs.bind (runs_stepMessage_later startTerm hf₁ hT hgt (hm.grows hg₁))
      fun self₂ g₂ _ hf₂ => runs_pure ⟨rfl, hf₂⟩
  · rw [if_neg hgt]
    have hT : msg.term = self.log.term := le_antisymm (not_lt.mp hgt) (not_lt.mp hlt)
    exact Runs.bind (runs_stepMessage hf hT hm hX) fun self₁ g₁ _ hf₁ => runs_pure ⟨rfl, hf₁⟩

/-- Stepping a message that moved the node to its term. -/
theorem runs_stepFollower_later (hf : FollowerAt 0 self g) {msg : Envelope} {T : ℕ}
    (hT : self.log.term = msg.term) (hlt : T < msg.term) (hm : Inbound cfg g.hist i T msg) :
    Runs cfg i X (self.stepFollower cfg.sm msg) (fun node g' => NodeAt startTerm node g') g := by
  refine wp_mono (runs_stepFollower hf (hT ▸ hm.later hlt) ?_)
    (fun _ _ h => h.2.restarted startTerm) (fun _ _ h => h)
  rintro ⟨h0, h, _⟩
  have : msg.term = 0 := h.trans h0.symm
  omega

end Follower
end ToyDB.Raft
