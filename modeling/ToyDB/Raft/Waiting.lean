import ToyDB.Raft.Prompt
import ToyDB.Raft.Simulation

/-!
# No answerable request is left waiting in any run

Every message and tick leaves a leader settled, and a follower or candidate that has
applied what it committed, from which a leader starts.
-/
namespace ToyDB.Raft
open ToyDB.Effects ToyDB.Collections

/-! ## The steps of a leader -/

section Leader
variable {self : RawNode Leader} {sm : StateMachine}

/-- Progress of a follower that is not ahead of the leader. -/
theorem Orderly.setProgress (ho : Orderly self) {p : NodeID} {x y : Progress}
    (hx : self.role.progress.get p = some x) (hm : y.matchIndex ≤ self.log.entries.length)
    (hs : y.readSeq ≤ self.role.readSeq) : Orderly (self.setProgress p y) := by
  have hmem : ∀ {f : Progress → ℕ} {v : ℕ},
      v ∈ (self.role.progress.insert p y).values.map f →
        v = f y ∨ v ∈ self.role.progress.values.map f := by
    intro f v hv
    obtain ⟨z, hz, rfl⟩ := List.mem_map.mp hv
    obtain ⟨q, hq⟩ := OrderedMap.mem_values hz
    rw [OrderedMap.get_insert] at hq
    split_ifs at hq
    · exact Or.inl (congrArg f (Option.some.inj hq).symm)
    · exact Or.inr (List.mem_map_of_mem (OrderedMap.mem_values_of_get hq))
  refine { ho with size := ?_, match_le := fun v hv => ?_, seq_le := fun v hv => ?_ }
  · have hlen := congrArg List.length (OrderedMap.map_values_insert (f := fun _ => ()) (w := y) hx rfl)
    rw [List.length_map, List.length_map] at hlen
    exact (congrArg (· + 1) hlen).trans ho.size
  · exact (hmem hv).elim (fun h => h.trans_le hm) (ho.match_le v)
  · exact (hmem hv).elim (fun h => h.trans_le hs) (ho.seq_le v)

theorem Orderly.progress_le (ho : Orderly self) {p : NodeID} {x : Progress}
    (hx : self.role.progress.get p = some x) :
    x.matchIndex ≤ self.log.entries.length ∧ x.readSeq ≤ self.role.readSeq :=
  ⟨ho.match_le _ (List.mem_map_of_mem (OrderedMap.mem_values_of_get hx)),
    ho.seq_le _ (List.mem_map_of_mem (OrderedMap.mem_values_of_get hx))⟩

theorem Commits.setProgress (hc : Commits self) {p : NodeID} {x y : Progress}
    (hx : self.role.progress.get p = some x) (hm : y.matchIndex = x.matchIndex) :
    Commits (self.setProgress p y) := by
  have h : (self.setProgress p y).role.progress.values.map Progress.matchIndex =
      self.role.progress.values.map Progress.matchIndex := OrderedMap.map_values_insert hx hm
  rw [Commits, RawNode.matchIndexes, h]
  exact hc

theorem Serves.setProgress (hs : Serves self) {p : NodeID} {x y : Progress}
    (hx : self.role.progress.get p = some x) (hr : y.readSeq = x.readSeq) :
    Serves (self.setProgress p y) := by
  have h : (self.setProgress p y).role.progress.values.map Progress.readSeq =
      self.role.progress.values.map Progress.readSeq := OrderedMap.map_values_insert hx hr
  rw [Serves, RawNode.readSeqs, h]
  exact hs

/-- Recording a confirmed read sequence number executes the reads it makes ready. -/
theorem ends_advanceRead (hs : Settled self) (p : NodeID) {seq : ℕ}
    (hseq : seq ≤ self.role.readSeq) :
    Ends (self.advanceRead sm p seq) fun node => node.log = self.log ∧ Settled node := by
  unfold RawNode.advanceRead
  refine (ends_progress p).bind fun x hx => ?_
  rw [Progress.advanceRead]
  by_cases hadv : seq ≤ x.readSeq
  · rw [if_pos hadv]
    exact costless_pure ⟨rfl, (alike_setProgress hx rfl rfl).settled hs⟩
  · rw [if_neg hadv]
    have ho := hs.toOrderly.setProgress (y := { x with readSeq := seq }) hx
      (hs.progress_le hx).1 hseq
    exact (ends_maybeRead ho).mono
      fun node h => ⟨h.1, h.2.1, h.2.2.2 (hs.commits.setProgress hx rfl), h.2.2.1⟩

/-- Recording a match index commits and applies what it replicated to a majority. -/
theorem ends_advanceMatch (hs : Settled self) (p : NodeID) {matchIndex : ℕ}
    (hm : matchIndex ≤ self.log.entries.length) :
    Ends (self.advanceMatch sm p matchIndex) Settled := by
  unfold RawNode.advanceMatch
  refine (ends_progress p).bind fun x hx => ?_
  rw [Progress.advance]
  by_cases hadv : matchIndex ≤ x.matchIndex
  · rw [if_pos hadv]
    exact costless_pure ((alike_setProgress hx rfl rfl).settled hs)
  · rw [if_neg hadv]
    have ho := hs.toOrderly.setProgress (y := { x with
      matchIndex := matchIndex, nextIndex := max x.nextIndex (matchIndex + 1) }) hx hm
      (hs.progress_le hx).2
    exact (ends_maybeCommitAndApply ho (hs.serves.setProgress hx rfl)).bind
      fun r hr => costless_pure hr

theorem ends_stepHeartbeatResponse (hs : Settled self) (msg : Envelope) (matchIndex readSeq : ℕ) :
    Ends (self.stepHeartbeatResponse sm msg matchIndex readSeq) Settled := by
  unfold RawNode.stepHeartbeatResponse
  rw [Log.getLastIndex_eq hs.indexed]
  refine ends_assert.bind fun _ hm => ends_assert.bind fun _ hseq => ?_
  refine (ends_advanceRead hs msg.sender hseq).bind fun node ⟨hlog, hn⟩ => ?_
  refine costless_ite (fun _ => ?_) fun _ => ends_advanceMatch hn _ (hlog ▸ hm)
  unfold RawNode.probeLast
  simp only [bind_assoc]
  refine (ends_progress _).bind fun x hx => ?_
  have hprobe : Alike node (node.setProgress msg.sender
      (x.regressNext self.log.entries.length).2) := by
    refine alike_setProgress hx ?_ ?_ <;> unfold Progress.regressNext <;> split_ifs <;> rfl
  refine (ends_maybeSendAppend _ _).bind fun node' hn' => ?_
  have ha := hprobe.trans hn'
  exact ends_advanceMatch (ha.settled hn) _ (by rw [ha.log, hlog]; exact hm)

theorem ends_stepAppended (hs : Settled self) (msg : Envelope) (matchIndex : ℕ) :
    Ends (self.stepAppended sm msg matchIndex) Settled := by
  unfold RawNode.stepAppended
  rw [Log.getLastIndex_eq hs.indexed]
  refine ends_assert.bind fun _ hm => (ends_advanceMatch hs _ hm).bind fun node hn => ?_
  exact (ends_maybeSendAppend _ _).mono fun _ h => h.settled hn

theorem ends_stepRejected (hs : Settled self) (msg : Envelope) (rejectIndex : ℕ) :
    Ends (self.stepRejected msg rejectIndex) Settled := by
  unfold RawNode.stepRejected
  refine ends_assert.bind fun _ _ => (ends_progress _).bind fun x hx => ?_
  have hprobe : Alike self (self.setProgress msg.sender (x.regressNext rejectIndex).2) := by
    refine alike_setProgress hx ?_ ?_ <;> unfold Progress.regressNext <;> split_ifs <;> rfl
  refine costless_ite (fun _ => costless_pure hs) fun _ => costless_ite (fun _ => ?_)
    fun _ => costless_pure (hprobe.settled hs)
  exact (ends_maybeSendAppend _ _).mono fun _ h => (hprobe.trans h).settled hs

/-! ### Client requests -/

/-- An entry at the end of the log is not applied or committed yet. -/
theorem Orderly.appended (ho : Orderly self) (command : Option Bytes) :
    Orderly (self.appended command) :=
  { ho with
    indexed := ho.indexed.concat rfl
    state_initial := ho.state_initial.trans (List.prefix_append _ _)
    match_le := fun v hv => by
      have := ho.match_le v hv
      simp only [RawNode.appended, List.length_append]
      omega }

/-- A majority of values is at most a bound of them all. -/
theorem RawNode.majority_le {R : Type} {self : RawNode R} {values : List ℕ} {n : ℕ}
    (hlen : values.length = self.clusterSize) (h : ∀ v ∈ values, v ≤ n) :
    self.majority values ≤ n := by
  by_contra hlt
  have hcount := (RawNode.le_majority_iff hlen _).mp (not_le.mp hlt)
  rw [List.countP_eq_zero.mpr fun v hv => by simpa using h v hv, RawNode.quorumSize] at hcount
  omega

/-- With other nodes in the cluster, an appended entry is replicated to no majority. -/
theorem Commits.appended (hc : Commits self) (ho : Orderly self) (hone : self.clusterSize ≠ 1)
    (command : Option Bytes) : Commits (self.appended command) := by
  have hlast := Log.getLastIndex_eq ho.indexed
  have hlast' := Log.getLastIndex_eq (ho.appended command).indexed
  have hmajority : (self.appended command).majority (self.appended command).matchIndexes =
      self.majority self.matchIndexes := by
    rw [RawNode.matchIndexes, RawNode.matchIndexes, hlast, hlast']
    exact RawNode.majority_advance (by rw [List.length_map]; exact ho.size) hone ho.match_le
      (by simp [RawNode.appended])
  have hle : self.majority self.matchIndexes ≤ self.log.entries.length := by
    refine RawNode.majority_le (by simpa [RawNode.matchIndexes] using ho.size) fun v hv => ?_
    rw [RawNode.matchIndexes, hlast, List.mem_append, List.mem_singleton] at hv
    exact hv.elim (ho.match_le v) fun h => h.le
  intro e he ht
  rw [hmajority] at he ⊢
  refine hc e ?_ ht
  cases hk : self.majority self.matchIndexes with
  | zero => rw [hk] at he; cases he
  | succ k =>
      rw [hk] at he hle
      change (self.log.entries ++ _)[k]? = some e at he
      rwa [List.getElem?_append_left (by omega)] at he

/-- A write waits for its entry to be applied. -/
theorem Orderly.waiting (ho : Orderly self) {index : ℕ} (hi : index = self.log.entries.length)
    (hs : self.state.length < self.log.entries.length) (w : Write) :
    Orderly { self with role := { self.role with writes := self.role.writes.insert index w } } :=
  { ho with
    write_lt := fun {k w'} hk => by
      rw [OrderedMap.get_insert] at hk
      split_ifs at hk with heq
      · rw [heq, hi]
        exact hs
      · exact ho.write_lt hk }

theorem ends_stepWrite (hs : Settled self) (msg : Envelope) (id : RequestID) (command : Bytes) :
    Ends (self.stepRequest sm msg id (.write command)) Settled := by
  unfold RawNode.stepRequest
  refine Costless.bind (costless_emit rfl) fun _ _ =>
    (ends_propose hs.indexed _).bind fun r ⟨ha, hi⟩ => ?_
  have ho := ha.orderly (hs.toOrderly.appended (some command))
  have hserves := ha.serves (a := self.appended (some command)) hs.serves
  have hstate : r.1.state = self.state := ha.state
  have hlen : r.1.log.entries.length = self.log.entries.length + 1 := by
    rw [ha.log]
    exact List.length_append
  have hw := ho.waiting (show r.2 = _ by omega)
    (by rw [hstate, hlen]; exact Nat.lt_succ_of_le hs.state_initial.length_le) ⟨msg.sender, id⟩
  refine costless_ite (fun _ => ?_) fun hone => costless_pure ⟨hw, ?_, hserves⟩
  · exact (ends_maybeCommitAndApply hw hserves).bind fun _ h => costless_pure h
  · refine ha.commits (hs.commits.appended hs.toOrderly ?_ _)
    have hpeers : r.1.peers = self.peers := ha.peers
    simpa [RawNode.clusterSize, hpeers] using hone

theorem ends_stepRead (hs : Settled self) (msg : Envelope) (id : RequestID) (command : Bytes) :
    Ends (self.stepRequest sm msg id (.read command)) Settled := by
  unfold RawNode.stepRequest
  refine Costless.bind (costless_emit rfl) fun _ _ => (ends_broadcast _ _).bind fun _ _ => ?_
  set read : Read := ⟨self.role.readSeq + 1, msg.sender, id, command⟩ with hread
  set node : RawNode Leader := { self with role := { self.role with
    readSeq := self.role.readSeq + 1, reads := self.role.reads ++ [read] } } with hnode
  have ho : Orderly node := { hs.toOrderly with
    seq_le := fun v hv => (hs.seq_le v hv).trans (Nat.le_succ _)
    reads_sorted := List.pairwise_append.mpr ⟨hs.reads_sorted, List.pairwise_singleton _ _,
      fun a ha b hb => by
        rw [List.mem_singleton.mp hb]
        exact Nat.lt_succ_of_le (hs.reads_le a ha)⟩
    reads_le := fun r hr => by
      rcases List.mem_append.mp hr with hr | hr
      · exact (hs.reads_le r hr).trans (Nat.le_succ _)
      · rw [List.mem_singleton.mp hr] }
  refine costless_ite (fun _ => ?_) fun hone => costless_pure ⟨ho, hs.commits, fun hterm r hr => ?_⟩
  · exact (ends_maybeRead ho).mono fun _ h => ⟨h.2.1, h.2.2.2 hs.commits, h.2.2.1⟩
  -- the leader is ahead of all others, so a majority confirmed no more than before
  have hmajority : node.majority node.readSeqs = self.majority self.readSeqs :=
    @RawNode.majority_advance _ node _ _ _ (by rw [List.length_map]; exact hs.size) hone hs.seq_le
      (Nat.le_succ _)
  rw [hmajority]
  rcases List.mem_append.mp hr with hr | hr
  · exact hs.serves hterm r hr
  · rw [List.mem_singleton.mp hr]
    refine Nat.lt_succ_of_le (RawNode.majority_le ?_ fun v hv => ?_)
    · simpa [RawNode.readSeqs] using hs.size
    · rw [RawNode.readSeqs, List.mem_append, List.mem_singleton] at hv
      exact hv.elim (hs.seq_le v) fun h => h.le

/-- Every message of the term leaves the leader settled, if a read is confirmed only
after it was requested. -/
theorem ends_stepLeaderMessage (hs : Settled self) (msg : Envelope)
    (hread : ∀ seq, msg.message = .readResponse seq → seq ≤ self.role.readSeq) :
    Ends (self.stepLeaderMessage sm msg) Settled := by
  unfold RawNode.stepLeaderMessage
  cases hmsg : msg.message with
  | heartbeatResponse matchIndex readSeq => exact ends_stepHeartbeatResponse hs msg _ _
  | appendResponse matchIndex rejectIndex =>
      exact costless_ite (fun _ => ends_stepAppended hs msg _) fun _ =>
        costless_ite (fun _ => ends_stepRejected hs msg _) fun _ => ends_panic
  | readResponse seq => exact (ends_advanceRead hs _ (hread seq hmsg)).mono fun _ h => h.2
  | clientRequest id request =>
      cases request with
      | write command => exact ends_stepWrite hs msg id command
      | read command => exact ends_stepRead hs msg id command
      | status => exact (ends_send _ _ _).bind fun _ _ => costless_pure hs
  | campaign lastIndex lastTerm => exact (ends_send _ _ _).bind fun _ _ => costless_pure hs
  | campaignResponse vote => exact costless_pure hs
  | heartbeat lastIndex commitIndex readSeq => exact ends_panic
  | append baseIndex baseTerm entries => exact ends_panic
  | read seq => exact ends_panic
  | clientResponse id response => exact ends_panic

end Leader

/-! ## Followers and candidates -/

/-- The second node stores, commits and applies what the first does. -/
structure Idles {R T : Type} (node : RawNode R) (node' : RawNode T) : Prop where
  entries : node'.log.entries = node.log.entries
  commitIndex : node'.log.commitIndex = node.log.commitIndex
  state : node'.state = node.state
  peers : node'.peers = node.peers

/-- The node has applied as much as it committed. -/
def CaughtUp {R : Type} (node : RawNode R) : Prop := node.log.commitIndex ≤ node.state.length

/-- What holds of a node between its steps. -/
def Node.Ready : Node → Prop
  | follower node => CaughtUp node
  | candidate node => CaughtUp node
  | leader node => Settled node

section Idle
variable {R T : Type} {a : RawNode R} {b : RawNode T}

theorem Idles.refl (a : RawNode R) : Idles a a := ⟨rfl, rfl, rfl, rfl⟩

theorem Idles.trans {U : Type} {c : RawNode U} (h : Idles a b) (h' : Idles b c) : Idles a c where
  entries := h'.entries.trans h.entries
  commitIndex := h'.commitIndex.trans h.commitIndex
  state := h'.state.trans h.state
  peers := h'.peers.trans h.peers

theorem AppliesAll.idles (ha : AppliesAll a) (h : Idles a b) : AppliesAll b where
  indexed := h.entries ▸ ha.indexed
  state_initial := by rw [h.entries, h.state]; exact ha.state_initial
  commit_le := by rw [h.commitIndex, h.state]; exact ha.commit_le

theorem ends_setTermVote (l : Log) (term : ℕ) (vote : Option NodeID) :
    Ends (l.setTermVote term vote) fun l' =>
      l'.entries = l.entries ∧ l'.commitIndex = l.commitIndex := by
  unfold Log.setTermVote
  refine ends_assert.bind fun _ _ => ends_assert.bind fun _ _ => ends_assert.bind fun _ _ =>
    costless_ite (fun _ => costless_pure ⟨rfl, rfl⟩) fun _ => ?_
  exact Costless.bind (costless_emit rfl) fun _ _ => costless_pure ⟨rfl, rfl⟩

theorem ends_splice (l : Log) (entries : List Entry) :
    Ends (l.splice entries) fun r => r.1.commitIndex = l.commitIndex := by
  have hskip : ∀ stored entries : List Entry,
      Ends (Log.skipPresent stored entries) fun _ => True := by
    intro stored
    induction stored with
    | nil => exact fun _ => costless_pure trivial
    | cons entry stored ih =>
        intro entries
        cases entries with
        | nil => exact ends_panic
        | cons new entries =>
            exact ends_assert.bind fun _ _ => costless_ite (fun _ => costless_pure trivial)
              fun _ => ends_assert.bind fun _ _ => ih entries
  have hwrite : ∀ entries k, Ends (l.writeMissing entries k) fun r =>
      r.1.commitIndex = l.commitIndex := by
    intro entries k
    unfold Log.writeMissing
    split
    · exact costless_pure rfl
    · exact ends_assert.bind fun _ _ => Costless.bind (costless_emit rfl)
        fun _ _ => costless_pure rfl
  unfold Log.splice
  split
  · refine ends_assert.bind fun _ _ => ends_assert.bind fun _ _ => ends_assert.bind fun _ _ =>
      ends_assert.bind fun _ _ => ?_
    split <;> exact ends_assert.bind fun _ _ => (hskip _ _).bind fun _ _ => hwrite _ _
  · exact costless_pure rfl

theorem ends_draw {f : List ℕ → ℕ × List ℕ} :
    Ends (Program.draw f : Action ℕ) fun _ => True := costless_draw

end Idle

section Follower
variable {self : RawNode Follower} {sm : StateMachine}

theorem ends_abortForwarded : Ends self.abortForwarded (Idles self) := by
  unfold RawNode.abortForwarded
  exact (costless_forM fun _ _ => ends_send _ _ _).bind
    fun _ _ => costless_pure ⟨rfl, rfl, rfl, rfl⟩

theorem ends_intoFollower (term : ℕ) (leader : Option NodeID) :
    Ends (self.intoFollower term leader) (Idles self) := by
  unfold RawNode.intoFollower
  refine ends_assert.bind fun _ _ => ends_abortForwarded.bind fun node hn => ?_
  cases leader with
  | some leader =>
      exact ends_assert.bind fun _ _ => ends_assert.bind fun _ _ => ends_assert.bind fun _ _ =>
        costless_pure ⟨hn.entries, hn.commitIndex, hn.state, hn.peers⟩
  | none =>
      refine ends_assert.bind fun _ _ => (ends_setTermVote _ _ _).bind fun l hl => ?_
      exact ends_draw.bind fun _ _ => costless_pure
        ⟨hl.1.trans hn.entries, hl.2.trans hn.commitIndex, hn.state, hn.peers⟩

theorem ends_checkLeader (msg : Envelope) : Ends (self.checkLeader msg) (Idles self) := by
  unfold RawNode.checkLeader
  split
  · exact ends_assert.bind fun _ _ => costless_pure (.refl self)
  · exact ends_intoFollower _ _

theorem ends_stepHeartbeat (ha : AppliesAll self) (msg : Envelope) (lastIndex commitIndex readSeq : ℕ) :
    Ends (self.stepHeartbeat sm msg lastIndex commitIndex readSeq) CaughtUp := by
  unfold RawNode.stepHeartbeat
  refine ends_assert.bind fun _ _ => (ends_checkLeader msg).bind fun node hn => ?_
  have ha' := ha.idles hn
  refine (ends_send _ _ _).bind fun _ _ => costless_ite (fun _ => ?_)
    fun _ => costless_pure ha'.commit_le
  refine (ends_commit ha'.indexed _).bind fun l ⟨hle, _, e, he, hl⟩ => ?_
  refine (@ends_maybeApply _ _ { node with log := l } (hle ▸ ha'.indexed)
    (hle ▸ ha'.state_initial) ?_).mono fun _ h => h.2.2.2.commit_le
  rcases hl with ⟨hk, _⟩ | ⟨rfl, _⟩
  · simp only [hk, hle]
    exact Log.le_of_get he
  · exact ha'.commit_le.trans ha'.state_initial.length_le

theorem ends_stepAppend (ha : AppliesAll self) (msg : Envelope) (baseIndex baseTerm : ℕ)
    (entries : List Entry) : Ends (self.stepAppend msg baseIndex baseTerm entries) CaughtUp := by
  unfold RawNode.stepAppend
  refine ends_assert.bind fun _ _ => (ends_checkLeader msg).bind fun node hn => ?_
  have hc := (ha.idles hn).commit_le
  refine costless_ite (fun _ => ?_) fun _ => (ends_send _ _ _).bind fun _ _ => costless_pure hc
  refine (ends_splice _ _).bind fun r hr => (ends_send _ _ _).bind fun _ _ => costless_pure ?_
  rw [CaughtUp]
  exact hr.trans_le hc

theorem ends_stepCampaign (hc : CaughtUp self) (msg : Envelope) (lastIndex lastTerm : ℕ) :
    Ends (self.stepCampaign msg lastIndex lastTerm) CaughtUp := by
  have hvote : Ends (self.stepVote msg lastIndex lastTerm) CaughtUp := by
    unfold RawNode.stepVote
    refine costless_ite (fun _ => (ends_send _ _ _).bind fun _ _ => costless_pure hc) fun _ => ?_
    exact (ends_setTermVote _ _ _).bind fun l hl => (ends_send _ _ _).bind
      fun _ _ => costless_pure (hl.2.trans_le hc)
  unfold RawNode.stepCampaign
  split
  · exact costless_ite (fun _ => (ends_send _ _ _).bind fun _ _ => costless_pure hc) fun _ => hvote
  · exact hvote

theorem ends_stepMessage (ha : AppliesAll self) (msg : Envelope) :
    Ends (self.stepMessage sm msg) CaughtUp := by
  unfold RawNode.stepMessage
  set role : Follower := if some msg.sender = self.role.leader then
    { self.role with leaderSeen := 0 } else self.role
  set node : RawNode Follower := { self with role := role }
  have ha' : AppliesAll node := ha.idles ⟨rfl, rfl, rfl, rfl⟩
  have hc : CaughtUp node := ha'.commit_le
  cases hmsg : msg.message with
  | heartbeat lastIndex commitIndex readSeq => exact ends_stepHeartbeat ha' msg _ _ _
  | append baseIndex baseTerm entries => exact ends_stepAppend ha' msg _ _ _
  | read seq =>
      exact (ends_checkLeader msg).bind fun node' hn => (ends_send _ _ _).bind
        fun _ _ => costless_pure (ha'.idles hn).commit_le
  | campaign lastIndex lastTerm => exact ends_stepCampaign hc msg _ _
  | clientRequest id request =>
      refine ends_assert.bind fun _ _ => ?_
      split <;> exact (ends_send _ _ _).bind fun _ _ => costless_pure hc
  | clientResponse id response =>
      exact ends_assert.bind fun _ _ => costless_ite (fun _ => (ends_send _ _ _).bind
        fun _ _ => costless_pure hc) fun _ => costless_pure hc
  | campaignResponse vote => exact costless_pure hc
  | heartbeatResponse matchIndex readSeq => exact ends_panic
  | appendResponse matchIndex rejectIndex => exact ends_panic
  | readResponse seq => exact ends_panic

theorem ends_stepFollower (ha : AppliesAll self) (msg : Envelope) :
    Ends (self.stepFollower sm msg) Node.Ready := by
  unfold RawNode.stepFollower
  refine costless_ite (fun _ => costless_pure ha.commit_le) fun _ => costless_ite (fun _ => ?_)
    fun _ => (ends_stepMessage ha msg).bind fun _ h => costless_pure h
  exact (ends_intoFollower _ _).bind fun _ hn => (ends_stepMessage (ha.idles hn) msg).bind
    fun _ h => costless_pure h

theorem ends_campaign {self : RawNode Candidate} : Ends self.campaign (Idles self) := by
  unfold RawNode.campaign
  exact ends_draw.bind fun _ _ => (ends_setTermVote _ _ _).bind fun l hl =>
    (ends_broadcast _ _).bind fun _ _ => costless_pure ⟨hl.1, hl.2, rfl, rfl⟩

/-- A candidate starts with everything committed applied. -/
theorem ends_intoCandidate (ha : AppliesAll self) :
    Ends (self.intoCandidate sm) fun node => AppliesAll node ∧ node.peers = self.peers := by
  unfold RawNode.intoCandidate
  refine ends_abortForwarded.bind fun node hn => ?_
  have ha' := ha.idles hn
  refine (ends_maybeApply ha'.indexed ha'.state_initial
    (ha'.commit_le.trans ha'.state_initial.length_le)).bind fun node₁ h₁ => ?_
  refine ends_draw.bind fun t _ => ends_campaign.bind fun node₂ h₂ => ?_
  refine ends_assert.bind fun _ _ => ends_assert.bind fun _ _ => ends_assert.bind
    fun _ _ => costless_pure ⟨?_, ?_⟩
  · exact h₁.2.2.2.idles (Idles.trans (b := node₁.intoRole (Candidate.new t))
      ⟨rfl, rfl, rfl, rfl⟩ h₂)
  · exact h₂.peers.trans (h₁.2.2.1.trans hn.peers)

theorem ends_tickFollower (ha : AppliesAll self) : Ends (self.tickFollower sm) Node.Ready := by
  unfold RawNode.tickFollower
  have ha' : AppliesAll { self with role := { self.role with
    leaderSeen := self.role.leaderSeen + 1 } } := ha.idles ⟨rfl, rfl, rfl, rfl⟩
  exact costless_ite (fun _ => (ends_intoCandidate ha').bind
    fun _ h => costless_pure h.1.commit_le) fun _ => costless_pure ha'.commit_le

end Follower

/-! ## Elections -/

section Candidate
variable {self : RawNode Candidate} {sm : StateMachine}

/-- A new leader knows nothing of its followers and has no requests. -/
theorem orderly_new (ha : AppliesAll self) (hp : self.peers.Nodup) (last : ℕ) :
    Orderly (self.intoRole (Leader.new self.peers last)) := by
  have hzero : ∀ x ∈ (Leader.new self.peers last).progress.values,
      x.matchIndex = 0 ∧ x.readSeq = 0 := by
    intro x hx
    obtain ⟨p, hx⟩ := OrderedMap.mem_values hx
    rw [Leader.new_get] at hx
    split_ifs at hx
    obtain rfl := Option.some.inj hx
    exact ⟨rfl, rfl⟩
  have hkeys : ((Leader.new self.peers last).progress.keys).Perm self.peers := by
    refine (List.perm_ext_iff_of_nodup (OrderedMap.keys_nodup _) hp).mpr fun p => ?_
    rw [OrderedMap.mem_keys, Leader.new_get]
    split_ifs with h <;> simp [h]
  refine {
    toAppliesAll := ha.idles ⟨rfl, rfl, rfl, rfl⟩
    size := ?_
    match_le := ?_
    seq_le := ?_
    write_lt := fun h => nomatch h
    reads_sorted := .nil
    reads_le := fun r hr => nomatch hr }
  · have hlen := hkeys.length_eq
    rw [OrderedMap.keys, List.length_map] at hlen
    rw [OrderedMap.values, List.length_map]
    exact congrArg (· + 1) hlen
  · intro v hv
    obtain ⟨x, hx, rfl⟩ := List.mem_map.mp hv
    exact (hzero x hx).1.trans_le (Nat.zero_le _)
  · intro v hv
    obtain ⟨x, hx, rfl⟩ := List.mem_map.mp hv
    exact (hzero x hx).2.trans_le (Nat.zero_le _)

theorem ends_intoLeader (ha : AppliesAll self) (hp : self.peers.Nodup) :
    Ends (self.intoLeader sm) Settled := by
  unfold RawNode.intoLeader
  refine ends_assert.bind fun _ _ => ends_assert.bind fun _ _ =>
    Costless.bind (costless_emit rfl) fun _ _ => ?_
  set node := self.intoRole (Leader.new self.peers self.log.getLastIndex.1) with hnode
  have ho : Orderly node := orderly_new ha hp _
  refine (ends_propose ho.indexed none).bind fun r ⟨hr, _⟩ => ?_
  have hserves : Serves (node.appended none) := fun _ r hr => by cases hr
  refine (ends_maybeCommitAndApply (hr.orderly (ho.appended none)) (hr.serves hserves)).bind
    fun r hs => ?_
  exact ends_heartbeat.mono fun _ h => h.settled hs

theorem ends_candidateIntoFollower (term : ℕ) (leader : Option NodeID) :
    Ends (self.candidateIntoFollower term leader) (Idles self) := by
  unfold RawNode.candidateIntoFollower
  refine ends_draw.bind fun _ _ => ?_
  cases leader with
  | some leader => exact ends_assert.bind fun _ _ => costless_pure ⟨rfl, rfl, rfl, rfl⟩
  | none =>
      exact ends_assert.bind fun _ _ => (ends_setTermVote _ _ _).bind
        fun l hl => costless_pure ⟨hl.1, hl.2, rfl, rfl⟩

theorem ends_stepCandidate (ha : AppliesAll self) (hp : self.peers.Nodup) (msg : Envelope) :
    Ends (self.stepCandidate sm msg) Node.Ready := by
  have hfollow : ∀ leader, Ends (self.candidateIntoFollower msg.term leader >>= fun node =>
      node.stepFollower sm msg) Node.Ready := fun leader =>
    (ends_candidateIntoFollower _ leader).bind fun _ hn => ends_stepFollower (ha.idles hn) msg
  have hdone : Node.Ready (.candidate self) := ha.commit_le
  unfold RawNode.stepCandidate
  refine costless_ite (fun _ => costless_pure hdone) fun _ => costless_ite (fun _ => hfollow none)
    fun _ => ?_
  cases hmsg : msg.message with
  | campaignResponse vote =>
      cases vote with
      | false => exact costless_pure hdone
      | true =>
          refine costless_ite (fun _ => ?_) fun _ => costless_pure ha.commit_le
          exact (ends_intoLeader (ha.idles ⟨rfl, rfl, rfl, rfl⟩) hp).bind
            fun _ h => costless_pure h
  | campaign lastIndex lastTerm => exact (ends_send _ _ _).bind fun _ _ => costless_pure hdone
  | heartbeat lastIndex commitIndex readSeq => exact hfollow _
  | append baseIndex baseTerm entries => exact hfollow _
  | read seq => exact hfollow _
  | clientRequest id request => exact (ends_send _ _ _).bind fun _ _ => costless_pure hdone
  | heartbeatResponse matchIndex readSeq => exact ends_panic
  | appendResponse matchIndex rejectIndex => exact ends_panic
  | readResponse seq => exact ends_panic
  | clientResponse id response => exact ends_panic

theorem ends_tickCandidate (hc : CaughtUp self) : Ends self.tickCandidate Node.Ready := by
  unfold RawNode.tickCandidate
  refine costless_ite (fun _ => ?_) fun _ => costless_pure hc
  refine ends_campaign.bind fun _ h => costless_pure ?_
  change _ ≤ _
  rw [h.commitIndex, h.state]
  exact hc

end Candidate

section Steps
variable {self : RawNode Leader} {sm : StateMachine}

theorem ends_leaderIntoFollower (term : ℕ) :
    Ends (self.leaderIntoFollower term) (Idles self) := by
  unfold RawNode.leaderIntoFollower
  refine ends_assert.bind fun _ _ => (costless_forM fun _ _ => ends_send _ _ _).bind
    fun _ _ => (costless_forM fun _ _ => ends_send _ _ _).bind fun _ _ => ?_
  exact (ends_setTermVote _ _ _).bind fun l hl => ends_draw.bind
    fun _ _ => costless_pure ⟨hl.1, hl.2, rfl, rfl⟩

theorem ends_stepLeader (hs : Settled self) (msg : Envelope)
    (hread : ∀ seq, msg.message = .readResponse seq → msg.term = self.term →
      seq ≤ self.role.readSeq) : Ends (self.stepLeader sm msg) Node.Ready := by
  unfold RawNode.stepLeader
  refine costless_ite (fun _ => costless_pure hs) fun h₁ => costless_ite (fun _ => ?_) fun h₂ => ?_
  · exact (ends_leaderIntoFollower _).bind fun _ h => ends_stepFollower (hs.toAppliesAll.idles h) msg
  · exact (ends_stepLeaderMessage hs msg fun seq hm => hread seq hm (by omega)).bind
      fun _ h => costless_pure h

theorem ends_tickLeader (hs : Settled self) : Ends self.tickLeader Node.Ready := by
  unfold RawNode.tickLeader
  have hs' : Settled { self with role := { self.role with
      sinceHeartbeat := self.role.sinceHeartbeat + 1 } } :=
    Alike.settled (a := self) ⟨rfl, rfl, rfl, rfl, rfl, rfl, rfl, rfl⟩ hs
  exact costless_ite (fun _ => ends_heartbeat.bind fun _ h => costless_pure (h.settled hs'))
    fun _ => costless_pure hs'

/-- A node starts with everything committed applied. -/
theorem ends_new {id : NodeID} {peers : List NodeID} {log : Log} {state : List Entry}
    {opts : Options} (hp : peers.Nodup) (hi : Indexed log.entries) (hst : state <+: log.entries)
    (hc : log.commitIndex ≤ log.entries.length) :
    Ends (Node.new id peers log state opts sm) Node.Ready := by
  unfold Node.new RawNode.new
  simp only [bind_assoc]
  refine Costless.bind costless_ensure fun _ _ => ends_draw.bind fun t _ => ?_
  refine (@ends_maybeApply _ _ ⟨id, peers, log, state, opts, _⟩ hi hst hc).bind
    fun node hn => ?_
  obtain ⟨-, -, hpeers, ha⟩ := hn
  refine costless_ite (fun _ => ?_) fun _ => costless_pure ha.commit_le
  exact (ends_intoCandidate ha).bind fun c hc => (ends_intoLeader hc.1
    (by rw [hc.2, hpeers]; exact hp)).bind fun _ h => costless_pure h

end Steps

/-! ## Runs of the cluster -/

section Worlds
variable {cfg : Config} {h : History} {w w' : World} {i : NodeID}

theorem RunsAt.applied {R : Type} {self : RawNode R} {g : Point cfg i} (hr : RunsAt self g)
    (hc : CaughtUp self) : AppliesAll self :=
  ⟨hr.indexed, hr.stored.state_initial, hc⟩

theorem Member.peers_nodup {R : Type} {self : RawNode R} (hm : Member cfg i self) :
    self.peers.Nodup :=
  hm.peers ▸ cfg.peers_nodup i

/-- A message leaves a node ready that the history describes. -/
theorem ends_step {startTerm : ℕ} {node : Node} {g : Point cfg i} (hn : NodeAt startTerm node g)
    (hr : node.Ready) {msg : Envelope} (hm : Inbound cfg g.hist i node.term msg) :
    Ends (node.step cfg.sm msg) Node.Ready := by
  unfold Node.step
  refine ends_assert.bind fun _ _ => ends_assert.bind fun _ _ => ?_
  cases node with
  | candidate node =>
      exact ends_stepCandidate (hn.toRunsAt.applied hr) hn.toMember.peers_nodup msg
  | follower node => exact ends_stepFollower (hn.toRunsAt.applied hr) msg
  | leader node =>
      refine ends_stepLeader hr msg fun seq hmsg hterm => ?_
      cases hm with
      | submitted id request hr he =>
          rw [he] at hmsg
          cases hmsg
      | delivered hs ht hne =>
          have hmeans := hs.means
          rw [hmsg, ht, hterm] at hmeans
          exact hmeans.reads.trans hn.1.role.seq.ge

theorem ends_tick {startTerm : ℕ} {node : Node} {g : Point cfg i} (hn : NodeAt startTerm node g)
    (hr : node.Ready) : Ends (node.tick cfg.sm) Node.Ready := by
  cases node with
  | candidate node => exact ends_tickCandidate hr
  | follower node => exact ends_tickFollower (hn.toRunsAt.applied hr)
  | leader node => exact ends_tickLeader hr

/-- Every running node is ready. -/
def World.Ready (w : World) : Prop :=
  ∀ i node startTerm, w.process i = .up node startTerm → node.Ready

theorem World.Ready.execute (hw : w.Ready) {disk : Disk} {startTerm : ℕ} {program : Action Node}
    (hp : Ends program Node.Ready) (supply : List ℕ) (cut : Option ℕ) :
    (w.execute i disk startTerm program supply cut).Ready := by
  obtain ⟨_, _, _, _, _, hother, hown⟩ :=
    World.execute_cases w i disk startTerm program supply cut
  intro j node s hj
  by_cases hji : j = i
  · subst hji
    rcases hown with ⟨_, hdown⟩ | ⟨node', hup, hres, _⟩
    · rw [hdown] at hj
      cases hj
    · obtain ⟨rfl, _⟩ : node' = node ∧ startTerm = s := by simpa [hup] using hj
      exact hp.result hres
  · exact hw j node s (hother j hji ▸ hj)

theorem World.Ready.stepNode (hw : w.Ready) (hs : Describes cfg h w) {msg : Envelope}
    {supply : List ℕ} {cut : Option ℕ}
    (hm : ∀ node s, w.process msg.recipient = .up node s →
      Inbound cfg h msg.recipient node.term msg)
    (hstep : World.stepNode cfg w msg supply cut = some w') : w'.Ready := by
  simp only [World.stepNode] at hstep
  cases hp : w.process msg.recipient with
  | down disk => simp [hp] at hstep
  | up node startTerm =>
      rw [hp] at hstep
      have hn : ProcessOk cfg h msg.recipient (.up node startTerm) := hp ▸ hs.process msg.recipient
      obtain ⟨_, g, rfl, hn⟩ := hn
      obtain rfl := Option.some.inj hstep
      exact hw.execute (ends_step hn (hw _ _ _ hp) (hm _ _ hp)) supply cut

/-- Every action leaves the running nodes ready. -/
theorem World.Ready.step (hw : w.Ready) (hs : Describes cfg h w) {m : Move}
    (hstep : w.step cfg m = some w') : w'.Ready := by
  cases m with
  | run input supply cut =>
      cases input with
      | start id commitIndex applied =>
          simp only [World.step, World.input] at hstep
          cases hp : w.process id with
          | up node startTerm => simp [hp] at hstep
          | down disk =>
              rw [hp] at hstep
              simp only at hstep
              split_ifs at hstep
              obtain rfl := Option.some.inj hstep
              have hst : Stored h id disk.log disk.state := by
                have := hs.process id
                rwa [hp] at this
              have hr := hst.restore commitIndex applied
              exact hw.execute (ends_new (cfg.peers_nodup id)
                (hr.entries ▸ hs.inv.log_indexed id) hr.state_initial hr.commit_le) supply cut
      | tick id =>
          simp only [World.step, World.input] at hstep
          cases hp : w.process id with
          | down disk => simp [hp] at hstep
          | up node startTerm =>
              rw [hp] at hstep
              have hn : ProcessOk cfg h id (.up node startTerm) := hp ▸ hs.process id
              obtain ⟨_, g, _, hn⟩ := hn
              obtain rfl := Option.some.inj hstep
              exact hw.execute (ends_tick hn (hw _ _ _ hp)) supply cut
      | deliver position =>
          simp only [World.step, World.input] at hstep
          cases hmsg : w.network[position]? with
          | none => simp [hmsg] at hstep
          | some msg =>
              rw [hmsg] at hstep
              have hsent := hs.network msg (List.mem_of_getElem? hmsg)
              have hw' : World.Ready { w with network := w.network.eraseIdx position } := hw
              exact hw'.stepNode (hs.of_network fun env he => List.mem_of_mem_eraseIdx he)
                (fun _ _ _ => .delivered hsent.1 rfl hsent.2) hstep
      | submit id request body =>
          simp only [World.step, World.input] at hstep
          cases hp : w.process id with
          | down disk => simp [hp] at hstep
          | up node startTerm =>
              rw [hp] at hstep
              have hw' : World.Ready (w.mark id [.submitted request body]) := hw
              refine hw'.stepNode (hs.submit id request body) (fun node' s' hp' => ?_) hstep
              obtain ⟨rfl, _⟩ : node = node' ∧ startTerm = s' := by
                simpa [hp] using hp.symm.trans hp'
              exact .submitted request body (Or.inr ⟨rfl, rfl, rfl⟩) rfl
  | crash id =>
      simp only [World.step] at hstep
      cases hp : w.process id with
      | down disk => simp [hp] at hstep
      | up node startTerm =>
          rw [hp] at hstep
          obtain rfl := Option.some.inj hstep
          intro j node' s hj
          by_cases hji : j = id
          · simp [World.setProcess, hji] at hj
          · exact hw j node' s (by simpa [World.setProcess, Function.update_of_ne hji] using hj)
  | drop position =>
      obtain rfl := Option.some.inj hstep
      exact hw
  | duplicate position =>
      simp only [World.step] at hstep
      cases hmsg : w.network[position]? with
      | none => simp [hmsg] at hstep
      | some msg =>
          rw [hmsg] at hstep
          obtain rfl := Option.some.inj hstep
          exact hw

theorem World.Ready.run {moves : List Move} (hw : w.Ready) (hs : Describes cfg h w)
    (hrun : World.run cfg w moves = some w') : w'.Ready := by
  induction moves generalizing h w with
  | nil =>
      obtain rfl := Option.some.inj hrun
      exact hw
  | cons m moves ih =>
      obtain ⟨v, hv, hrun⟩ := Option.bind_eq_some_iff.mp hrun
      obtain ⟨marks, h', hc⟩ := hs.step hv
      exact ih (hw.step hs hv) hc.describes hrun

/-- No answerable request is left waiting: a leader has committed what a majority
replicated in its term, applied what is committed, answered the writes of applied
entries, and executed the reads a majority confirmed. -/
theorem no_request_waits (hr : World.Reachable cfg w) {node : RawNode Leader} {startTerm : ℕ}
    (hp : w.process i = .up (.leader node) startTerm) : Prompt node := by
  obtain ⟨moves, hrun⟩ := hr
  have hinit : World.init.Ready := fun _ _ _ hdown => by cases hdown
  exact (hinit.run describes_init hrun _ _ _ hp).prompt

/-- Node 1 leads after committing a write. -/
theorem no_request_waits_three : ∃ node startTerm, (World.after .three (Move.election ++
    [Move.submit 1 7 (.write [5]), Move.deliver 4, Move.deliver 5])).process 1 =
      .up (.leader node) startTerm ∧ Prompt node := by
  have hr := World.run_after (c := .three)
    (m := Move.election ++ [Move.submit 1 7 (.write [5]), Move.deliver 4, Move.deliver 5])
    (by decide +kernel)
  have hleads : ((World.after .three (Move.election ++
      [Move.submit 1 7 (.write [5]), Move.deliver 4, Move.deliver 5])).process 1).leads 1 := by
    decide +kernel
  obtain ⟨node, startTerm, hp, _⟩ := Process.leads_iff.mp hleads
  exact ⟨node, startTerm, hp, no_request_waits ⟨_, hr⟩ hp⟩

end Worlds
end ToyDB.Raft
