import ToyDB.Raft.Accounting

/-!
# Nodes pay their debts

A node owes an answer for each request of its own client that it forwarded as a
follower or holds as a leader. Every step of a node pays for its answers with these
debts, and for new debts and commands with the message it processes.
-/
namespace ToyDB.Raft
open ToyDB.Effects ToyDB.Collections

/-- The answers a follower owes its client. -/
def RawNode.owed (self : RawNode Follower) (id : RequestID) : ℕ := self.role.forwarded.count id

/-- A pending request with the ID from the node itself. -/
def owns (node : NodeID) (id : RequestID) (sender : NodeID) (x : RequestID) : Bool :=
  x = id ∧ sender = node

/-- The answers a leader owes its client. -/
def RawNode.owing (self : RawNode Leader) (id : RequestID) : ℕ :=
  (self.role.writes.values.countP fun w => owns self.id id w.sender w.id) +
    self.role.reads.countP fun r => owns self.id id r.sender r.id

def Node.owed (id : RequestID) : Node → ℕ
  | candidate _ => 0
  | follower node => node.owed id
  | leader node => node.owing id

/-- A budget of some answers and commands. -/
def Has (answers commands : ℕ) (g : ℕ × ℕ) : Prop := answers ≤ g.1 ∧ commands ≤ g.2

section Respond
variable {id : RequestID} {R : Type} {self : RawNode R} {k m : ℕ} {g : ℕ × ℕ}

theorem pays_respond {t : NodeID} {x : RequestID} {response : Except Error Response}
    (h : Has (k + (owns self.id id t x).toNat) m g) :
    Pays (charge id) (self.send t (.clientResponse x response)) (fun _ g' => Has k m g') g := by
  refine pays_emit (k := (g.1 - (owns self.id id t x).toNat, g.2)) ?_ ⟨?_, h.2⟩
  · have := h.1
    refine Prod.ext ?_ ?_
    · change g.1 = (owns self.id id t x).toNat + (g.1 - (owns self.id id t x).toNat)
      omega
    · exact (Nat.zero_add g.2).symm
  · have := h.1
    simp only
    omega

/-- Aborting pending requests. -/
theorem pays_abort {α : Type} (sender : α → NodeID) (x : α → RequestID) {l : List α}
    (h : Has (k + l.countP fun a => owns self.id id (sender a) (x a)) m g) :
    Pays (charge id) (l.forM fun a => self.send (sender a) (.clientResponse (x a) (.error .abort)))
      (fun _ g' => Has k m g') g := by
  induction l generalizing g with
  | nil => exact pays_pure h
  | cons a l ih =>
      refine Pays.bind (pays_respond (k := k + l.countP fun a => owns self.id id (sender a) (x a))
        ⟨?_, h.2⟩) fun _ g' h' => ih h'
      have := h.1
      rw [List.countP_cons] at this
      cases ho : owns self.id id (sender a) (x a) <;> simp [ho] at this ⊢ <;> omega

end Respond

/-! ## Followers -/

section Follower
variable {id : RequestID} {self : RawNode Follower} {k m : ℕ} {g : ℕ × ℕ}

/-- A follower that can pay what it owes. -/
abbrev Solvent (id : RequestID) (self : RawNode Follower) (g : ℕ × ℕ) : Prop := self.owed id ≤ g.1

theorem pays_abortForwarded (h : Has (self.owed id + k) m g) :
    Pays (charge id) self.abortForwarded (fun self' g' => self'.id = self.id ∧
      self'.role = { self.role with forwarded := [] } ∧ Has k m g') g := by
  unfold RawNode.abortForwarded
  refine Pays.bind (pays_abort (k := k) (m := m) (fun _ => self.id) (fun x => x) ⟨?_, h.2⟩)
    fun _ g' h' => pays_pure ⟨rfl, rfl, h'⟩
  have hcount : (self.role.forwarded.insertionSort (· ≤ ·)).countP (fun x => owns self.id id self.id x)
      = self.owed id := by
    rw [(List.perm_insertionSort _ _).countP_eq, RawNode.owed, List.count]
    exact List.countP_congr fun x _ => by simp [owns]
  have := h.1
  omega

theorem pays_intoCandidate (sm : StateMachine) (h : Solvent id self g) :
    Pays (charge id) (self.intoCandidate sm) (fun _ _ => True) g := by
  unfold RawNode.intoCandidate
  refine Pays.bind (pays_abortForwarded (k := 0) (m := 0) ⟨h, Nat.zero_le _⟩) fun _ _ _ => ?_
  exact (costless_maybeApply sm).then fun _ _ => costless_randomElectionTimeout.then fun _ _ =>
    costless_campaign.then fun _ _ => costless_assert.then fun _ _ => costless_assert.then fun _ _ =>
    costless_assert.then fun _ _ => pays_pure trivial

theorem pays_intoFollower (T : ℕ) (leader : Option NodeID) (h : Has (self.owed id + k) m g) :
    Pays (charge id) (self.intoFollower T leader) (fun self' g' => self'.id = self.id ∧
      self'.owed id = 0 ∧ Has k m g') g := by
  unfold RawNode.intoFollower
  refine costless_assert.then fun _ _ => Pays.bind (pays_abortForwarded h) ?_
  rintro self₁ g₁ ⟨hid, hrole, hg⟩
  cases leader with
  | some leader => exact costless_assert.then fun _ _ => costless_assert.then fun _ _ =>
      costless_assert.then fun _ _ => pays_pure ⟨hid, rfl, hg⟩
  | none => exact costless_assert.then fun _ _ => (costless_setTermVote _ _ _).then fun _ _ =>
      costless_randomElectionTimeout.then fun _ _ => pays_pure ⟨hid, rfl, hg⟩

theorem pays_checkLeader (msg : Envelope) (h : Solvent id self g) :
    Pays (charge id) (self.checkLeader msg) (Solvent id) g := by
  unfold RawNode.checkLeader
  split
  · exact costless_assert.then fun _ _ => pays_pure h
  · exact Pays.mono (pays_intoFollower (k := 0) (m := 0) _ _ ⟨h, Nat.zero_le _⟩)
      fun self' g' h' => h'.2.1.trans_le (Nat.zero_le _)

theorem pays_stepHeartbeat (sm : StateMachine) (msg : Envelope) (lastIndex commitIndex readSeq : ℕ)
    (h : Solvent id self g) :
    Pays (charge id) (self.stepHeartbeat sm msg lastIndex commitIndex readSeq) (Solvent id) g := by
  unfold RawNode.stepHeartbeat
  refine costless_assert.then fun _ _ => Pays.bind (pays_checkLeader msg h) fun self₁ g₁ h₁ =>
    (costless_send rfl).then fun _ _ => pays_ite (fun _ => ?_) fun _ => pays_pure h₁
  refine (costless_commit _ _).then fun l _ => (costless_maybeApply sm).last fun self₂ h₂ => ?_
  rw [Solvent, RawNode.owed, h₂.2]
  exact h₁

theorem pays_stepAppend (msg : Envelope) (baseIndex baseTerm : ℕ) (entries : List Entry)
    (h : Solvent id self g) :
    Pays (charge id) (self.stepAppend msg baseIndex baseTerm entries) (Solvent id) g := by
  unfold RawNode.stepAppend
  refine costless_assert.then fun _ _ => Pays.bind (pays_checkLeader msg h) fun self₁ g₁ h₁ =>
    pays_ite (fun _ => ?_) fun _ => ?_
  · exact (costless_splice _ _).then fun _ _ => (costless_send rfl).then fun _ _ => pays_pure h₁
  · exact (costless_send rfl).then fun _ _ => pays_pure h₁

theorem pays_stepCampaign (msg : Envelope) (lastIndex lastTerm : ℕ) (h : Solvent id self g) :
    Pays (charge id) (self.stepCampaign msg lastIndex lastTerm) (Solvent id) g := by
  have hvote : Pays (charge id) (self.stepVote msg lastIndex lastTerm) (Solvent id) g := by
    unfold RawNode.stepVote
    refine pays_ite (fun _ => ?_) fun _ => ?_
    · exact (costless_send rfl).then fun _ _ => pays_pure h
    · exact (costless_setTermVote _ _ _).then fun _ _ => (costless_send rfl).then fun _ _ => pays_pure h
  unfold RawNode.stepCampaign
  split
  · exact pays_ite (fun _ => (costless_send rfl).then fun _ _ => pays_pure h) fun _ => hvote
  · exact hvote

/-- A message addressed to the node, which has a budget for what it owes and for the
message. -/
structure Funded (id : RequestID) (owed : ℕ) (node : NodeID) (msg : Envelope) (g : ℕ × ℕ) : Prop where
  recipient : msg.recipient = node
  has : Has (owed + (due id msg).1) (due id msg).2 g

theorem Funded.solvent {msg : Envelope} (h : Funded id (self.owed id) self.id msg g) :
    Solvent id self g := by
  have := h.has.1
  omega

theorem pays_stepClientRequest {msg : Envelope} {x : RequestID} {request : Request}
    (hmsg : msg.message = .clientRequest x request) (h : Funded id (self.owed id) self.id msg g) :
    Pays (charge id) (self.stepClientRequest msg x) (Solvent id) g := by
  obtain ⟨hrec, hg⟩ := h
  unfold RawNode.stepClientRequest
  refine costless_assert.then fun _ hown => ?_
  have hdue : due id msg = ((decide (x = id)).toNat, (decide (x = id)).toNat) := by
    simp [due, Envelope.requests, hmsg, hown, hrec]
  rw [hdue] at hg
  cases hl : self.role.leader with
  | none =>
      refine Pays.bind (pays_respond (k := self.owed id) (m := 0) ⟨?_, Nat.zero_le _⟩)
        fun _ g' h' => pays_pure h'.1
      simpa [owns, hown] using hg.1
  | some leader =>
      simp only
      -- the command goes to the leader, and the answer is owed
      refine Pays.bind (pays_emit (k := (g.1, g.2 - (decide (x = id)).toNat)) ?_
        (Q := fun _ g' => g'.1 = g.1) rfl) fun _ g' h' => pays_pure ?_
      · refine Prod.ext ?_ ?_
        · simp [charge, Event.answers, hmsg]
        · have : (decide (x = id)).toNat ≤ g.2 := hg.2
          simp only [charge, Event.proposes, Envelope.requests, hmsg, Prod.snd_add]
          omega
      · have hcount : (self.role.forwarded.insert x).count id ≤
            self.role.forwarded.count id + (decide (x = id)).toNat := by
          by_cases hx : x = id
          · subst hx
            by_cases hm : x ∈ self.role.forwarded
            · simp [List.insert_of_mem hm]
            · simp [List.insert_of_not_mem hm]
          · by_cases hm : x ∈ self.role.forwarded
            · simp [List.insert_of_mem hm]
            · simp [List.insert_of_not_mem hm, hx]
        rw [Solvent, h']
        exact hcount.trans hg.1

theorem pays_stepClientResponse (msg : Envelope) (x : RequestID)
    (response : Except Error Response) (h : Solvent id self g) :
    Pays (charge id) (self.stepClientResponse msg x response) (Solvent id) g := by
  unfold RawNode.stepClientResponse
  refine costless_assert.then fun _ _ => pays_ite (fun hx => ?_) fun _ => pays_pure h
  refine Pays.bind (pays_respond (k := (self.role.forwarded.erase x).count id) (m := 0)
    ⟨?_, Nat.zero_le _⟩) fun _ g' h' => pays_pure h'.1
  refine le_trans ?_ h
  by_cases hid : x = id
  · subst hid
    have := List.count_pos_iff.mpr hx
    simp only [owns, and_self, decide_true, Bool.toNat_true, List.count_erase_self, RawNode.owed]
    omega
  · simp [owns, hid, RawNode.owed, List.count_erase_of_ne (Ne.symm hid)]

theorem pays_stepMessage (sm : StateMachine) {msg : Envelope}
    (h : Funded id (self.owed id) self.id msg g) :
    Pays (charge id) (self.stepMessage sm msg) (Solvent id) g := by
  have hs := h.solvent
  unfold RawNode.stepMessage
  set role := if some msg.sender = self.role.leader then
    { self.role with leaderSeen := 0 } else self.role with hrole
  have hfw : role.forwarded = self.role.forwarded := by rw [hrole]; split_ifs <;> rfl
  have howed : RawNode.owed { self with role := role } id = self.owed id := by
    rw [RawNode.owed, RawNode.owed, hfw]
  have hs' : Solvent id { self with role := role } g := howed.trans_le hs
  simp only
  cases hmsg : msg.message with
  | heartbeat lastIndex commitIndex readSeq => exact pays_stepHeartbeat sm msg _ _ _ hs'
  | append baseIndex baseTerm entries => exact pays_stepAppend msg _ _ _ hs'
  | read seq => exact Pays.bind (pays_checkLeader msg hs') fun self₁ g₁ h₁ =>
      (costless_send rfl).then fun _ _ => pays_pure h₁
  | campaign lastIndex lastTerm => exact pays_stepCampaign msg _ _ hs'
  | clientRequest x request =>
      exact pays_stepClientRequest hmsg ⟨h.recipient, by rw [howed]; exact h.has⟩
  | clientResponse x response => exact pays_stepClientResponse msg x response hs'
  | campaignResponse vote => exact pays_pure hs'
  | heartbeatResponse _ _ => exact costless_panic.last fun _ h => h
  | appendResponse _ _ => exact costless_panic.last fun _ h => h
  | readResponse _ => exact costless_panic.last fun _ h => h

theorem pays_stepFollower (sm : StateMachine) {msg : Envelope}
    (h : Funded id (self.owed id) self.id msg g) :
    Pays (charge id) (self.stepFollower sm msg) (fun node g' => node.owed id ≤ g'.1) g := by
  unfold RawNode.stepFollower
  refine pays_ite (fun _ => pays_pure h.solvent) fun _ => pays_ite (fun _ => ?_) fun _ => ?_
  · refine Pays.bind (pays_intoFollower _ _ h.has) ?_
    rintro self₁ g₁ ⟨hid, howed, hg⟩
    exact Pays.bind (pays_stepMessage sm ⟨h.recipient.trans hid.symm, by rwa [howed, Nat.zero_add]⟩)
      fun _ _ h' => pays_pure h'
  · exact Pays.bind (pays_stepMessage sm h) fun _ _ h' => pays_pure h'

theorem pays_tickFollower (sm : StateMachine) (h : Solvent id self g) :
    Pays (charge id) (self.tickFollower sm) (fun node g' => node.owed id ≤ g'.1) g := by
  unfold RawNode.tickFollower
  refine pays_ite (fun _ => ?_) fun _ => pays_pure h
  exact Pays.bind (pays_intoCandidate sm h) fun _ _ _ => pays_pure (Nat.zero_le _)

end Follower

/-! ## Leaders -/

section Leader
variable {id : RequestID} {self : RawNode Leader} {k m : ℕ} {g : ℕ × ℕ}

theorem Keeps.owing {self' : RawNode Leader} (h : Keeps self self') :
    self'.owing id = self.owing id := by
  rw [RawNode.owing, RawNode.owing, h.same, h.writes, h.reads]

/-- A leader that can pay what it owes. -/
abbrev Covered (id : RequestID) (self : RawNode Leader) (g : ℕ × ℕ) : Prop := self.owing id ≤ g.1

theorem Keeps.covered {self' : RawNode Leader} (h : Keeps self self') (hc : Covered id self g) :
    Covered id self' g := h.owing.trans_le hc

theorem pays_serveReads (sm : StateMachine) (q : ℕ) (reads : List Read)
    (h : Has (k + reads.countP fun r => owns self.id id r.sender r.id) m g) :
    Pays (charge id) (self.serveReads sm q reads) (fun rest g' =>
      Has (k + rest.countP fun r => owns self.id id r.sender r.id) m g') g := by
  induction reads generalizing g with
  | nil => exact pays_pure h
  | cons r reads ih =>
      unfold RawNode.serveReads
      refine pays_ite (fun _ => pays_pure h) fun _ => ?_
      refine (costless_emit (by rfl)).then fun _ _ => ?_
      refine Pays.bind (pays_respond (k := k + reads.countP fun r => owns self.id id r.sender r.id)
        ⟨?_, h.2⟩) fun _ _ h' => ih h'
      have := h.1
      rw [List.countP_cons] at this
      cases ho : owns self.id id r.sender r.id <;> simp [ho] at this ⊢ <;> omega

theorem pays_maybeRead (sm : StateMachine) (h : Covered id self g) :
    Pays (charge id) (self.maybeRead sm) (Covered id) g := by
  unfold RawNode.maybeRead
  refine pays_ite (fun _ => pays_pure h) fun _ => pays_ite (fun _ => pays_pure h) fun _ => ?_
  refine (costless_quorumValue _).then fun q _ => ?_
  exact Pays.bind (pays_serveReads (m := 0) sm q _ ⟨h, Nat.zero_le _⟩)
    fun rest g' h' => pays_pure h'.1

theorem pays_applyAndRespond (sm : StateMachine) (e : Entry) (h : Covered id self g) :
    Pays (charge id) (self.applyAndRespond sm e) (Covered id) g := by
  unfold RawNode.applyAndRespond
  refine (costless_applyEntry _ _ _).then fun applied _ => ?_
  cases hw : self.role.writes.get e.index with
  | none =>
      refine pays_pure ((Nat.add_le_add_right ?_ _).trans h)
      exact OrderedMap.countP_erase_le _ _ _
  | some w =>
      have hle := OrderedMap.countP_erase_add_le hw fun w => owns self.id id w.sender w.id
      have hc : self.owing id ≤ g.1 := h
      rw [RawNode.owing] at hc
      refine Pays.bind (pays_respond (m := 0) (k :=
        ((self.role.writes.erase e.index).values.countP fun w => owns self.id id w.sender w.id) +
          self.role.reads.countP fun r => owns self.id id r.sender r.id) ⟨?_, Nat.zero_le _⟩)
        fun _ g' h' => pays_pure h'.1
      simp only
      omega

theorem pays_maybeCommitAndApply (sm : StateMachine) (h : Covered id self g) :
    Pays (charge id) (self.maybeCommitAndApply sm) (fun r g' => Covered id r.1 g') g := by
  unfold RawNode.maybeCommitAndApply
  refine (costless_quorumValue _).then fun q _ => pays_ite (fun _ => pays_pure h) fun _ => ?_
  split
  · exact costless_panic.last fun _ h => h
  · refine pays_ite (fun _ => pays_pure h) fun _ => (costless_commit _ _).then fun l _ => ?_
    refine Pays.bind (wp_foldlM (I := fun _ => Covered id) (fun e _ self₁ g₁ h₁ =>
      pays_applyAndRespond sm e h₁) h) fun self₁ g₁ h₁ => pays_ite (fun _ => ?_) fun _ => pays_pure h₁
    exact Pays.bind (pays_maybeRead sm h₁) fun _ _ h₂ => pays_pure h₂

theorem pays_advanceRead (sm : StateMachine) (p : NodeID) (seq : ℕ) (h : Covered id self g) :
    Pays (charge id) (self.advanceRead sm p seq) (Covered id) g := by
  unfold RawNode.advanceRead
  refine (costless_progress p).then fun x _ => ?_
  have h₁ := (keeps_setProgress p (x.advanceRead seq).2).covered h
  exact pays_ite (fun _ => pays_maybeRead sm h₁) fun _ => pays_pure h₁

theorem pays_advanceMatch (sm : StateMachine) (p : NodeID) (k : ℕ) (h : Covered id self g) :
    Pays (charge id) (self.advanceMatch sm p k) (Covered id) g := by
  unfold RawNode.advanceMatch
  refine (costless_progress p).then fun x _ => ?_
  have h₁ := (keeps_setProgress p (x.advance k).2).covered h
  exact pays_ite (fun _ => Pays.bind (pays_maybeCommitAndApply sm h₁) fun _ _ h₂ => pays_pure h₂)
    fun _ => pays_pure h₁

theorem pays_maybeSendAppend (p : NodeID) (probe : Bool) (h : Covered id self g) :
    Pays (charge id) (self.maybeSendAppend p probe) (Covered id) g :=
  (costless_maybeSendAppend p probe).last fun _ hk => hk.covered h

theorem pays_stepHeartbeatResponse (sm : StateMachine) (msg : Envelope) (matchIndex readSeq : ℕ)
    (h : Covered id self g) :
    Pays (charge id) (self.stepHeartbeatResponse sm msg matchIndex readSeq) (Covered id) g := by
  unfold RawNode.stepHeartbeatResponse
  refine costless_assert.then fun _ _ => costless_assert.then fun _ _ =>
    Pays.bind (pays_advanceRead sm _ _ h) fun self₁ g₁ h₁ => pays_ite (fun _ => ?_)
      fun _ => pays_advanceMatch sm _ _ h₁
  unfold RawNode.probeLast
  refine Pays.bind ((costless_progress _).then fun x _ => ?_) fun self₂ g₂ h₂ =>
    pays_advanceMatch sm _ _ h₂
  exact pays_maybeSendAppend _ _ ((keeps_setProgress _ _).covered h₁)

theorem pays_stepAppended (sm : StateMachine) (msg : Envelope) (matchIndex : ℕ)
    (h : Covered id self g) :
    Pays (charge id) (self.stepAppended sm msg matchIndex) (Covered id) g := by
  unfold RawNode.stepAppended
  exact costless_assert.then fun _ _ => Pays.bind (pays_advanceMatch sm _ _ h)
    fun _ _ h₁ => pays_maybeSendAppend _ _ h₁

theorem pays_stepRejected (msg : Envelope) (rejectIndex : ℕ) (h : Covered id self g) :
    Pays (charge id) (self.stepRejected msg rejectIndex) (Covered id) g := by
  unfold RawNode.stepRejected
  refine costless_assert.then fun _ _ => (costless_progress _).then fun x _ =>
    pays_ite (fun _ => pays_pure h) fun _ => ?_
  have h₁ := (keeps_setProgress msg.sender (x.regressNext rejectIndex).2).covered h
  exact pays_ite (fun _ => pays_maybeSendAppend _ _ h₁) fun _ => pays_pure h₁

/-- What a leader owes for the request it was sent. -/
theorem Funded.request {msg : Envelope} {x : RequestID} {request : Request}
    (hmsg : msg.message = .clientRequest x request)
    (h : Funded id (self.owing id) self.id msg g) :
    Has (self.owing id + (owns self.id id msg.sender x).toNat) (decide (x = id)).toNat g := by
  have hdue : due id msg = ((owns self.id id msg.sender x).toNat, (decide (x = id)).toNat) := by
    simp [due, Envelope.requests, hmsg, owns, h.recipient]
  have := h.has
  rwa [hdue] at this

theorem pays_stepRequest (sm : StateMachine) {msg : Envelope} {x : RequestID} {request : Request}
    (hmsg : msg.message = .clientRequest x request) (h : Funded id (self.owing id) self.id msg g) :
    Pays (charge id) (self.stepRequest sm msg x request) (Covered id) g := by
  obtain ⟨hg, hc⟩ := h.request hmsg
  cases request with
  | write command =>
      unfold RawNode.stepRequest
      refine Pays.bind (pays_emit (k := (g.1, g.2 - (decide (x = id)).toNat)) ?_
        (Q := fun _ g' => g'.1 = g.1) rfl) fun _ g₁ h₁ => ?_
      · refine Prod.ext (Nat.zero_add g.1).symm ?_
        change g.2 = (decide (x = id)).toNat + (g.2 - (decide (x = id)).toNat)
        omega
      refine (costless_propose _).then fun proposed hk => ?_
      simp only
      set self₂ : RawNode Leader := { proposed.1 with
        role := { proposed.1.role with
          writes := proposed.1.role.writes.insert proposed.2 ⟨msg.sender, x⟩ } } with hself
      have h₂ : Covered id self₂ g₁ := by
        have hle := OrderedMap.countP_insert_le proposed.1.role.writes proposed.2 ⟨msg.sender, x⟩
          fun w => owns proposed.1.id id w.sender w.id
        have howing : _ = self.owing id := hk.owing
        rw [RawNode.owing] at howing
        rw [hk.same] at hle howing
        change (_ : ℕ) + _ ≤ g₁.1
        simp only [hself, hk.same]
        simp only at hle
        omega
      exact pays_ite (fun _ => Pays.bind (pays_maybeCommitAndApply sm h₂) fun _ _ h₃ => pays_pure h₃)
        fun _ => pays_pure h₂
  | read command =>
      unfold RawNode.stepRequest
      refine (costless_emit (by rfl)).then fun _ _ => (costless_broadcast fun _ => rfl).then
        fun _ _ => ?_
      simp only
      set self₂ : RawNode Leader := { self with
        role := { self.role with
          readSeq := self.role.readSeq + 1
          reads := self.role.reads ++ [⟨self.role.readSeq + 1, msg.sender, x, command⟩] } } with hself
      have h₂ : Covered id self₂ g := by
        change (_ : ℕ) + _ ≤ g.1
        rw [RawNode.owing] at hg
        simp only [hself, List.countP_append, List.countP_singleton]
        cases ho : owns self.id id msg.sender x <;> simp [ho] at hg ⊢ <;> omega
      exact pays_ite (fun _ => pays_maybeRead sm h₂) fun _ => pays_pure h₂
  | status =>
      exact Pays.bind (pays_respond (k := self.owing id) (m := 0) ⟨hg, Nat.zero_le _⟩)
        fun _ _ h' => pays_pure h'.1

theorem pays_stepLeaderMessage (sm : StateMachine) {msg : Envelope}
    (h : Funded id (self.owing id) self.id msg g) :
    Pays (charge id) (self.stepLeaderMessage sm msg) (Covered id) g := by
  have hc : Covered id self g := (Nat.le_add_right _ _).trans h.has.1
  unfold RawNode.stepLeaderMessage
  cases hmsg : msg.message with
  | heartbeatResponse matchIndex readSeq => exact pays_stepHeartbeatResponse sm msg _ _ hc
  | appendResponse matchIndex rejectIndex =>
      exact pays_ite (fun _ => pays_stepAppended sm msg _ hc) fun _ =>
        pays_ite (fun _ => pays_stepRejected msg _ hc) fun _ => costless_panic.last fun _ h => h
  | readResponse seq => exact pays_advanceRead sm _ _ hc
  | clientRequest x request => exact pays_stepRequest sm hmsg h
  | campaign _ _ => exact (costless_send rfl).then fun _ _ => pays_pure hc
  | campaignResponse vote => exact pays_pure hc
  | heartbeat _ _ _ => exact costless_panic.last fun _ h => h
  | append _ _ _ => exact costless_panic.last fun _ h => h
  | read _ => exact costless_panic.last fun _ h => h
  | clientResponse _ _ => exact costless_panic.last fun _ h => h

theorem pays_leaderIntoFollower (T : ℕ) (h : Has (self.owing id + k) m g) :
    Pays (charge id) (self.leaderIntoFollower T) (fun self' g' => self'.id = self.id ∧
      self'.owed id = 0 ∧ Has k m g') g := by
  have hwrites : ((self.role.writes.values.insertionSort fun a b => a.id ≤ b.id).countP
      fun w => owns self.id id w.sender w.id) =
        self.role.writes.values.countP fun w => owns self.id id w.sender w.id :=
    (List.perm_insertionSort _ _).countP_eq _
  have hreads : ((self.role.reads.insertionSort fun a b => a.id ≤ b.id).countP
      fun r => owns self.id id r.sender r.id) =
        self.role.reads.countP fun r => owns self.id id r.sender r.id :=
    (List.perm_insertionSort _ _).countP_eq _
  have hg := h.1
  rw [RawNode.owing] at hg
  unfold RawNode.leaderIntoFollower
  refine costless_assert.then fun _ _ => ?_
  refine Pays.bind (pays_abort (m := m) (k := k + self.role.reads.countP fun r =>
    owns self.id id r.sender r.id) Write.sender Write.id ⟨by rw [hwrites]; omega, h.2⟩)
    fun _ g₁ h₁ => ?_
  refine Pays.bind (pays_abort (k := k) Read.sender Read.id ⟨by rw [hreads]; exact h₁.1, h₁.2⟩)
    fun _ g₂ h₂ => ?_
  exact (costless_setTermVote _ _ _).then fun _ _ => costless_randomElectionTimeout.then
    fun _ _ => pays_pure ⟨rfl, rfl, h₂⟩

theorem pays_stepLeader (sm : StateMachine) {msg : Envelope}
    (h : Funded id (self.owing id) self.id msg g) :
    Pays (charge id) (self.stepLeader sm msg) (fun node g' => node.owed id ≤ g'.1) g := by
  unfold RawNode.stepLeader
  refine pays_ite (fun _ => pays_pure ((Nat.le_add_right _ _).trans h.has.1)) fun _ =>
    pays_ite (fun _ => ?_) fun _ => ?_
  · refine Pays.bind (pays_leaderIntoFollower _ h.has) ?_
    rintro self₁ g₁ ⟨hid, howed, hg⟩
    exact pays_stepFollower sm ⟨h.recipient.trans hid.symm, by rwa [howed, Nat.zero_add]⟩
  · exact Pays.bind (pays_stepLeaderMessage sm h) fun _ _ h' => pays_pure h'

theorem pays_tickLeader (h : Covered id self g) :
    Pays (charge id) self.tickLeader (fun node g' => node.owed id ≤ g'.1) g := by
  unfold RawNode.tickLeader
  refine pays_ite (fun _ => ?_) fun _ => pays_pure h
  exact costless_heartbeat.then fun self₁ hk =>
    pays_pure (Keeps.covered (show Keeps self _ from ⟨hk.same, hk.writes, hk.reads⟩) h)

end Leader

/-! ## Candidates and nodes -/

section Candidate
variable {id : RequestID} {self : RawNode Candidate} {g : ℕ × ℕ}

theorem costless_candidateIntoFollower (T : ℕ) (leader : Option NodeID) :
    Costless (charge id) (self.candidateIntoFollower T leader) fun self' =>
      self'.id = self.id ∧ self'.owed id = 0 := by
  unfold RawNode.candidateIntoFollower
  refine costless_randomElectionTimeout.bind fun _ _ => ?_
  cases leader with
  | some leader => exact costless_assert.bind fun _ _ => costless_pure ⟨rfl, rfl⟩
  | none =>
      exact costless_assert.bind fun _ _ => (costless_setTermVote _ _ _).bind
        fun _ _ => costless_pure ⟨rfl, rfl⟩

theorem pays_intoLeader (sm : StateMachine) :
    Pays (charge id) (self.intoLeader sm) (Covered id) g := by
  unfold RawNode.intoLeader
  refine costless_assert.then fun _ _ => costless_assert.then fun _ _ =>
    (costless_emit (by rfl)).then fun _ _ => (costless_propose none).then fun proposed hk => ?_
  have hc : Covered id proposed.1 g := hk.covered (Nat.zero_le _)
  exact Pays.bind (pays_maybeCommitAndApply sm hc) fun _ _ h =>
    costless_heartbeat.last fun _ hk' => hk'.covered h

theorem pays_stepCandidate (sm : StateMachine) {msg : Envelope} (h : Funded id 0 self.id msg g) :
    Pays (charge id) (self.stepCandidate sm msg) (fun node g' => node.owed id ≤ g'.1) g := by
  have hfollow : ∀ T leader, Pays (charge id)
      (do let self ← self.candidateIntoFollower T leader
          self.stepFollower sm msg) (fun node g' => node.owed id ≤ g'.1) g := fun T leader =>
    (costless_candidateIntoFollower T leader).then fun self₁ h₁ =>
      pays_stepFollower sm ⟨h.recipient.trans h₁.1.symm, by rw [h₁.2]; exact h.has⟩
  have hidle : ∀ node : RawNode Candidate, (Node.candidate node).owed id ≤ g.1 :=
    fun _ => Nat.zero_le _
  unfold RawNode.stepCandidate
  refine pays_ite (fun _ => pays_pure (hidle self)) fun _ => pays_ite (fun _ => hfollow _ _) fun _ => ?_
  cases hmsg : msg.message with
  | campaignResponse vote =>
      cases vote with
      | false => exact pays_pure (hidle self)
      | true =>
          exact pays_ite (fun _ => Pays.bind (pays_intoLeader sm) fun _ _ h => pays_pure h)
            fun _ => pays_pure (hidle _)
  | campaign _ _ => exact (costless_send rfl).then fun _ _ => pays_pure (hidle self)
  | heartbeat _ _ _ => exact hfollow _ _
  | append _ _ _ => exact hfollow _ _
  | read _ => exact hfollow _ _
  | clientRequest x request =>
      have hdue : (due id msg).1 = (owns self.id id msg.sender x).toNat := by
        simp [due, Envelope.requests, hmsg, owns, h.recipient]
      exact Pays.bind (pays_respond (k := 0) (m := 0) ⟨hdue ▸ h.has.1, Nat.zero_le _⟩)
        fun _ g' _ => pays_pure (Nat.zero_le g'.1)
  | heartbeatResponse _ _ => exact costless_panic.last fun _ h => h
  | appendResponse _ _ => exact costless_panic.last fun _ h => h
  | readResponse _ => exact costless_panic.last fun _ h => h
  | clientResponse _ _ => exact costless_panic.last fun _ h => h

theorem pays_tickCandidate :
    Pays (charge id) self.tickCandidate (fun node g' => node.owed id ≤ g'.1) g := by
  unfold RawNode.tickCandidate
  exact pays_ite (fun _ => costless_campaign.then fun _ _ => pays_pure (Nat.zero_le _))
    fun _ => pays_pure (Nat.zero_le _)

end Candidate

section Node
variable {id : RequestID} {node : Node} {g : ℕ × ℕ} (sm : StateMachine)

/-- A node pays for a step with what it owes and the message. -/
theorem pays_step {msg : Envelope}
    (h : Has (node.owed id + (due id msg).1) (due id msg).2 g) :
    Pays (charge id) (node.step sm msg) (fun node' g' => node'.owed id ≤ g'.1) g := by
  unfold Node.step
  refine costless_assert.then fun _ hrec => costless_assert.then fun _ _ => ?_
  cases node with
  | candidate node => exact pays_stepCandidate sm ⟨hrec, h⟩
  | follower node => exact pays_stepFollower sm ⟨hrec, h⟩
  | leader node => exact pays_stepLeader sm ⟨hrec, h⟩

theorem pays_tick (h : node.owed id ≤ g.1) :
    Pays (charge id) (node.tick sm) (fun node' g' => node'.owed id ≤ g'.1) g := by
  unfold Node.tick
  cases node with
  | candidate node => exact pays_tickCandidate
  | follower node => exact pays_tickFollower sm h
  | leader node => exact pays_tickLeader h

/-- A new node owes nothing. -/
theorem pays_new (n : NodeID) (peers : List NodeID) (log : Log) (state : List Entry)
    (opts : Options) :
    Pays (charge id) (Node.new n peers log state opts sm) (fun node' g' => node'.owed id ≤ g'.1) g := by
  have hnew : Costless (charge id) (RawNode.new n peers log state opts sm) fun self =>
      self.owed id = 0 := by
    unfold RawNode.new
    refine costless_ensure.bind fun _ _ => costless_randomElectionTimeout.bind fun _ _ =>
      (costless_maybeApply sm).mono fun self h => ?_
    rw [RawNode.owed, h.2]
    rfl
  unfold Node.new
  refine hnew.then fun self h => pays_ite (fun _ => ?_) fun _ => pays_pure (h.trans_le (Nat.zero_le _))
  exact Pays.bind (pays_intoCandidate sm (h.trans_le (Nat.zero_le _))) fun _ _ _ =>
    Pays.bind (pays_intoLeader sm) fun _ _ h' => pays_pure h'

end Node
end ToyDB.Raft
