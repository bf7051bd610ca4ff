import ToyDB.Effects.Triple
import ToyDB.Raft.Safety

/-!
# The progress of replication

A leader records how far the log of each follower is known to match its own. What it records
never decreases while it leads, and the follower has these entries until it enters the term
of a later leader. So a majority of the nodes has the entries up to the quorum value.
-/
namespace ToyDB.Raft
open ToyDB.Collections ToyDB.Consensus ToyDB.Effects

/-! ## What a leader records -/

/-- No match index that was recorded decreases. -/
def RawNode.Advances (self next : RawNode Leader) : Prop :=
  ∀ p x, self.role.progress.get p = some x →
    ∃ y, next.role.progress.get p = some y ∧ x.matchIndex ≤ y.matchIndex

namespace RawNode
variable {self next : RawNode Leader} {sm : StateMachine} {id : NodeID}

theorem Advances.refl (self : RawNode Leader) : self.Advances self :=
  fun _ _ hx => ⟨_, hx, le_rfl⟩

theorem Advances.trans {last : RawNode Leader} (h : self.Advances next) (h' : next.Advances last) :
    self.Advances last := by
  intro p x hx
  obtain ⟨y, hy, hle⟩ := h p x hx
  obtain ⟨z, hz, hle'⟩ := h' p y hy
  exact ⟨z, hz, hle.trans hle'⟩

theorem advances_of_eq (h : next.role.progress = self.role.progress) : self.Advances next :=
  fun _ _ hx => ⟨_, by rw [h, hx], le_rfl⟩

theorem advances_setProgress {x y : Progress} (hx : self.role.progress.get id = some x)
    (hle : x.matchIndex ≤ y.matchIndex) : self.Advances (self.setProgress id y) := by
  intro p z hz
  change ∃ w, (self.role.progress.insert id y).get p = some w ∧ _
  rw [OrderedMap.get_insert]
  split_ifs with hp
  · subst hp
    obtain rfl := Option.some.inj (hx.symm.trans hz)
    exact ⟨y, rfl, hle⟩
  · exact ⟨z, hz, le_rfl⟩

theorem returns_progress (id : NodeID) :
    (self.progress id).Returns fun x => self.role.progress.get id = some x := by
  unfold RawNode.progress
  cases hget : self.role.progress.get id with
  | none => exact Program.returns_fail
  | some x => exact Program.returns_pure rfl

theorem returns_maybeSendAppend (id : NodeID) (probe : Bool) :
    (self.maybeSendAppend id probe).Returns self.Advances := by
  unfold RawNode.maybeSendAppend
  refine (returns_progress id).bind fun x hx => ?_
  refine Program.returns_ensure fun _ => Program.returns_ensure fun _ =>
    Program.returns_ensure fun _ => Program.returns_ensure fun _ => ?_
  refine Program.returns_ite (fun _ => Program.returns_pure (.refl _)) fun _ => ?_
  refine Program.returns_ite (fun _ => Program.returns_pure (.refl _)) fun _ => ?_
  refine Program.returns_after fun base => Program.returns_after fun _ => Program.returns_pure ?_
  refine advances_setProgress hx ?_
  split <;> exact le_rfl

theorem returns_propose (command : Option Bytes) :
    (self.propose command).Returns fun a => self.Advances a.1 := by
  unfold RawNode.propose
  refine Program.returns_after fun appended => ?_
  refine Program.Returns.bind (P := self.Advances) (Program.returns_foldlM _ (fun next id _ h => ?_)
    (advances_of_eq rfl)) fun next h => Program.returns_pure h
  refine Program.returns_after fun x => Program.returns_ite (fun _ => ?_) fun _ =>
    Program.returns_pure h
  exact (returns_maybeSendAppend id false).mono fun _ h' => h.trans h'

theorem returns_maybeRead : (self.maybeRead sm).Returns self.Advances := by
  unfold RawNode.maybeRead
  refine Program.returns_ite (fun _ => Program.returns_pure (.refl _)) fun _ => ?_
  refine Program.returns_ite (fun _ => Program.returns_pure (.refl _)) fun _ => ?_
  exact Program.returns_after fun _ => Program.returns_after fun _ =>
    Program.returns_pure (advances_of_eq rfl)

theorem returns_applyAndRespond (entry : Entry) :
    (self.applyAndRespond sm entry).Returns self.Advances := by
  unfold RawNode.applyAndRespond
  refine Program.returns_after fun applied => ?_
  split
  · exact Program.returns_after fun _ => Program.returns_pure (advances_of_eq rfl)
  · exact Program.returns_pure (advances_of_eq rfl)

theorem returns_maybeCommitAndApply :
    (self.maybeCommitAndApply sm).Returns fun a => self.Advances a.1 := by
  unfold RawNode.maybeCommitAndApply
  refine Program.returns_after fun index => ?_
  refine Program.returns_ite (fun _ => Program.returns_pure (.refl _)) fun _ => ?_
  split
  · exact Program.returns_fail
  refine Program.returns_ite (fun _ => Program.returns_pure (.refl _)) fun _ => ?_
  refine Program.returns_after fun log => ?_
  refine Program.Returns.bind (P := self.Advances) (Program.returns_foldlM _ (fun next entry _ h => ?_)
    (advances_of_eq rfl)) fun next h => ?_
  · exact (returns_applyAndRespond entry).mono fun _ h' => h.trans h'
  · refine Program.returns_ite (fun _ => ?_) fun _ => Program.returns_pure h
    exact returns_maybeRead.bind fun _ h' => Program.returns_pure (h.trans h')

theorem returns_advanceRead (id : NodeID) (seq : ℕ) :
    (self.advanceRead sm id seq).Returns self.Advances := by
  unfold RawNode.advanceRead
  refine (returns_progress id).bind fun x hx => ?_
  have hset : self.Advances (self.setProgress id (x.advanceRead seq).2) := by
    refine advances_setProgress hx ?_
    unfold Progress.advanceRead
    split_ifs <;> exact le_rfl
  refine Program.returns_ite (fun _ => ?_) fun _ => Program.returns_pure hset
  exact returns_maybeRead.mono fun _ h => hset.trans h

theorem returns_advanceMatch (id : NodeID) (index : ℕ) :
    (self.advanceMatch sm id index).Returns self.Advances := by
  unfold RawNode.advanceMatch
  refine (returns_progress id).bind fun x hx => ?_
  have hset : self.Advances (self.setProgress id (x.advance index).2) := by
    refine advances_setProgress hx ?_
    unfold Progress.advance
    split_ifs with hle
    · exact le_rfl
    · exact (not_le.mp hle).le
  refine Program.returns_ite (fun _ => ?_) fun _ => Program.returns_pure hset
  exact returns_maybeCommitAndApply.bind fun _ h => Program.returns_pure (hset.trans h)

theorem advances_regressNext {x : Progress} (hx : self.role.progress.get id = some x) (index : ℕ) :
    self.Advances (self.setProgress id (x.regressNext index).2) := by
  refine advances_setProgress hx ?_
  unfold Progress.regressNext
  split_ifs <;> exact le_rfl

theorem returns_stepHeartbeatResponse (msg : Envelope) (index seq : ℕ) :
    (self.stepHeartbeatResponse sm msg index seq).Returns self.Advances := by
  unfold RawNode.stepHeartbeatResponse
  refine Program.returns_ensure fun _ => Program.returns_ensure fun _ => ?_
  refine (returns_advanceRead _ _).bind fun next h => ?_
  have hlast : ∀ {next : RawNode Leader}, self.Advances next →
      (next.advanceMatch sm msg.sender index).Returns self.Advances := fun h =>
    (returns_advanceMatch _ _).mono fun _ h' => h.trans h'
  refine Program.returns_ite (fun _ => ?_) fun _ => hlast h
  refine Program.Returns.bind (P := self.Advances) ?_ fun _ h' => hlast h'
  unfold RawNode.probeLast
  refine (returns_progress _).bind fun x hx => ?_
  exact (returns_maybeSendAppend _ _).mono fun _ h' =>
    (h.trans (advances_regressNext hx _)).trans h'

theorem returns_stepAppended (msg : Envelope) (index : ℕ) :
    (self.stepAppended sm msg index).Returns self.Advances := by
  unfold RawNode.stepAppended
  refine Program.returns_ensure fun _ => (returns_advanceMatch _ _).bind fun next h => ?_
  exact (returns_maybeSendAppend _ _).mono fun _ h' => h.trans h'

theorem returns_stepRejected (msg : Envelope) (index : ℕ) :
    (self.stepRejected msg index).Returns self.Advances := by
  unfold RawNode.stepRejected
  refine Program.returns_ensure fun _ => (returns_progress _).bind fun x hx => ?_
  refine Program.returns_ite (fun _ => Program.returns_pure (.refl _)) fun _ => ?_
  have hset := advances_regressNext hx index
  refine Program.returns_ite (fun _ => ?_) fun _ => Program.returns_pure hset
  exact (returns_maybeSendAppend _ _).mono fun _ h => hset.trans h

theorem returns_stepRequest (msg : Envelope) (id : RequestID) (request : Request) :
    (self.stepRequest sm msg id request).Returns self.Advances := by
  cases request with
  | write command =>
      refine Program.returns_after fun _ => (returns_propose _).bind fun proposed h => ?_
      refine Program.returns_ite (fun _ => ?_) fun _ => Program.returns_pure h
      exact returns_maybeCommitAndApply.bind fun _ h' => Program.returns_pure (h.trans h')
  | read command =>
      refine Program.returns_after fun _ => Program.returns_after fun _ => ?_
      refine Program.returns_ite (fun _ => ?_) fun _ => Program.returns_pure (advances_of_eq rfl)
      exact returns_maybeRead
  | status => exact Program.returns_after fun _ => Program.returns_pure (.refl _)

theorem returns_stepLeaderMessage (msg : Envelope) :
    (self.stepLeaderMessage sm msg).Returns self.Advances := by
  unfold RawNode.stepLeaderMessage
  cases msg.message with
  | heartbeatResponse index seq => exact returns_stepHeartbeatResponse msg index seq
  | appendResponse index reject =>
      refine Program.returns_ite (fun _ => returns_stepAppended msg index) fun _ =>
        Program.returns_ite (fun _ => returns_stepRejected msg reject) fun _ => Program.returns_fail
  | readResponse seq => exact returns_advanceRead _ _
  | clientRequest id request => exact returns_stepRequest msg id request
  | campaign lastIndex lastTerm =>
      exact Program.returns_after fun _ => Program.returns_pure (.refl _)
  | campaignResponse vote => exact Program.returns_pure (.refl _)
  | heartbeat lastIndex commitIndex readSeq => exact Program.returns_fail
  | append baseIndex baseTerm entries => exact Program.returns_fail
  | read seq => exact Program.returns_fail
  | clientResponse id response => exact Program.returns_fail

/-- If the node still leads after a step, no match index decreased. -/
def LeadsOn (self : RawNode Leader) (node : Node) : Prop :=
  ∀ next, node = .leader next → self.Advances next

theorem returns_stepFollower (follower : RawNode Follower) (msg : Envelope) :
    (follower.stepFollower sm msg).Returns self.LeadsOn := by
  have hfollower : ∀ f : RawNode Follower, self.LeadsOn (.follower f) := by
    rintro f next ⟨⟩
  unfold RawNode.stepFollower
  refine Program.returns_ite (fun _ => Program.returns_pure (hfollower _)) fun _ => ?_
  refine Program.returns_ite (fun _ => ?_) fun _ => ?_
  · exact Program.returns_after fun _ => Program.returns_after fun _ =>
      Program.returns_pure (hfollower _)
  · exact Program.returns_after fun _ => Program.returns_pure (hfollower _)

theorem Advances.leadsOn (h : self.Advances next) : self.LeadsOn (.leader next) := by
  rintro _ ⟨⟩
  exact h

theorem returns_stepLeader (msg : Envelope) : (self.stepLeader sm msg).Returns self.LeadsOn := by
  unfold RawNode.stepLeader
  refine Program.returns_ite (fun _ => Program.returns_pure (Advances.refl self).leadsOn) fun _ => ?_
  refine Program.returns_ite (fun _ => Program.returns_after fun follower => ?_) fun _ => ?_
  · exact returns_stepFollower follower msg
  · exact (returns_stepLeaderMessage msg).bind fun _ h => Program.returns_pure h.leadsOn

theorem returns_tickLeader : self.tickLeader.Returns self.LeadsOn := by
  have hset : ∀ {next : RawNode Leader}, next.role.progress = self.role.progress →
      self.LeadsOn (.leader next) := fun h => (advances_of_eq h).leadsOn
  unfold RawNode.tickLeader
  refine Program.returns_ite (fun _ => ?_) fun _ => Program.returns_pure (hset rfl)
  unfold RawNode.heartbeat
  refine Program.Returns.bind (P := self.Advances) ?_ fun _ h => Program.returns_pure h.leadsOn
  exact Program.returns_ensure fun _ => Program.returns_after fun _ =>
    Program.returns_pure (advances_of_eq rfl)

end RawNode

/-! ## Steps of a running node -/

section Worlds
variable {cfg : Config} {v w : World} {i : NodeID} {node' : Node} {startTerm : ℕ}

/-- The node that a program leaves running, or another one that it leaves alone. -/
theorem World.execute_up {id : NodeID} {disk : Disk} {term : ℕ} {program : Action Node}
    {supply : List ℕ} {cut : Option ℕ}
    (hp : (w.execute id disk term program supply cut).process i = .up node' startTerm) :
    i ≠ id ∧ w.process i = .up node' startTerm ∨
      i = id ∧ term = startTerm ∧ (program supply).result = .ok node' := by
  obtain ⟨_, _, _, _, _, hother, hown⟩ := World.execute_cases w id disk term program supply cut
  by_cases hi : i = id
  · subst hi
    obtain ⟨disk', hdown⟩ | ⟨node, hup, hresult, -⟩ := hown
    · rw [hdown] at hp
      cases hp
    · rw [hup] at hp
      cases hp
      exact .inr ⟨rfl, rfl, hresult⟩
  · exact .inl ⟨hi, (hother i hi).symm.trans hp⟩

/-- How a running node came out of an action: it was left alone, it was started, or it
processed a message or a tick. -/
inductive Ran (cfg : Config) (node' : Node) (startTerm : ℕ) : Process → Prop where
  | kept : Ran cfg node' startTerm (.up node' startTerm)
  | started (disk : Disk) : disk.log.term = startTerm → Ran cfg node' startTerm (.down disk)
  | stepped (node : Node) (msg : Envelope) (supply : List ℕ) :
      (node.step cfg.sm msg supply).result = .ok node' →
      Ran cfg node' startTerm (.up node startTerm)
  | ticked (node : Node) (supply : List ℕ) : (node.tick cfg.sm supply).result = .ok node' →
      Ran cfg node' startTerm (.up node startTerm)

theorem Disk.restore_term (disk : Disk) (commitIndex applied : ℕ) :
    (disk.restore commitIndex applied).log.term = disk.log.term := by
  unfold Disk.restore
  dsimp only
  split_ifs <;> rfl

theorem World.stepNode_up {msg : Envelope} {supply : List ℕ} {cut : Option ℕ}
    (hw : World.stepNode cfg v msg supply cut = some w)
    (hp : w.process i = .up node' startTerm) : Ran cfg node' startTerm (v.process i) := by
  unfold World.stepNode at hw
  cases hv : v.process msg.recipient with
  | down disk =>
      rw [hv] at hw
      cases hw
  | up node term =>
      rw [hv] at hw
      obtain rfl := Option.some.inj hw
      obtain ⟨-, hsame⟩ | ⟨rfl, rfl, hresult⟩ := World.execute_up hp
      · rw [hsame]
        exact .kept
      · rw [hv]
        exact .stepped node msg supply hresult

theorem World.step_up {m : Move} (hw : v.step cfg m = some w)
    (hp : w.process i = .up node' startTerm) : Ran cfg node' startTerm (v.process i) := by
  have hkept : v.process i = .up node' startTerm → Ran cfg node' startTerm (v.process i) := by
    intro hsame
    rw [hsame]
    exact .kept
  cases m with
  | run input supply cut =>
      cases input with
      | start id commitIndex applied =>
          simp only [World.step, World.input] at hw
          cases hv : v.process id with
          | up node term =>
              rw [hv] at hw
              cases hw
          | down disk =>
              rw [hv] at hw
              simp only at hw
              split_ifs at hw
              obtain rfl := Option.some.inj hw
              obtain ⟨-, hsame⟩ | ⟨rfl, rfl, -⟩ := World.execute_up hp
              · exact hkept hsame
              · rw [hv]
                exact .started disk (disk.restore_term commitIndex applied).symm
      | tick id =>
          simp only [World.step, World.input] at hw
          cases hv : v.process id with
          | down disk =>
              rw [hv] at hw
              cases hw
          | up node term =>
              rw [hv] at hw
              obtain rfl := Option.some.inj hw
              obtain ⟨-, hsame⟩ | ⟨rfl, rfl, hresult⟩ := World.execute_up hp
              · exact hkept hsame
              · rw [hv]
                exact .ticked node supply hresult
      | deliver position =>
          simp only [World.step, World.input] at hw
          cases hn : v.network[position]? with
          | none =>
              rw [hn] at hw
              cases hw
          | some msg =>
              rw [hn] at hw
              exact World.stepNode_up (v := { v with network := v.network.eraseIdx position }) hw hp
      | submit id request body =>
          simp only [World.step, World.input] at hw
          cases hv : v.process id with
          | down disk =>
              rw [hv] at hw
              cases hw
          | up node term =>
              rw [hv] at hw
              exact World.stepNode_up (v := v.mark id [.submitted request body]) hw hp
  | crash id =>
      simp only [World.step] at hw
      cases hv : v.process id with
      | down disk =>
          rw [hv] at hw
          cases hw
      | up node term =>
          rw [hv] at hw
          obtain rfl := Option.some.inj hw
          by_cases hi : i = id
          · subst hi
            cases (Function.update_self _ _ _).symm.trans hp
          · exact hkept ((Function.update_of_ne hi _ _).symm.trans hp)
  | drop position =>
      obtain rfl := Option.some.inj hw
      exact hkept hp
  | duplicate position =>
      simp only [World.step] at hw
      cases hn : v.network[position]? with
      | none =>
          rw [hn] at hw
          cases hw
      | some msg =>
          rw [hn] at hw
          obtain rfl := Option.some.inj hw
          exact hkept hp

/-! ## One leadership in a term -/

variable {h : History}

/-- A node leads a term once: one that was elected in the term and leads it after an action
led it before, and no match index decreased. -/
theorem Describes.leads_before {m : Move} {next : RawNode Leader} (hs : Describes cfg h v)
    (hled : Led h.core i next.term) (hw : v.step cfg m = some w)
    (hp : w.process i = .up (.leader next) startTerm) :
    ∃ self, v.process i = .up (.leader self) startTerm ∧ self.term = next.term ∧
      self.Advances next := by
  obtain ⟨marks, h', hc⟩ := hs.step hw
  have hgrow := (trace_grows hs.inv hc.path).2
  have hnext : ProcessOk cfg h' i (.up (.leader next) startTerm) := hp ▸ hc.describes.process i
  obtain ⟨hstarted, g', rfl, hat'⟩ := hnext
  have hlater : startTerm < next.term := hstarted.2 rfl
  have hterm' : (g'.hist.core i).term = next.term := hat'.core_term
  have hle : next.term ≤ (h.core i).term := (hs.inv.core.led_le hled).2
  -- a node that was running is in the same term
  have hrunning : ∀ {node}, v.process i = .up node startTerm → node.term = next.term ∧
      ∃ g : Point cfg i, g.hist = h ∧ NodeAt startTerm node g := by
    intro node hv
    have hnode : ProcessOk cfg h i (.up node startTerm) := hv ▸ hs.process i
    obtain ⟨-, g, hg, hat⟩ := hnode
    refine ⟨?_, g, hg, hat⟩
    have hterm : (h.core i).term = node.term := hg ▸ hat.core_term
    have hmono := (hgrow.core i).term
    omega
  -- it leads, since a candidate was not elected and a follower of the term was restarted
  have hleads : ∀ {node}, v.process i = .up node startTerm →
      ∃ self, node = .leader self ∧ self.term = next.term := by
    intro node hv
    obtain ⟨hterm, g, rfl, hat⟩ := hrunning hv
    rw [← hterm] at hled
    cases node with
    | leader self => exact ⟨self, rfl, hterm⟩
    | candidate self => exact absurd hled hat.role.not_led
    | follower self =>
        have hformer := hat.role.former hled
        have heq : self.log.term = next.term := hterm
        omega
  cases hran : v.process i with
  | down disk =>
      have hdisk : ProcessOk cfg h i (.down disk) := hran ▸ hs.process i
      have hstep := World.step_up hw hp
      rw [hran] at hstep
      cases hstep with
      | started _ hstart =>
          have hterm : (h.core i).term = disk.log.term := Stored.term hdisk
          omega
  | up node term =>
      have hstep := World.step_up hw hp
      rw [hran] at hstep
      cases hstep with
      | kept => exact ⟨next, rfl, rfl, .refl next⟩
      | stepped _ msg supply hresult =>
          obtain ⟨self, rfl, hterm⟩ := hleads hran
          refine ⟨self, rfl, hterm, ?_⟩
          have hreturns : (Node.step (.leader self) cfg.sm msg).Returns self.LeadsOn :=
            Program.returns_ensure fun _ => Program.returns_ensure fun _ =>
              RawNode.returns_stepLeader msg
          exact hreturns.apply hresult next rfl
      | ticked _ supply hresult =>
          obtain ⟨self, rfl, hterm⟩ := hleads hran
          exact ⟨self, rfl, hterm, RawNode.returns_tickLeader.apply hresult next rfl⟩

/-- While a node leads a term, no match index decreases. -/
theorem Describes.leads_throughout {moves : List Move} {self next : RawNode Leader}
    {start start' : ℕ} (hs : Describes cfg h v) (hw : World.run cfg v moves = some w)
    (hp : v.process i = .up (.leader self) start) (hp' : w.process i = .up (.leader next) start')
    (hterm : next.term = self.term) : self.Advances next := by
  have hled := (hs.leader hp).1
  induction moves using List.reverseRecOn generalizing w next start' with
  | nil =>
      obtain rfl := Option.some.inj hw
      rw [hp] at hp'
      cases hp'
      exact .refl self
  | append_singleton moves m ih =>
      rw [World.run_append] at hw
      obtain ⟨u, hu, hw⟩ := Option.bind_eq_some_iff.mp hw
      obtain ⟨w', hstep, hw⟩ := Option.bind_eq_some_iff.mp hw
      obtain rfl := Option.some.inj hw
      obtain ⟨marks, h', -, hpath, hu'⟩ := hs.run hu
      have hled' := (trace_grows hs.inv hpath).2.core.led hled
      rw [← hterm] at hled'
      obtain ⟨middle, hmiddle, hterm', hadvances⟩ := hu'.leads_before hled' hstep hp'
      exact (ih hu hmiddle (hterm'.trans hterm)).trans hadvances

/-! ## What the followers have -/

/-- Elections in the history come from the trace. -/
theorem starts_traced {h₀ : History} {trace : List (NodeID × Mark)}
    (hp : (traceSystem cfg).Path h₀ trace h) {n : NodeID} {T : ℕ} {s : List Entry}
    (hs : (h.core n).start T = some s) :
    (h₀.core n).start T = some s ∨ (n, .event (.leading T)) ∈ trace := by
  induction hp with
  | refl h => exact .inl hs
  | @silent h₀ h₁ h₂ es hv _ ih =>
      refine (ih hs).imp_left fun h => ?_
      obtain ⟨j, _, hm, hsh⟩ := hv
      by_cases hj : n = j
      · subst hj
        obtain heq | hnone := hsh.start T
        · rwa [heq] at h
        · cases hnone
      · rwa [(hm.same hj).core] at h
  | @visible h₀ h₁ h₂ m es hv hp ih =>
      obtain h | h := ih hs
      swap
      · exact .inr (List.mem_cons_of_mem _ h)
      obtain ⟨j, mark⟩ := m
      obtain ⟨_, hm, hv⟩ := hv
      dsimp only at hm hv
      by_cases hj : n = j
      swap
      · exact .inl (by rwa [(hm.same hj).core] at h)
      subst hj
      cases mark with
      | submitted id request =>
          obtain rfl : h₁ = _ := hv
          exact .inl h
      | panicked message =>
          obtain rfl : h₁ = _ := hv
          exact .inl h
      | event e =>
          obtain heq | he := hv.2.start T
          · exact .inl (by rwa [heq] at h)
          · obtain rfl := Option.some.inj he
            exact .inr List.mem_cons_self

/-- The node has entered the term of a leader that was elected after the term. -/
def Superseded (w : World) (n : NodeID) (term : ℕ) : Prop :=
  ∃ leader later, term < later ∧ later ≤ (w.process n).disk.log.term ∧
    (leader, Mark.event (.leading later)) ∈ w.trace

/-- What a node has acknowledged of the log of a leader, it keeps until it enters the term of
a later leader. -/
theorem Describes.acked_kept {h' : History} {self : RawNode Leader} {start m : ℕ} {n : NodeID}
    (hs : Describes cfg h v) (hp : v.process i = .up (.leader self) start)
    (hm : m ≤ (h.core n).acked self.term) (hle : m ≤ self.log.entries.length)
    (hs' : Describes cfg h' w) (hpath' : (traceSystem cfg).Path History.init w.trace h')
    (hgrow : History.Grows h h') :
    self.log.entries.take m <+: (w.process n).disk.log.entries ∨ Superseded w n self.term := by
  obtain ⟨hled, hfull⟩ := hs.leader hp
  have hholds := hs'.inv.core.log_holds (hgrow.core.led hled)
    (hm.trans ((hgrow.core n).acked self.term))
  have hprefix := (hgrow.core i).full hled
  rw [hfull] at hprefix
  have htake : ((h'.core i).full self.term).take m = self.log.entries.take m := by
    obtain ⟨t, ht⟩ := hprefix
    rw [← ht, List.take_append_of_le_length hle]
  have hstored := (hs'.process n).stored
  rw [htake, hstored.entries, hstored.term] at hholds
  obtain hholds | ⟨leader, later, s, hlt, hlt', hstart, -⟩ := hholds
  · exact .inl hholds
  · refine .inr ⟨leader, later, hlt, Nat.lt_succ_iff.mp hlt', ?_⟩
    obtain hnone | htrace := starts_traced hpath' hstart
    · cases hnone
    · exact htrace

/-- A leader may have acknowledged its own log. -/
theorem Describes.acknowledged {self : RawNode Leader} {start : ℕ} (hs : Describes cfg h v)
    (hp : v.process i = .up (.leader self) start) :
    ∃ h', (traceSystem cfg).Path h [] h' ∧ Describes cfg h' v ∧
      self.log.entries.length ≤ (h'.core i).acked self.log.term := by
  have hnode : ProcessOk cfg h i (.up (.leader self) start) := hp ▸ hs.process i
  obtain ⟨hstarted, g, rfl, hl, hlast⟩ := hnode
  have hack : Runs cfg i False (pure ()) (fun _ g' => LeaderAt self g' ∧
      self.log.entries.length ≤ (g'.hist.core i).acked self.log.term) g := by
    refine runs_ack hl.toRunsAt (n := i) hl.role.led (by rw [hl.full_eq])
      (by rw [hl.full_eq]; exact List.take_prefix _ _) fun g' hgrow hk hfollows hconfirmed hd hle => ?_
    exact runs_pure ⟨⟨hl.toRunsAt.of_disk hd, hl.role.grows hgrow List.prefix_rfl
      (by rw [hk.reads]), by rw [hk.commitTo]; exact hl.commit⟩, hle⟩
  obtain ⟨g', hpath, hl', hle⟩ := hack []
  have hmoves := path_moves hpath
  refine ⟨g'.hist, node_path hl.member hpath, ⟨g'.inv, fun j => ?_, fun env he => ?_⟩, hle⟩
  · by_cases hj : j = i
    · subst hj
      rw [hp]
      exact ⟨hstarted, g', rfl, hl', hlast⟩
    · exact (hs.process j).moves hs.inv hmoves hj
  · obtain ⟨hsent, hne⟩ := hs.network env he
    exact ⟨hsent.grows (path_grows hpath), hne⟩

/-- What a leader records of its followers is true until its term is over. In a run that goes
through the world `v`, in which the node leads, to the world `w`: a follower has the entries
up to its match index, which does not decrease while the node leads the term, and a
majority of the nodes has the entries up to the quorum value. -/
theorem progress_truthful {moves : List Move} {self : RawNode Leader} {start : ℕ}
    (hv : World.Reachable cfg v) (hw : World.run cfg v moves = some w)
    (hp : v.process i = .up (.leader self) start) :
    (∀ n x, self.role.progress.get n = some x →
      x.matchIndex ≤ self.log.entries.length ∧
      (self.log.entries.take x.matchIndex <+: (w.process n).disk.log.entries ∨
        Superseded w n self.term) ∧
      ∀ next start', w.process i = .up (.leader next) start' → next.term = self.term →
        ∃ y, next.role.progress.get n = some y ∧ x.matchIndex ≤ y.matchIndex) ∧
    ∀ supply, ∃ index, (self.quorumValue (self.role.progress.values.map Progress.matchIndex ++
        [self.log.getLastIndex.1]) supply).result = .ok index ∧
      index ≤ self.log.entries.length ∧ ∃ Q, IsQuorum cfg.memberSet Q ∧ ∀ n ∈ Q,
        self.log.entries.take index <+: (w.process n).disk.log.entries ∨
          Superseded w n self.term := by
  obtain ⟨h₀, hpath₀, hs₀⟩ := hv.describes
  obtain ⟨h, hown, hs, hack⟩ := hs₀.acknowledged hp
  obtain ⟨marks, h', htrace, hpath', hs'⟩ := hs.run hw
  have hgrow := (trace_grows hs.inv hpath').2
  have hwhole : (traceSystem cfg).Path History.init w.trace h' := by
    have hpath := hpath₀.append (hown.append hpath')
    rwa [List.nil_append, ← htrace] at hpath
  have hnode : ProcessOk cfg h i (.up (.leader self) start) := hp ▸ hs.process i
  obtain ⟨-, g, rfl, hl, -⟩ := hnode
  have hkept : ∀ {n m}, m ≤ (g.hist.core n).acked self.log.term → m ≤ self.log.entries.length →
      self.log.entries.take m <+: (w.process n).disk.log.entries ∨ Superseded w n self.term :=
    fun hm hle => hs.acked_kept hp hm hle hs' hwhole hgrow
  constructor
  · intro n x hx
    have hprogress := hl.role.progress hx
    refine ⟨hprogress.match_le, hkept hprogress.acked hprogress.match_le, ?_⟩
    intro next start' hp' hterm
    exact hs.leads_throughout hw hp hp' hterm n x hx
  · intro supply
    have hlength : self.log.getLastIndex.1 = self.log.entries.length := by
      rw [Log.getLastIndex_eq hl.indexed]
    obtain ⟨g', -, hvalue⟩ := runs_quorumValue (X := False) hl Progress.matchIndex
      self.log.getLastIndex.1 supply
    cases hresult : (self.quorumValue (self.role.progress.values.map Progress.matchIndex ++
        [self.log.getLastIndex.1]) supply).result with
    | error e =>
        rw [hresult] at hvalue
        cases hvalue
    | ok index =>
        rw [hresult] at hvalue
        obtain ⟨-, Q, hQ, hreach⟩ := hvalue
        have hle : ∀ n ∈ Q, index ≤ self.log.entries.length ∧
            index ≤ (g.hist.core n).acked self.log.term := by
          intro n hn
          obtain ⟨rfl, hlast⟩ | ⟨x, hx, hle⟩ := hreach n hn
          · rw [hlength] at hlast
            exact ⟨hlast, hlast.trans hack⟩
          · have hprogress := hl.role.progress hx
            exact ⟨hle.trans hprogress.match_le, hle.trans hprogress.acked⟩
        obtain ⟨n, hn⟩ : Q.Nonempty := by
          refine Finset.card_pos.mp ?_
          have hmajority := hQ.2
          omega
        refine ⟨index, rfl, (hle n hn).1, Q, hQ, fun n hn => ?_⟩
        exact hkept (hle n hn).2 (hle n hn).1

/-- Whether the process leads and has recorded the match index of a node. -/
def Process.records (n : NodeID) (index : ℕ) : Process → Bool
  | up (.leader node) _ => (node.role.progress.get n).any fun x => x.matchIndex = index
  | _ => false

theorem Process.records_iff {n : NodeID} {index : ℕ} {process : Process} :
    process.records n index ↔ ∃ node startTerm x, process = .up (.leader node) startTerm ∧
      node.role.progress.get n = some x ∧ x.matchIndex = index := by
  cases process with
  | down disk => simp [records]
  | up node startTerm => cases node <;> simp [records, Option.any_eq_true]

/-- A run that goes on from the world after the actions before. -/
theorem World.run_after_append {c : Config} {m n : List Move}
    (h : (World.run c .init (m ++ n)).isSome) : World.run c .init m = some (.after c m) ∧
      World.run c (.after c m) n = some (.after c (m ++ n)) := by
  have hrun := World.run_after h
  rw [World.run_append] at hrun
  obtain ⟨v, hv, hw⟩ := Option.bind_eq_some_iff.mp hrun
  have hafter : World.after c m = v := by
    rw [World.after, hv]
    rfl
  rw [hafter]
  exact ⟨hv, hw⟩

/-- Node 1 has recorded that node 2 has its first entry, and node 2 still has it when node 1
has sent another heartbeat. -/
theorem progress_truthful_three : ∃ self start x,
    (World.after .three Move.election).process 1 = .up (.leader self) start ∧
    self.role.progress.get 2 = some x ∧ x.matchIndex = 1 ∧
    (self.log.entries.take x.matchIndex <+:
        ((World.after .three (Move.election ++ [Move.tick 1])).process 2).disk.log.entries ∨
      Superseded (.after .three (Move.election ++ [Move.tick 1])) 2 self.term) := by
  obtain ⟨hv, hw⟩ := World.run_after_append (c := .three) (m := Move.election)
    (n := [Move.tick 1]) (by decide +kernel)
  obtain ⟨self, start, x, hp, hx, hm⟩ := Process.records_iff.mp
    (show ((World.after .three Move.election).process 1).records 2 1 by decide +kernel)
  obtain ⟨hprogress, -⟩ := progress_truthful ⟨_, hv⟩ hw hp
  exact ⟨self, start, x, hp, hx, hm, (hprogress 2 x hx).2.1⟩

end Worlds
end ToyDB.Raft
