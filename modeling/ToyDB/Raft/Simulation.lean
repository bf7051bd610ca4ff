import ToyDB.Raft.NodeSpec

/-!
# Runs of the cluster follow the history

The trace of every run is a path of `traceSystem`: each mark is true of the history
when it happens. In every reachable world, each process holds its invariant at the
history, and every message in flight is true of it.
-/
namespace ToyDB.Raft
open ToyDB.Consensus ToyDB.Effects

/-- The history after a client submitted a request at a node. -/
def History.submit (h : History) (i : NodeID) (id : RequestID) (request : Request) : History :=
  { h with requests := fun n x r => h.requests n x r ∨ n = i ∧ x = id ∧ r = request }

/-- The specification of the cluster. -/
def traceSystem (cfg : Config) : System History (NodeID × Mark) where
  silent h h' := ∃ i ∈ cfg.members, History.Moves cfg.memberSet i h h' ∧ Shown i none h h'
  visible h m h' := m.1 ∈ cfg.members ∧ History.Moves cfg.memberSet m.1 h h' ∧
    match m.2 with
    | .event e => Occurs cfg m.1 h' e ∧ Shown m.1 (some e) h h'
    | .submitted id request => h' = h.submit m.1 id request
    | .panicked _ => h' = h

section Paths
variable {cfg : Config} {h h' : History} {marks : List (NodeID × Mark)}

theorem trace_grows (hi : h.Inv cfg.memberSet) (hp : (traceSystem cfg).Path h marks h') :
    h'.Inv cfg.memberSet ∧ History.Grows h h' := by
  refine hp.relates (R := fun h h' => h.Inv cfg.memberSet → h'.Inv cfg.memberSet ∧
    History.Grows h h') (fun h hi => ⟨hi, .refl h⟩) (fun h₁ h₂ hi => ?_) (fun h h' hs hi => ?_)
    (fun h _ h' hv hi => ⟨hv.2.1.inv hi, hv.2.1.grows hi⟩) hi
  · obtain ⟨hi₁, hg₁⟩ := h₁ hi
    obtain ⟨hi₂, hg₂⟩ := h₂ hi₁
    exact ⟨hi₂, hg₁.trans hg₂⟩
  · obtain ⟨i, _, hm, _⟩ := hs
    exact ⟨hm.inv hi, hm.grows hi⟩

/-- The history at the time of a mark. -/
theorem trace_at (hi : h.Inv cfg.memberSet) {pre post : List (NodeID × Mark)} {m : NodeID × Mark}
    (hp : (traceSystem cfg).Path h (pre ++ m :: post) h') :
    ∃ h₁ h₂, (traceSystem cfg).Path h pre h₁ ∧ h₁.Inv cfg.memberSet ∧
      (traceSystem cfg).visible h₁ m h₂ ∧ h₂.Inv cfg.memberSet ∧ History.Grows h₁ h₂ ∧
      (traceSystem cfg).Path h₂ post h' ∧ History.Grows h₂ h' := by
  obtain ⟨h₁, h₂, hpre, hv, hpost⟩ := hp.at
  have hi₁ := (trace_grows hi hpre).1
  have hi₂ := hv.2.1.inv hi₁
  exact ⟨h₁, h₂, hpre, hi₁, hv, hi₂, hv.2.1.grows hi₁, hpost, (trace_grows hi₂ hpost).2⟩

/-- A run of one node is a path of the cluster. -/
theorem node_path {i : NodeID} (hi : i ∈ cfg.members) {g g' : Point cfg i} {es : List Event}
    (hp : (nodeSystem cfg i).Path g es g') :
    (traceSystem cfg).Path g.hist (es.map fun e => (i, Mark.event e)) g'.hist := by
  induction hp with
  | refl g => exact .refl _
  | silent hs _ ih => exact .silent ⟨i, hi, hs.2.1, hs.2.2⟩ ih
  | visible hv _ ih => exact .visible ⟨hi, hv.2.1, hv.2.2⟩ ih

/-- The messages of a node's run are true when it ends. -/
theorem node_sent {i : NodeID} {g g' : Point cfg i} {es : List Event}
    (hp : (nodeSystem cfg i).Path g es g') {env : Envelope} (he : env ∈ es.filterMap World.routed) :
    Sent cfg g'.hist env ∧ env.sender ≠ env.recipient := by
  induction hp with
  | refl g => simp at he
  | silent _ _ ih => exact ih he
  | @visible g g₁ g₂ e es hv hp ih =>
      obtain ⟨x, hx, hr⟩ := List.mem_filterMap.mp he
      rcases List.mem_cons.mp hx with rfl | hx
      swap
      · exact ih (List.mem_filterMap.mpr ⟨x, hx, hr⟩)
      have ho := hv.2.2.1
      cases x with
      | send sent =>
          obtain ⟨hsender, hs, hself⟩ := ho
          have hne : sent.recipient ≠ sent.sender ∧ env = sent := by
            simp only [World.routed] at hr
            cases hm : sent.message with
            | clientResponse id response =>
                rw [hm] at hr
                split_ifs at hr with h₁
                exact ⟨h₁, (Option.some.inj hr).symm⟩
            | _ =>
                rw [hm] at hr
                refine ⟨fun h₁ => ?_, (Option.some.inj hr).symm⟩
                obtain ⟨_, _, hc⟩ := hself (h₁.trans hsender)
                rw [hm] at hc
                cases hc
          obtain ⟨hne, rfl⟩ := hne
          exact ⟨hs.grows (path_grows hp), Ne.symm hne⟩
      | _ => simp [World.routed] at hr

end Paths

/-! ## Worlds -/

def ProcessOk (cfg : Config) (h : History) (i : NodeID) : Process → Prop
  | .down disk => Stored h i disk.log disk.state
  | .up node startTerm => Started startTerm node ∧
      ∃ g : Point cfg i, g.hist = h ∧ NodeAt startTerm node g

/-- The world is one that the history describes. -/
structure Describes (cfg : Config) (h : History) (w : World) : Prop where
  inv : h.Inv cfg.memberSet
  process : ∀ i, ProcessOk cfg h i (w.process i)
  network : ∀ env ∈ w.network, Sent cfg h env ∧ env.sender ≠ env.recipient

section Worlds
variable {cfg : Config} {h h' : History} {w w' : World} {i : NodeID}

theorem describes_init : Describes cfg History.init World.init where
  inv := History.inv_init _
  process i := by
    constructor <;> simp [History.init, Local.fresh, Disk.empty, Log.empty, lastTerm,
      Chosen]
  network := by simp [World.init]

/-- A process holds its invariant while another node moves. -/
theorem ProcessOk.moves {j : NodeID} {p : Process} (hp : ProcessOk cfg h j p)
    (hi : h.Inv cfg.memberSet) (hm : History.Moves cfg.memberSet i h h') (hne : j ≠ i) :
    ProcessOk cfg h' j p := by
  have hsame := hm.same hne
  have hg := hm.grows hi
  match p with
  | .down disk => exact Stored.grows hg hp hsame
  | .up node startTerm =>
      obtain ⟨hst, g, rfl, hn⟩ := hp
      exact ⟨hst, ⟨h', g.disk, hm.inv hi, g.stored.grows hg hsame⟩, rfl, hn.grows hg hsame rfl⟩

/-- The disk of a process, as a point of its node. -/
theorem ProcessOk.stored {p : Process} (hp : ProcessOk cfg h i p) :
    Stored h i p.disk.log p.disk.state := by
  match p with
  | .down disk => exact hp
  | .up node startTerm =>
      obtain ⟨_, g, rfl, hn⟩ := hp
      have := g.stored
      rwa [hn.runsAt.1] at this

theorem Describes.of_network {network : List Envelope} (hs : Describes cfg h w)
    (hn : ∀ env ∈ network, env ∈ w.network) : Describes cfg h { w with network := network } :=
  ⟨hs.inv, hs.process, fun env he => hs.network env (hn env he)⟩

/-- The world after node `i` moved along a path. -/
theorem Describes.observe (hs : Describes cfg h w) {g g' : Point cfg i} (hg : g.hist = h)
    {es : List Event} (hp : (nodeSystem cfg i).Path g es g') {p : Process}
    (hproc : ProcessOk cfg g'.hist i p) :
    Describes cfg g'.hist ((w.observe i es).setProcess i p) := by
  subst hg
  have hm := path_moves hp
  refine ⟨g'.inv, fun j => ?_, fun env he => ?_⟩
  · by_cases hj : j = i
    · subst hj
      simpa [World.setProcess] using hproc
    · simpa [World.setProcess, Function.update_of_ne hj, World.observe, World.mark]
        using (hs.process j).moves hs.inv hm hj
  · rcases List.mem_append.mp he with he | he
    · obtain ⟨h₁, h₂⟩ := hs.network env he
      exact ⟨h₁.grows (path_grows hp), h₂⟩
    · exact node_sent hp he

/-- Running a program continues the trace along the history; if it panics, then for
the reason `X`. -/
theorem Describes.execute (hs : Describes cfg h w) (hi : i ∈ cfg.members) {X : Prop}
    {g : Point cfg i} (hg : g.hist = h) {startTerm : ℕ} {program : Action Node}
    (hr : Runs cfg i X program (fun node g' => NodeAt startTerm node g' ∧ Started startTerm node) g)
    (supply : List ℕ) (cut : Option ℕ) :
    ∃ marks h', (w.execute i g.disk startTerm program supply cut).trace = w.trace ++ marks ∧
      (traceSystem cfg).Path h marks h' ∧
      Describes cfg h' (w.execute i g.disk startTerm program supply cut) ∧
      ∀ n message, (n, Mark.panicked message) ∈ marks → X := by
  have hevents : ∀ (es : List Event) n message,
      (n, Mark.panicked message) ∈ es.map (fun e => (i, Mark.event e)) → X := by simp
  have hstop : ∀ {es g'}, (nodeSystem cfg i).Path g es g' →
      ProcessOk cfg g'.hist i (.down (es.foldl Disk.record g.disk)) := by
    intro es g' hp
    rw [← path_disk hp]
    exact g'.stored
  cases cut with
  | some k =>
      obtain ⟨g', hp⟩ := hr.cut supply k
      exact ⟨_, g'.hist, by simp only [World.execute, World.setProcess_trace, World.observe_trace],
        hg ▸ node_path hi hp, hs.observe hg hp (hstop hp), hevents _⟩
  | none =>
      obtain ⟨g', hp, hres⟩ := hr supply
      have hnode := node_path hi hp
      rw [hg] at hnode
      simp only [World.execute]
      cases hout : (program supply).result with
      | ok node =>
          rw [hout] at hres
          exact ⟨_, g'.hist, by simp only [World.setProcess_trace, World.observe_trace], hnode,
            hs.observe hg hp ⟨hres.2, g', rfl, hres.1⟩, hevents _⟩
      | error f =>
          have hdown := hs.observe hg hp (hstop hp)
          rw [hout] at hres
          cases f with
          | error e =>
              exact ⟨_, g'.hist, by simp only [World.setProcess_trace, World.observe_trace], hnode,
                hdown, hevents _⟩
          | panic message =>
              refine ⟨_, g'.hist, ?_,
                hnode.append (.visible (e := (i, .panicked message)) ⟨hi, .refl, rfl⟩ (.refl _)),
                ⟨hdown.inv, hdown.process, hdown.network⟩, fun _ _ _ => hres⟩
              simp only [World.setProcess_trace, World.mark_trace, World.observe_trace,
                List.append_assoc, List.map_cons, List.map_nil]

/-- What a start restores of a disk is still true. -/
theorem Stored.restore {disk : Disk} (hs : Stored h i disk.log disk.state)
    (commitIndex applied : ℕ) :
    Stored h i (disk.restore commitIndex applied).log (disk.restore commitIndex applied).state := by
  have happlied : disk.state.take applied <+: disk.state := List.take_prefix _ _
  unfold Disk.restore
  split_ifs with hlt
  · have htake : disk.log.entries.take commitIndex <+:
        disk.log.entries.take disk.log.commitIndex := List.take_prefix_take_left hlt.le
    exact {
      term := hs.term
      entries := hs.entries
      vote := hs.vote
      commit_le := hlt.le.trans hs.commit_le
      commit_term := by
        cases commitIndex with
        | zero => rfl
        | succ k =>
            have hle := hs.commit_le
            obtain ⟨e, he⟩ : ∃ e, disk.log.entries[k]? = some e :=
              ⟨_, List.getElem?_eq_getElem (by omega)⟩
            rw [lastTerm_take he]
            simp [Log.get, he]
      committed := hs.committed.initial htake
      state_initial := happlied.trans hs.state_initial
      applied := hs.applied.initial happlied }
  · exact { hs with
      state_initial := happlied.trans hs.state_initial
      applied := hs.applied.initial happlied }

/-- Why a step of a world may panic: a node gets a message for its role before a
restart, or no entries may be appended. -/
def Excused (cfg : Config) (w : World) (m : Move) : Prop :=
  (∃ position supply cut msg node startTerm, m = .run (.deliver position) supply cut ∧
    w.network[position]? = some msg ∧ w.process msg.recipient = .up node startTerm ∧
    Stale startTerm node msg) ∨ cfg.opts.maxAppendEntries = 0

/-- The world after an action, with the marks it adds. -/
structure Continues (cfg : Config) (h : History) (w w' : World) (X : Prop)
    (marks : List (NodeID × Mark)) (h' : History) : Prop where
  trace : w'.trace = w.trace ++ marks
  path : (traceSystem cfg).Path h marks h'
  describes : Describes cfg h' w'
  panicked : ∀ n message, (n, Mark.panicked message) ∈ marks → X

theorem Describes.start (hs : Describes cfg h w) {X : Prop} {commitIndex applied : ℕ}
    {supply : List ℕ} {cut : Option ℕ}
    (hw : w.input cfg supply cut (.start i commitIndex applied) = some w') :
    ∃ marks h', Continues cfg h w w' X marks h' := by
  simp only [World.input] at hw
  cases hp : w.process i with
  | up node startTerm => simp [hp] at hw
  | down disk =>
      rw [hp] at hw
      simp only at hw
      split_ifs at hw with hi
      have hst : Stored h i disk.log disk.state := by
        have := hs.process i
        rwa [hp] at this
      let g : Point cfg i :=
        ⟨h, disk.restore commitIndex applied, hs.inv, hst.restore commitIndex applied⟩
      obtain ⟨marks, h', h₁, h₂, h₃, h₄⟩ := hs.execute hi (g := g) (X := X) rfl
        (runs_new hi rfl) supply cut
      obtain rfl := Option.some.inj hw
      exact ⟨marks, h', h₁, h₂, h₃, h₄⟩

theorem Describes.tick (hs : Describes cfg h w) {X : Prop} {supply : List ℕ} {cut : Option ℕ}
    (hw : w.input cfg supply cut (.tick i) = some w') :
    ∃ marks h', Continues cfg h w w' X marks h' := by
  simp only [World.input] at hw
  cases hp : w.process i with
  | down disk => simp [hp] at hw
  | up node startTerm =>
      rw [hp] at hw
      have hn : ProcessOk cfg h i (.up node startTerm) := hp ▸ hs.process i
      obtain ⟨hst, g, hg, hn⟩ := hn
      obtain ⟨marks, h', h₁, h₂, h₃, h₄⟩ := hs.execute hn.runsAt.2 (X := X) hg (runs_tick hn hst)
        supply cut
      rw [hn.runsAt.1] at h₁ h₃
      obtain rfl := Option.some.inj hw
      exact ⟨marks, h', h₁, h₂, h₃, h₄⟩

theorem Describes.stepNode (hs : Describes cfg h w) {msg : Envelope} {supply : List ℕ}
    {cut : Option ℕ}
    (hm : ∀ node s, w.process msg.recipient = .up node s →
      Inbound cfg h msg.recipient node.term msg)
    (hw : World.stepNode cfg w msg supply cut = some w') :
    ∃ node s marks h', w.process msg.recipient = .up node s ∧
      Continues cfg h w w' (Stale s node msg ∨ node.isFollower = false ∧ msg.term = node.term ∧
        cfg.opts.maxAppendEntries = 0) marks h' := by
  simp only [World.stepNode] at hw
  cases hp : w.process msg.recipient with
  | down disk => simp [hp] at hw
  | up node startTerm =>
      rw [hp] at hw
      have hn : ProcessOk cfg h msg.recipient (.up node startTerm) := hp ▸ hs.process msg.recipient
      obtain ⟨hst, g, hg, hn⟩ := hn
      obtain ⟨marks, h', h₁, h₂, h₃, h₄⟩ := hs.execute hn.runsAt.2 hg
        (runs_step hn hst (hg.symm ▸ hm node startTerm hp)) supply cut
      rw [hn.runsAt.1] at h₁ h₃
      obtain rfl := Option.some.inj hw
      exact ⟨node, startTerm, marks, h', rfl, h₁, h₂, h₃, h₄⟩

/-- A client request that a node receives. -/
theorem Describes.submit (hs : Describes cfg h w) (id : NodeID) (request : RequestID)
    (body : Request) : Describes cfg (h.submit id request body)
      (w.mark id [.submitted request body]) := by
  have hm : History.Moves cfg.memberSet id h (h.submit id request body) :=
    .single (.submit request body)
  have hg := hm.grows hs.inv
  refine ⟨hm.inv hs.inv, fun j => ?_, fun env he => ?_⟩
  · have hj := hs.process j
    have hsame : History.Same j h (h.submit id request body) := ⟨rfl, rfl, rfl, rfl⟩
    change ProcessOk cfg _ j (w.process j)
    cases hpj : w.process j with
    | down disk => exact Stored.grows hg (by rwa [hpj] at hj) hsame
    | up node startTerm =>
        rw [hpj] at hj
        obtain ⟨hst, g, rfl, hn⟩ := hj
        exact ⟨hst, ⟨_, g.disk, hm.inv hs.inv, g.stored.grows hg hsame⟩, rfl,
          hn.grows hg hsame rfl⟩
  · obtain ⟨h₁, h₂⟩ := hs.network env he
    exact ⟨h₁.grows hg, h₂⟩

/-- Every action of a world continues its trace along the history. -/
theorem Describes.step (hs : Describes cfg h w) {m : Move}
    (hw : w.step cfg m = some w') : ∃ marks h', Continues cfg h w w' (Excused cfg w m) marks h' := by
  cases m with
  | run input supply cut =>
      cases input with
      | start id commitIndex applied => exact hs.start hw
      | tick id => exact hs.tick hw
      | deliver position =>
          simp only [World.step, World.input] at hw
          cases hn : w.network[position]? with
          | none => simp [hn] at hw
          | some msg =>
              rw [hn] at hw
              have hsent := hs.network msg (List.mem_of_getElem? hn)
              have hs' : Describes cfg h { w with network := w.network.eraseIdx position } :=
                hs.of_network fun env he => List.mem_of_mem_eraseIdx he
              obtain ⟨node, s, marks, h', hp, hc⟩ := hs'.stepNode
                (fun _ _ _ => .delivered hsent.1 rfl hsent.2) hw
              exact ⟨marks, h', hc.trace, hc.path, hc.describes, fun n message hmem =>
                (hc.panicked n message hmem).imp (fun hst => ⟨position, supply, cut, msg, node,
                  s, rfl, hn, hp, hst⟩) fun h => h.2.2⟩
      | submit id request body =>
          simp only [World.step, World.input] at hw
          cases hp : w.process id with
          | down disk => simp [hp] at hw
          | up node startTerm =>
              rw [hp] at hw
              simp only at hw
              have hmem : id ∈ cfg.members := by
                have hn : ProcessOk cfg h id (.up node startTerm) := hp ▸ hs.process id
                obtain ⟨_, g, _, hn⟩ := hn
                exact hn.runsAt.2
              have hm : History.Moves cfg.memberSet id h (h.submit id request body) :=
                .single (.submit request body)
              have hs' := hs.submit id request body
              obtain ⟨node', s, marks, h', hp', hc⟩ := hs'.stepNode (fun node' s' hp' => by
                have hsame : Process.up node startTerm = .up node' s' := hp.symm.trans hp'
                cases hsame
                exact .submitted request body (Or.inr ⟨rfl, rfl, rfl⟩) rfl) hw
              refine ⟨(id, .submitted request body) :: marks, h', ?_, .visible ⟨hmem, hm, rfl⟩ hc.path,
                hc.describes, fun n message hmem' => ?_⟩
              · rw [hc.trace]
                simp
              · rcases List.mem_cons.mp hmem' with heq | hmem'
                · simp at heq
                · refine (hc.panicked n message hmem').imp (fun hst => ?_) fun h => h.2.2
                  cases node' with
                  | follower f =>
                      have hown : (⟨id, node.term, id, .clientRequest request body⟩ :
                          Envelope).sender ≠ f.id := hst.2.2
                      have hn : ProcessOk cfg _ id (.up (.follower f) s) := hp' ▸ hs'.process id
                      obtain ⟨_, g, _, hn⟩ := hn
                      exact absurd hn.id.symm hown
                  | candidate c => exact hst.elim
                  | leader l => exact hst.elim
  | crash id =>
      simp only [World.step] at hw
      cases hp : w.process id with
      | down disk => simp [hp] at hw
      | up node startTerm =>
          rw [hp] at hw
          obtain rfl := Option.some.inj hw
          have hn : ProcessOk cfg h id (.up node startTerm) := hp ▸ hs.process id
          have hst : ProcessOk cfg h id (.down ⟨node.log, node.state⟩) := ProcessOk.stored hn
          refine ⟨[], h, by simp, .refl h, ⟨hs.inv, fun j => ?_, hs.network⟩, by simp⟩
          by_cases hj : j = id
          · subst hj
            simpa [World.setProcess] using hst
          · simpa [World.setProcess, Function.update_of_ne hj] using hs.process j
  | drop position =>
      obtain rfl := Option.some.inj hw
      exact ⟨[], h, by simp, .refl h, hs.of_network fun env he => List.mem_of_mem_eraseIdx he,
        by simp⟩
  | duplicate position =>
      simp only [World.step] at hw
      cases hn : w.network[position]? with
      | none => simp [hn] at hw
      | some msg =>
          rw [hn] at hw
          obtain rfl := Option.some.inj hw
          refine ⟨[], h, by simp, .refl h, hs.of_network fun env he => ?_, by simp⟩
          rcases List.mem_append.mp he with he | he
          · exact he
          · exact List.mem_singleton.mp he ▸ List.mem_of_getElem? hn

/-- Every run continues the trace along the history. -/
theorem Describes.run {moves : List Move} (hs : Describes cfg h w)
    (hw : World.run cfg w moves = some w') :
    ∃ marks h', w'.trace = w.trace ++ marks ∧ (traceSystem cfg).Path h marks h' ∧
      Describes cfg h' w' := by
  induction moves generalizing h w with
  | nil =>
      obtain rfl := Option.some.inj hw
      exact ⟨[], h, by simp, .refl h, hs⟩
  | cons m moves ih =>
      obtain ⟨v, hv, hw⟩ := Option.bind_eq_some_iff.mp hw
      obtain ⟨marks, h₁, hc⟩ := hs.step hv
      obtain ⟨marks', h₂, ht, hp, hs₂⟩ := ih hc.describes hw
      exact ⟨marks ++ marks', h₂, by rw [ht, hc.trace, List.append_assoc], hc.path.append hp, hs₂⟩

/-- Every reachable world is described by a history along its trace. -/
theorem World.Reachable.describes (hr : World.Reachable cfg w) :
    ∃ h, (traceSystem cfg).Path History.init w.trace h ∧ Describes cfg h w := by
  obtain ⟨moves, hw⟩ := hr
  obtain ⟨marks, h, ht, hp, hs⟩ := describes_init.run hw
  obtain rfl : w.trace = marks := by simpa [World.init] using ht
  exact ⟨h, hp, hs⟩

end Worlds
end ToyDB.Raft
