import ToyDB.Raft.Simulation

/-!
# Panics

Without restarts no assertion of a node ever fails. After a restart a node has
forgotten its role but not its term, and panics exactly on the messages of that
term that are addressed to the role it had.
-/
namespace ToyDB.Raft
open ToyDB.Consensus ToyDB.Effects

/-! ## Runs without restarts -/

/-- The node that an action starts. -/
def Move.started : Move → Option NodeID
  | .run (.start id _ _) _ _ => some id
  | _ => none

/-- Every node is started at most once. -/
def WithoutRestarts (moves : List Move) : Prop := (moves.filterMap Move.started).Nodup

section Processes
variable {cfg : Config} {w w' : World}

/-- What running a program does to the processes. -/
theorem execute_process {i : NodeID} {disk : Disk} {startTerm : ℕ} {program : Action Node}
    {supply : List ℕ} {cut : Option ℕ} (j : NodeID) :
    (w.execute i disk startTerm program supply cut).process j = w.process j ∧ j ≠ i ∨
      j = i ∧ ∀ node s,
        (w.execute i disk startTerm program supply cut).process j = .up node s → s = startTerm := by
  obtain ⟨_, _, _, _, _, hother, hi⟩ := w.execute_cases i disk startTerm program supply cut
  by_cases hj : j = i
  · refine Or.inr ⟨hj, fun node s h => ?_⟩
    rw [hj] at h
    rcases hi with ⟨_, hd⟩ | ⟨_, hu, _⟩
    · rw [hd] at h
      cases h
    · rw [hu] at h
      exact (Process.up.inj h).2.symm
  · exact Or.inl ⟨hother j hj, hj⟩

/-- Starts aside, an action leaves stopped nodes alone, and running nodes keep the
term in which they started. -/
theorem step_process {m : Move} (hw : w.step cfg m = some w') (j : NodeID) :
    w'.process j = w.process j ∨
      (∃ node s, w.process j = .up node s ∧ ∀ node' s', w'.process j = .up node' s' → s' = s) ∨
      ∃ disk commitIndex applied, m.started = some j ∧ w.process j = .down disk ∧
        ∀ node' s', w'.process j = .up node' s' →
          s' = (disk.restore commitIndex applied).log.term := by
  have hnode : ∀ {v : World} {msg supply cut}, v.process = w.process →
      World.stepNode cfg v msg supply cut = some w' →
      w'.process j = w.process j ∨
        ∃ node s, w.process j = .up node s ∧ ∀ node' s', w'.process j = .up node' s' → s' = s := by
    intro v msg supply cut hv hw
    simp only [World.stepNode] at hw
    cases hp : v.process msg.recipient with
    | down disk => simp [hp] at hw
    | up node s =>
        rw [hp] at hw
        obtain rfl := Option.some.inj hw
        rcases execute_process (w := v) (i := msg.recipient) j with ⟨h, _⟩ | ⟨rfl, h⟩
        · exact Or.inl (h.trans (congrFun hv j))
        · exact Or.inr ⟨node, s, by rw [← hv, hp], h⟩
  cases m with
  | run input supply cut =>
      cases input with
      | start id commitIndex applied =>
          simp only [World.step, World.input] at hw
          cases hp : w.process id with
          | up node s => simp [hp] at hw
          | down disk =>
              rw [hp] at hw
              simp only at hw
              split_ifs at hw
              obtain rfl := Option.some.inj hw
              rcases execute_process (w := w) (i := id) j with ⟨h, _⟩ | ⟨rfl, h⟩
              · exact Or.inl h
              · exact Or.inr (Or.inr ⟨disk, commitIndex, applied, rfl, hp, h⟩)
      | tick id =>
          simp only [World.step, World.input] at hw
          cases hp : w.process id with
          | down disk => simp [hp] at hw
          | up node s =>
              rw [hp] at hw
              obtain rfl := Option.some.inj hw
              rcases execute_process (w := w) (i := id) j with ⟨h, _⟩ | ⟨rfl, h⟩
              · exact Or.inl h
              · exact Or.inr (Or.inl ⟨node, s, hp, h⟩)
      | deliver position =>
          simp only [World.step, World.input] at hw
          cases hn : w.network[position]? with
          | none => simp [hn] at hw
          | some msg =>
              rw [hn] at hw
              exact (hnode (v := { w with network := w.network.eraseIdx position }) rfl hw).imp_right
                Or.inl
      | submit id request body =>
          simp only [World.step, World.input] at hw
          cases hp : w.process id with
          | down disk => simp [hp] at hw
          | up node s =>
              rw [hp] at hw
              exact (hnode (v := w.mark id [.submitted request body]) rfl hw).imp_right Or.inl
  | crash id =>
      simp only [World.step] at hw
      cases hp : w.process id with
      | down disk => simp [hp] at hw
      | up node s =>
          rw [hp] at hw
          obtain rfl := Option.some.inj hw
          by_cases hj : j = id
          · subst hj
            exact Or.inr (Or.inl ⟨node, s, hp, by simp [World.setProcess]⟩)
          · exact Or.inl (by simp [World.setProcess, hj])
  | drop position =>
      obtain rfl := Option.some.inj hw
      exact Or.inl rfl
  | duplicate position =>
      simp only [World.step] at hw
      cases hn : w.network[position]? with
      | none => simp [hn] at hw
      | some msg =>
          rw [hn] at hw
          obtain rfl := Option.some.inj hw
          exact Or.inl rfl

end Processes

section Panics
variable {cfg : Config} {h : History} {w w' : World}

/-- No stale message is of term zero. -/
theorem Sent.stale_pos {msg : Envelope} (hi : h.Inv cfg.memberSet)
    (hs : Sent cfg h msg) (hne : msg.sender ≠ msg.recipient) {startTerm : ℕ}
    {node : Node} (hst : Stale startTerm node msg) : 0 < startTerm := by
  cases node with
  | candidate _ => exact hst.elim
  | leader _ => exact hst.elim
  | follower node =>
      obtain ⟨hT, hterm, hkind⟩ := hst
      rw [hT, ← hterm]
      have hmeans := hs.means
      cases hmsg : msg.message <;> rw [hmsg] at hkind hmeans
      case heartbeatResponse => exact (hi.core.led_le hmeans.1.led).1
      case appendResponse => exact (hi.core.led_le hmeans.led).1
      case readResponse => exact (hi.core.led_le hmeans.led).1
      case clientRequest => exact (hi.core.led_le hmeans.1).1
      case clientResponse => exact (hi.core.led_le (hmeans.2 hne).1).1
      all_goals exact hkind.elim

/-- What holds along a run that starts each node once: nodes that run started with an
empty log, the nodes yet to be started never ran, and nothing panicked. -/
structure Unbroken (cfg : Config) (w : World) (rest : List Move) : Prop where
  described : ∃ h, Describes cfg h w
  fresh : ∀ i node s, w.process i = .up node s → s = 0
  idle : ∀ i ∈ rest.filterMap Move.started, w.process i = .down Disk.empty
  once : WithoutRestarts rest
  calm : ∀ n message, (n, Mark.panicked message) ∉ w.trace

theorem Unbroken.step {m : Move} {rest : List Move} (hu : Unbroken cfg w (m :: rest))
    (hmax : 1 ≤ cfg.opts.maxAppendEntries) (hw : w.step cfg m = some w') :
    Unbroken cfg w' rest := by
  obtain ⟨h, hs⟩ := hu.described
  obtain ⟨marks, h', hc⟩ := hs.step hw
  have honce : (rest.filterMap Move.started).Nodup ∧
      ∀ i, m.started = some i → i ∉ rest.filterMap Move.started := by
    have := hu.once
    rw [WithoutRestarts, List.filterMap_cons] at this
    cases hm : m.started with
    | none => rw [hm] at this; exact ⟨this, by simp⟩
    | some i =>
        rw [hm] at this
        obtain ⟨h₁, h₂⟩ := List.nodup_cons.mp this
        exact ⟨h₂, fun j hj => Option.some.inj hj ▸ h₁⟩
  refine ⟨⟨h', hc.describes⟩, fun i node s hp => ?_, fun i hi => ?_, honce.1, fun n message hmem => ?_⟩
  · rcases step_process hw i with heq | ⟨node', s', hup, hsame⟩ | ⟨disk, c, a, hst, hdown, hterm⟩
    · exact hu.fresh i node s (heq ▸ hp)
    · rw [hsame node s hp, hu.fresh i node' s' hup]
    · have hidle := hu.idle i (List.mem_filterMap.mpr ⟨m, List.mem_cons_self, hst⟩)
      rw [hdown] at hidle
      obtain rfl := Process.down.inj hidle
      rw [hterm node s hp]
      simp [Disk.restore, Disk.empty, Log.empty]
  · have hidle := hu.idle i (by
      obtain ⟨x, hx, hxs⟩ := List.mem_filterMap.mp hi
      exact List.mem_filterMap.mpr ⟨x, List.mem_cons_of_mem m hx, hxs⟩)
    rcases step_process hw i with heq | ⟨node', s', hup, _⟩ | ⟨_, _, _, hst, _, _⟩
    · rw [heq, hidle]
    · rw [hidle] at hup
      cases hup
    · exact absurd hi (honce.2 i hst)
  · rw [hc.trace] at hmem
    rcases List.mem_append.mp hmem with hmem | hmem
    · exact hu.calm n message hmem
    · rcases hc.panicked n message hmem with ⟨position, supply, cut, msg, node, s, rfl, hn, hp, hst⟩ | h0
      · obtain ⟨hsent, hne⟩ := hs.network msg (List.mem_of_getElem? hn)
        have := hsent.stale_pos hs.inv hne hst
        have := hu.fresh _ _ _ hp
        omega
      · omega

/-- Without restarts no node ever panics. -/
theorem no_panic {moves : List Move} (hr : World.run cfg World.init moves = some w)
    (honce : WithoutRestarts moves) (hmax : 1 ≤ cfg.opts.maxAppendEntries) :
    ∀ n message, (n, Mark.panicked message) ∉ w.trace := by
  have hrun : ∀ (moves : List Move) (v : World), Unbroken cfg v moves →
      World.run cfg v moves = some w → ∀ n message, (n, Mark.panicked message) ∉ w.trace := by
    intro moves
    induction moves with
    | nil =>
        intro v hu hw
        obtain rfl := Option.some.inj hw
        exact hu.calm
    | cons m moves ih =>
        intro v hu hw
        obtain ⟨v', hv, hw⟩ := Option.bind_eq_some_iff.mp hw
        exact ih v' (hu.step hmax hv) hw
  refine hrun moves World.init ⟨⟨_, describes_init⟩, ?_, fun i _ => rfl, honce, ?_⟩ hr
  · simp [World.init]
  · simp [World.init]

/-- A run through an election, a commit and a read. -/
theorem no_panic_three : WithoutRestarts
      (Move.election ++ [Move.submit 1 7 (.read []), Move.deliver 4, Move.deliver 5]) ∧
    (2, Mark.panicked "client response from non-leader") ∉ (World.after .three
      (Move.election ++ [Move.submit 1 7 (.read []), Move.deliver 4, Move.deliver 5])).trace := by
  have hr := World.run_after (c := .three)
    (m := Move.election ++ [Move.submit 1 7 (.read []), Move.deliver 4, Move.deliver 5]) (by decide +kernel)
  have honce : WithoutRestarts
      (Move.election ++ [Move.submit 1 7 (.read []), Move.deliver 4, Move.deliver 5]) := by
    unfold WithoutRestarts
    decide +kernel
  exact ⟨honce, no_panic hr honce (by decide) 2 _⟩

/-! ## Restarts -/

/-- A stale message makes the node panic. -/
theorem Stale.fails {startTerm : ℕ} {node : Node} {msg : Envelope} (hst : Stale startTerm node msg)
    (sm : StateMachine) : (node.step sm msg).Fails := by
  cases node with
  | candidate _ => exact hst.elim
  | leader _ => exact hst.elim
  | follower node =>
      obtain ⟨_, hterm, hkind⟩ := hst
      refine Program.Fails.after (fun _ => Program.Fails.after (fun _ => ?_) _) _
      change (node.stepFollower sm msg).Fails
      unfold RawNode.stepFollower
      rw [if_neg (by omega), if_neg (by omega)]
      refine Program.Fails.bind ?_ _
      unfold RawNode.stepMessage
      cases hmsg : msg.message <;> rw [hmsg] at hkind
      case heartbeatResponse => exact fun s => ⟨_, rfl⟩
      case appendResponse => exact fun s => ⟨_, rfl⟩
      case readResponse => exact fun s => ⟨_, rfl⟩
      case clientRequest => exact Program.Fails.bind (Program.fails_ensure hkind) _
      case clientResponse =>
        refine Program.Fails.bind (Program.fails_ensure fun h => hkind ?_) _
        dsimp only at h
        split_ifs at h <;> exact h.symm
      all_goals exact hkind.elim

/-- A node processes a message of the term in which it started exactly if the message
is not stale. -/
theorem restarted_step (hr : World.Reachable cfg w) {position : ℕ} {msg : Envelope}
    {node : Node} {startTerm : ℕ} (hn : w.network[position]? = some msg)
    (hp : w.process msg.recipient = .up node startTerm) (hT : msg.term = startTerm)
    (supply : List ℕ) :
    (∃ node', (node.step cfg.sm msg supply).result = .ok node') ↔ ¬ Stale startTerm node msg := by
  constructor
  · rintro ⟨node', hok⟩ hst
    obtain ⟨c, hc⟩ := hst.fails cfg.sm supply
    rw [hok] at hc
    cases hc
  · intro hst
    obtain ⟨h, _, hs⟩ := hr.describes
    have hproc : ProcessOk cfg h msg.recipient (.up node startTerm) := hp ▸ hs.process msg.recipient
    obtain ⟨hstart, g, rfl, hnode⟩ := hproc
    obtain ⟨hsent, hne⟩ := hs.network msg (List.mem_of_getElem? hn)
    obtain ⟨g', _, hres⟩ := runs_step hnode hstart (.delivered hsent rfl hne) supply
    cases hout : (node.step cfg.sm msg supply).result with
    | ok node' => exact ⟨node', rfl⟩
    | error c =>
        rw [hout] at hres
        rcases hres with h | ⟨hf, hterm, _⟩
        · exact absurd h hst
        · have := hstart.2 hf
          omega

/-- The run steps the node, which runs since it started in the term, with the message. -/
def Delivers (cfg : Config) (moves : List Move) (msg : Envelope) (node : Node) (startTerm : ℕ)
    (supply : List ℕ) : Prop :=
  ∃ ms position cut ns v, moves = ms ++ .run (.deliver position) supply cut :: ns ∧
    World.run cfg World.init ms = some v ∧ v.network[position]? = some msg ∧
    v.process msg.recipient = .up node startTerm

/-- Every step of the run with a message of the term in which the node was started
returns a node. -/
def Survives (cfg : Config) (moves : List Move) : Prop :=
  ∀ msg node startTerm supply, Delivers cfg moves msg node startTerm supply →
    msg.term = startTerm → ∃ node', (node.step cfg.sm msg supply).result = .ok node'

/-- The nodes of a run survive the messages of the term in which they were started
exactly if no such message is addressed to the role that its recipient lost. -/
theorem survives_iff (cfg : Config) (moves : List Move) : Survives cfg moves ↔
    ∀ msg node startTerm supply, Delivers cfg moves msg node startTerm supply →
      ¬ Stale startTerm node msg := by
  constructor
  · rintro h msg node startTerm supply hd hst
    have hT : msg.term = startTerm := hst.term_eq
    obtain ⟨ms, position, cut, ns, v, -, hv, hn, hp⟩ := id hd
    exact (restarted_step ⟨ms, hv⟩ hn hp hT supply).mp (h msg node startTerm supply hd hT) hst
  · rintro h msg node startTerm supply hd hT
    obtain ⟨ms, position, cut, ns, v, -, hv, hn, hp⟩ := id hd
    exact (restarted_step ⟨ms, hv⟩ hn hp hT supply).mpr (h msg node startTerm supply hd)

/-- Node 1 becomes leader, sends an append to node 2, crashes and starts again. -/
def restart : List Move := Move.election.take 7 ++ [Move.crash 1, Move.start 1]

/-- The restarted node panics on the response of node 2 to the leader that it was. -/
theorem not_survives : ¬ ∀ cfg moves, (World.run cfg World.init moves).isSome →
    Survives cfg moves := by
  intro hall
  have hs := hall .three (restart ++ [Move.deliver 4]) (by decide +kernel)
  have hr := World.run_after (c := .three) (m := restart) (by decide +kernel)
  have hn : (World.after .three restart).network[4]? = some ⟨2, 1, 1, .appendResponse 1 0⟩ := by
    decide +kernel
  have hup : ((World.after .three restart).process 1).any fun node startTerm => startTerm = 1 ∧
      (node.step .echo ⟨2, 1, 1, .appendResponse 1 0⟩ []).result.toOption.isNone := by
    decide +kernel
  generalize World.after .three restart = v at hr hn hup
  obtain ⟨node, startTerm, hp, ht⟩ := Process.exists_up hup
  obtain ⟨rfl, hfail⟩ := of_decide_eq_true ht
  obtain ⟨node', hok⟩ := hs _ node 1 [] ⟨restart, 4, none, [], v, rfl, hr, hn, hp⟩ rfl
  rw [show Config.three.sm = .echo from rfl] at hok
  rw [hok] at hfail
  cases hfail

end Panics
end ToyDB.Raft
