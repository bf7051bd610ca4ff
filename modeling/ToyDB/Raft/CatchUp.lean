import ToyDB.Raft.Exchange

/-!
# A follower catches up

After a heartbeat, the leader of a term and one of its followers exchange messages until the
follower has the log of the leader. Each message that they process is answered by one that is
closer to the end, so the exchange is bounded by the length of the log, whatever the logs of the
two nodes had in common before.
-/
namespace ToyDB.Raft
open ToyDB.Collections ToyDB.Consensus ToyDB.Effects

/-! ## Exchanges -/

/-- The messages of the replication between the nodes that are under way. -/
def World.underway (w : World) (i j : NodeID) (T : ℕ) : Multiset Envelope :=
  (↑w.network : Multiset Envelope).filter (Envelope.Replicates i j T)

/-- The nodes process a number of messages of their replication, and nothing else happens. -/
inductive Exchange (cfg : Config) (i j : NodeID) (T : ℕ) (w : World) : ℕ → World → Prop where
  | refl : Exchange cfg i j T w 0 w
  | deliver {n : ℕ} {v w' : World} {msg : Envelope} (position : ℕ) (supply : List ℕ) :
      Exchange cfg i j T w n v → v.network[position]? = some msg → msg.Replicates i j T →
      v.step cfg (.run (.deliver position) supply none) = some w' → Exchange cfg i j T w (n + 1) w'

/-- The leader of the term replicates the entries `L` to the follower: it awaits what is under
way, which is a bounded number of messages from the end. -/
structure CatchingUp (cfg : Config) (L : List Entry) (i j : NodeID) (T k : ℕ) (w : World) :
    Prop where
  reachable : World.Reachable cfg w
  leader : ∃ node start x, w.process i = .up (.leader node) start ∧ node.Leads L i j T x ∧
    Awaits L i j T x (w.underway i j T) k
  follower : ∃ node start, w.process j = .up (.follower node) start ∧ node.term = T

section CatchUp
variable {cfg : Config} {L : List Entry} {i j : NodeID} {T k : ℕ} {v w : World} {x : Progress}
  {msg : Envelope} {start start' : ℕ}

/-- A message under way is the only one. -/
theorem Awaits.eq_singleton {sent : Multiset Envelope} (h : Awaits L i j T x sent k)
    (hmem : msg ∈ sent) : sent = {msg} := by
  cases h with
  | done => exact absurd hmem (Multiset.notMem_zero msg)
  | heartbeat | compared | probed | rejected | sent | appended =>
      rw [Multiset.mem_singleton] at hmem
      rw [hmem]

/-- Nothing is under way only in the end. -/
theorem Awaits.match_eq (h : Awaits L i j T x 0 k) : x.matchIndex = L.length := by
  generalize hsent : (0 : Multiset Envelope) = sent at h
  cases h with
  | done hdone => exact hdone
  | heartbeat | compared | probed | rejected | sent | appended =>
      exact absurd hsent.symm (Multiset.singleton_ne_zero _)

/-- What a leader sends is not stale for a follower. -/
theorem Awaits.not_stale (h : Awaits L i j T x {msg} k) (hne : j ≠ i) (hto : msg.recipient = j)
    {node : RawNode Follower} : ¬ StaleFollower start node msg := by
  generalize hsent : ({msg} : Multiset Envelope) = sent at h
  cases h with
  | done => exact absurd hsent (Multiset.singleton_ne_zero msg)
  | heartbeat | probed | sent =>
      obtain rfl := Multiset.singleton_inj.mp hsent
      exact fun hstale => hstale.2.2
  | compared | rejected | appended =>
      obtain rfl := Multiset.singleton_inj.mp hsent
      exact absurd hto.symm hne

/-! ## What the nodes of a reachable world know -/

/-- The leader has appended to its log in its term, and knows no more of the follower than the
log has. -/
theorem World.Reachable.leader {node : RawNode Leader} (hw : World.Reachable cfg w)
    (hp : w.process i = .up (.leader node) start) : Indexed node.log.entries ∧
      0 < node.log.entries.length ∧ lastTerm node.log.entries = node.term ∧
      ∀ x, node.role.progress.get j = some x →
        x.matchIndex < x.nextIndex ∧ x.nextIndex ≤ node.log.entries.length + 1 := by
  obtain ⟨h, -, hs⟩ := hw.describes
  have hnode : ProcessOk cfg h i (.up (.leader node) start) := hp ▸ hs.process i
  obtain ⟨-, g, rfl, hl, hlast⟩ := hnode
  refine ⟨hl.indexed, ?_, hlast, fun x hx => ?_⟩
  · have hterm : 0 < node.log.term := (hs.inv.core.led_le hl.role.led).1
    by_contra hempty
    have hnil : node.log.entries = [] := List.length_eq_zero_iff.mp (by omega)
    rw [hnil] at hlast
    have hzero : 0 = node.log.term := hlast
    omega
  · have hprogress := hl.role.progress hx
    exact ⟨hprogress.match_lt, hprogress.next_le⟩

/-- A leader has a progress for every other running node. -/
theorem World.Reachable.leads {node : RawNode Leader} {other : Node} (hw : World.Reachable cfg w)
    (hopts : 1 ≤ cfg.opts.maxAppendEntries) (hp : w.process i = .up (.leader node) start)
    (hp' : w.process j = .up other start') (hne : j ≠ i) :
    ∃ x, node.Leads node.log.entries i j node.term x := by
  obtain ⟨h, -, hs⟩ := hw.describes
  have hnode : ProcessOk cfg h i (.up (.leader node) start) := hp ▸ hs.process i
  have hother : ProcessOk cfg h j (.up other start') := hp' ▸ hs.process j
  obtain ⟨-, g, rfl, hl, -⟩ := hnode
  obtain ⟨-, g', -, hat⟩ := hother
  have hmem : j ∈ node.role.progress.keys := by
    rw [hl.role.keys]
    exact Config.mem_peers.mpr ⟨hat.runsAt.2, hne⟩
  obtain ⟨x, hx⟩ := Option.isSome_iff_exists.mp (OrderedMap.mem_keys.mp hmem)
  exact ⟨x, hl.id, rfl, rfl, hx, by rw [hl.opts]; exact hopts⟩

/-- A follower in the term of the leader has what the leader recorded of it, and follows nobody
else. -/
theorem World.Reachable.follower {node : RawNode Leader} {other : RawNode Follower}
    (hw : World.Reachable cfg w) (hp : w.process i = .up (.leader node) start)
    (hp' : w.process j = .up (.follower other) start') (hterm : other.term = node.term)
    (hx : node.role.progress.get j = some x) :
    other.Matches node.log.entries i j node.term x := by
  obtain ⟨h, -, hs⟩ := hw.describes
  have hled := (hs.leader hp).1
  have hother : ProcessOk cfg h j (.up (.follower other) start') := hp' ▸ hs.process j
  obtain ⟨-, g, rfl, hat⟩ := hother
  refine ⟨hat.id, hterm, ?_, hat.indexed, ?_⟩
  · cases hleader : other.role.leader with
    | none => exact .inl rfl
    | some m =>
        have hled' : Led g.hist.core m other.term := (hat.role.led m hleader).2.2.1
        rw [hterm] at hled'
        rw [hs.inv.core.unique_leader hled' hled]
        exact .inr rfl
  · obtain ⟨-, hentries, -⟩ := (progress_truthful hw (World.run_nil cfg w) hp).1 j x hx
    rw [hp'] at hentries
    refine hentries.resolve_right ?_
    rintro ⟨-, later, hlt, hle, -⟩
    rw [hp'] at hle
    have hlog : other.log.term = node.term := hterm
    exact absurd hle (by simp only [Process.disk, Node.log]; omega)

/-- A leader and a follower are different nodes. -/
theorem World.ne_of_roles {leader : RawNode Leader} {follower : RawNode Follower}
    (hp : w.process i = .up (.leader leader) start)
    (hp' : w.process j = .up (.follower follower) start') : j ≠ i := by
  rintro rfl
  rw [hp] at hp'
  cases hp'

/-- Both parties of an exchange, with what they know of each other. -/
theorem CatchingUp.parties (h : CatchingUp cfg L i j T k w) : ∃ leader start follower start' x,
    w.process i = .up (.leader leader) start ∧ w.process j = .up (.follower follower) start' ∧
      leader.Leads L i j T x ∧ follower.Matches L i j T x ∧
      Awaits L i j T x (w.underway i j T) k := by
  obtain ⟨leader, start, x, hp, hleads, hawaits⟩ := h.leader
  obtain ⟨follower, start', hp', hterm⟩ := h.follower
  have hleader : leader.term = T := hleads.term
  have hmatches := h.reachable.follower hp hp' (hterm.trans hleader.symm) hleads.progress
  rw [hleader, hleads.entries] at hmatches
  exact ⟨leader, start, follower, start', x, hp, hp', hleads, hmatches, hawaits⟩

/-! ## A message is delivered -/

/-- A node processes a message that is not stale. -/
theorem World.Reachable.processes {node : Node} {position : ℕ} (hw : World.Reachable cfg w)
    (hopts : 1 ≤ cfg.opts.maxAppendEntries) (hn : w.network[position]? = some msg)
    (hp : w.process msg.recipient = .up node start) (hstale : ¬ Stale start node msg)
    (supply : List ℕ) : ∃ node', (node.step cfg.sm msg supply).result = .ok node' := by
  obtain ⟨h, -, hs⟩ := hw.describes
  have hnode : ProcessOk cfg h msg.recipient (.up node start) := hp ▸ hs.process msg.recipient
  obtain ⟨hstarted, g, rfl, hat⟩ := hnode
  obtain ⟨hsent, hne⟩ := hs.network msg (List.mem_of_getElem? hn)
  obtain ⟨g', -, hresult⟩ := runs_step hat hstarted (.delivered hsent rfl hne) supply
  cases hout : (node.step cfg.sm msg supply).result with
  | ok node' => exact ⟨node', rfl⟩
  | error c =>
      rw [hout] at hresult
      obtain hstale' | ⟨-, -, hzero⟩ := hresult
      · exact absurd hstale' hstale
      · omega

/-- The world after a node processed the message at a position. -/
def World.processed (w : World) (position : ℕ) (id : NodeID) (events : List Event) (node : Node)
    (start : ℕ) : World :=
  (World.observe { w with network := w.network.eraseIdx position } id events).setProcess id
    (.up node start)

theorem World.step_deliver {node node' : Node} {position : ℕ} {supply : List ℕ}
    (hn : w.network[position]? = some msg) (hp : w.process msg.recipient = .up node start)
    (hresult : (node.step cfg.sm msg supply).result = .ok node') :
    w.step cfg (.run (.deliver position) supply none) = some (w.processed position msg.recipient
      (node.step cfg.sm msg supply).events node' start) := by
  simp only [World.step, World.input, hn, World.stepNode, hp, World.execute, hresult]
  rfl

/-- The messages under way are those that the node sent, if it processed the only one. -/
theorem World.underway_processed {node : Node} {position : ℕ} {id : NodeID} {events : List Event}
    (hn : w.network[position]? = some msg) (hm : msg.Replicates i j T)
    (hunder : w.underway i j T = {msg}) :
    (w.processed position id events node start).underway i j T =
      (events.map (replicating i j T)).sum := by
  obtain ⟨hlt, hmsg⟩ := List.getElem?_eq_some_iff.mp hn
  have hrest : (↑(w.network.eraseIdx position) : Multiset Envelope).filter
      (Envelope.Replicates i j T) = 0 := by
    have hperm : (↑w.network : Multiset Envelope) = msg ::ₘ ↑(w.network.eraseIdx position) := by
      rw [← hmsg, Multiset.cons_coe]
      exact (Multiset.coe_eq_coe.mpr (List.getElem_cons_eraseIdx_perm hlt)).symm
    unfold World.underway at hunder
    rw [hperm, Multiset.filter_cons_of_pos _ hm] at hunder
    exact (Multiset.cons_inj_right msg).mp hunder
  rw [sum_replicating]
  change Multiset.filter _ (↑(w.network.eraseIdx position ++ events.filterMap World.routed) :
    Multiset Envelope) = _
  rw [← Multiset.coe_add, Multiset.filter_add, hrest, zero_add]

theorem World.Reachable.step {m : Move} (hw : World.Reachable cfg v)
    (hstep : v.step cfg m = some w) : World.Reachable cfg w := by
  obtain ⟨moves, hrun⟩ := hw
  refine ⟨moves ++ [m], ?_⟩
  rw [World.run_append, hrun]
  simp [hstep]

/-- A node processes the message that is under way, and the exchange is closer to its end. -/
theorem CatchingUp.deliver {position : ℕ} (h : CatchingUp cfg L i j T k w)
    (hopts : 1 ≤ cfg.opts.maxAppendEntries) (hn : w.network[position]? = some msg)
    (hm : msg.Replicates i j T) (supply : List ℕ) :
    ∃ w' k', w.step cfg (.run (.deliver position) supply none) = some w' ∧ k' < k ∧
      CatchingUp cfg L i j T k' w' := by
  obtain ⟨leader, start, follower, start', x, hp, hp', hleads, hmatches, hawaits⟩ := h.parties
  have hne := World.ne_of_roles hp hp'
  have hunder : w.underway i j T = {msg} := hawaits.eq_singleton
    (Multiset.mem_filter.mpr ⟨List.mem_of_getElem? hn, hm⟩)
  rw [hunder] at hawaits
  obtain ⟨hindexed, hpos, hlast, hprogress⟩ := h.reachable.leader (j := j) hp
  obtain ⟨hlt, hle⟩ := hprogress x hleads.progress
  rw [hleads.entries] at hindexed hpos hlast hle
  have hlast' : lastTerm L = T := hlast.trans hleads.term
  obtain ⟨⟨-, hto⟩ | ⟨-, hto⟩, -⟩ := id hm
  · have hup : w.process msg.recipient = .up (.follower follower) start' := hto ▸ hp'
    obtain ⟨node', hok⟩ := h.reachable.processes hopts hn hup (hawaits.not_stale hne hto) supply
    obtain ⟨next, rfl, k', hawaits', hk, hfollows⟩ :=
      hmatches.replies_step hne hlast' hpos hlt hle hawaits hto supply node' hok
    have hstep := World.step_deliver hn hup hok
    refine ⟨_, k', hstep, hk, h.reachable.step hstep, ⟨leader, start, x, ?_, hleads, ?_⟩,
      next, start', ?_, hfollows.term⟩
    · rw [hto]
      exact (Function.update_of_ne hne.symm _ _).trans hp
    · rw [World.underway_processed hn hm hunder]
      exact hawaits'
    · rw [hto]
      exact Function.update_self _ _ _
  · have hup : w.process msg.recipient = .up (.leader leader) start := hto ▸ hp
    obtain ⟨node', hok⟩ := h.reachable.processes hopts hn hup id supply
    obtain ⟨next, rfl, y, k', hawaits', hk, hleads'⟩ :=
      hleads.replies_step hne hindexed hpos hlt hle hawaits hto supply node' hok
    have hstep := World.step_deliver hn hup hok
    refine ⟨_, k', hstep, hk, h.reachable.step hstep, ⟨next, start, y, ?_, hleads', ?_⟩,
      follower, start', ?_, hmatches.term⟩
    · rw [hto]
      exact Function.update_self _ _ _
    · rw [World.underway_processed hn hm hunder]
      exact hawaits'
    · rw [hto]
      exact (Function.update_of_ne hne _ _).trans hp'

/-! ## The exchange ends -/

/-- An exchange stays one, and uses up the bound. -/
theorem CatchingUp.exchanged {n : ℕ} (h : CatchingUp cfg L i j T k v)
    (hopts : 1 ≤ cfg.opts.maxAppendEntries) (hw : Exchange cfg i j T v n w) :
    ∃ k', n + k' ≤ k ∧ CatchingUp cfg L i j T k' w := by
  induction hw with
  | refl => exact ⟨k, by omega, h⟩
  | deliver position supply _ hn hm hstep ih =>
      obtain ⟨k', hle, hcatching⟩ := ih
      obtain ⟨w', k₂, hstep', hlt, hnext⟩ := hcatching.deliver hopts hn hm supply
      rw [hstep] at hstep'
      obtain rfl := Option.some.inj hstep'
      exact ⟨k₂, by omega, hnext⟩

/-- The follower has the log of the leader, which knows it. -/
def Replicated (w : World) (L : List Entry) (i j : NodeID) (T : ℕ) : Prop :=
  ∃ leader start follower start' x, w.process i = .up (.leader leader) start ∧
    w.process j = .up (.follower follower) start' ∧ leader.term = T ∧ follower.term = T ∧
    leader.log.entries = L ∧ leader.role.progress.get j = some x ∧ x.matchIndex = L.length ∧
    L <+: follower.log.entries

/-- An exchange goes on as long as a message is under way, and then the follower has caught up. -/
theorem CatchingUp.ends (h : CatchingUp cfg L i j T k w)
    (hopts : 1 ≤ cfg.opts.maxAppendEntries) :
    w.underway i j T ≠ 0 ∧ (∃ w', Exchange cfg i j T w 1 w') ∨
      w.underway i j T = 0 ∧ Replicated w L i j T := by
  obtain hzero | ⟨msg, hmsg⟩ := Multiset.empty_or_exists_mem (w.underway i j T)
  · obtain ⟨leader, start, follower, start', x, hp, hp', hleads, hmatches, hawaits⟩ := h.parties
    rw [hzero] at hawaits
    have hentries := hmatches.entries
    rw [hawaits.match_eq, List.take_length] at hentries
    exact .inr ⟨hzero, leader, start, follower, start', x, hp, hp', hleads.term, hmatches.term,
      hleads.entries, hleads.progress, hawaits.match_eq, hentries⟩
  · obtain ⟨hmem, hm⟩ := Multiset.mem_filter.mp hmsg
    obtain ⟨position, hn⟩ := List.mem_iff_getElem?.mp (Multiset.mem_coe.mp hmem)
    obtain ⟨w', -, hstep, -⟩ := h.deliver hopts hn hm []
    refine .inl ⟨fun hzero => ?_, w', .deliver position [] .refl hn hm hstep⟩
    rw [hzero] at hmsg
    exact Multiset.notMem_zero msg hmsg

/-- After a heartbeat of the leader of a term to a follower in the term, the nodes process a
bounded number of messages between them, whatever the follower's log is. While a message is under
way the exchange can go on, and when none is, the follower has the whole log of the leader. -/
theorem follower_catches_up {leader : RawNode Leader} {follower : RawNode Follower}
    {commitIndex seq n : ℕ} (hv : World.Reachable cfg v) (hopts : 1 ≤ cfg.opts.maxAppendEntries)
    (hp : v.process i = .up (.leader leader) start)
    (hp' : v.process j = .up (.follower follower) start') (hterm : follower.term = leader.term)
    (hunder : v.underway i j leader.term =
      {⟨i, leader.term, j, .heartbeat leader.log.entries.length commitIndex seq⟩})
    (hw : Exchange cfg i j leader.term v n w) :
    n ≤ 4 * leader.log.entries.length + 5 ∧
      (w.underway i j leader.term ≠ 0 ∧ (∃ w', Exchange cfg i j leader.term w 1 w') ∨
        w.underway i j leader.term = 0 ∧ Replicated w leader.log.entries i j leader.term) := by
  obtain ⟨x, hleads⟩ := hv.leads hopts hp hp' (World.ne_of_roles hp hp')
  have hcatching : CatchingUp cfg leader.log.entries i j leader.term
      (4 * leader.log.entries.length + 5) v :=
    ⟨hv, ⟨leader, start, x, hp, hleads, hunder ▸ .heartbeat commitIndex seq⟩,
      follower, start', hp', hterm⟩
  obtain ⟨k, hle, hlast⟩ := hcatching.exchanged hopts hw
  exact ⟨by omega, hlast.ends hopts⟩

/-- Another message of the replication is processed. -/
theorem Exchange.after {n position : ℕ} {moves : List Move}
    (h : Exchange cfg i j T v n (World.after cfg moves))
    (hn : ((World.after cfg moves).network[position]?).any fun env => env.Replicates i j T)
    (hrun : (World.run cfg .init (moves ++ [Move.deliver position])).isSome) :
    Exchange cfg i j T v (n + 1) (World.after cfg (moves ++ [Move.deliver position])) := by
  obtain ⟨msg, hmsg, hm⟩ := Option.any_eq_true _ _ |>.mp hn
  obtain ⟨w', hstep, hlast⟩ := Option.bind_eq_some_iff.mp (World.run_after_append hrun).2
  obtain rfl := Option.some.inj hlast
  exact .deliver position [] h hmsg (of_decide_eq_true hm) hstep

/-- Node 1 is the leader of node 3, which voted too late and got a heartbeat, but not the entry
before it. -/
def Move.late : List Move := Move.election ++ [Move.deliver 0, Move.drop 0, Move.drop 2]

/-- Node 3 misses the entry that the heartbeat is about, and has it after four messages. -/
theorem follower_catches_up_three : ∃ leader start,
    (World.after .three Move.late).process 1 = .up (.leader leader) start ∧
    leader.log.entries.length = 1 ∧
    Replicated (.after .three (Move.late ++ [Move.deliver 1] ++ [Move.deliver 1] ++
      [Move.deliver 1] ++ [Move.deliver 1])) leader.log.entries 1 3 leader.term := by
  have hrun := World.run_after (c := .three) (m := Move.late) (by decide +kernel)
  obtain ⟨leader, start, hp, hterm⟩ := Process.leads_iff.mp
    (show ((World.after .three Move.late).process 1).leads 1 by decide +kernel)
  have hlength : leader.log.entries.length = 1 := by
    have hany : ((World.after .three Move.late).process 1).any fun node _ =>
        node.log.entries.length = 1 := by decide +kernel
    rw [hp] at hany
    exact of_decide_eq_true hany
  obtain ⟨node, start', hp', hnode⟩ := Process.exists_up
    (show ((World.after .three Move.late).process 3).any fun node _ =>
      node.isFollower ∧ node.term = 1 by decide +kernel)
  obtain ⟨hfollower, hterm'⟩ := of_decide_eq_true hnode
  cases node with
  | candidate node | leader node => cases hfollower
  | follower follower =>
      have hunder : (World.after .three Move.late).underway 1 3 leader.term =
          {⟨1, leader.term, 3, .heartbeat leader.log.entries.length 0 0⟩} := by
        rw [hterm, hlength]
        decide +kernel
      -- the heartbeat, its response, the entry and its response are at the same position
      have hone : Exchange .three 1 3 1 (.after .three Move.late) 1
          (.after .three (Move.late ++ [Move.deliver 1])) :=
        Exchange.refl.after (by decide +kernel) (by decide +kernel)
      have htwo : Exchange .three 1 3 1 (.after .three Move.late) 2
          (.after .three (Move.late ++ [Move.deliver 1] ++ [Move.deliver 1])) :=
        hone.after (by decide +kernel) (by decide +kernel)
      have hthree : Exchange .three 1 3 1 (.after .three Move.late) 3
          (.after .three (Move.late ++ [Move.deliver 1] ++ [Move.deliver 1] ++ [Move.deliver 1])) :=
        htwo.after (by decide +kernel) (by decide +kernel)
      have hfour : Exchange .three 1 3 leader.term (.after .three Move.late) 4
          (.after .three (Move.late ++ [Move.deliver 1] ++ [Move.deliver 1] ++ [Move.deliver 1] ++
            [Move.deliver 1])) := by
        rw [hterm]
        exact hthree.after (by decide +kernel) (by decide +kernel)
      obtain ⟨-, hends⟩ := follower_catches_up ⟨_, hrun⟩ (by decide) hp hp'
        (hterm'.trans hterm.symm) hunder hfour
      obtain ⟨hne, -⟩ | ⟨-, hcaught⟩ := hends
      · rw [hterm] at hne
        exact absurd (by decide +kernel) hne
      · exact ⟨leader, start, hp, hlength, hcaught⟩

end CatchUp
end ToyDB.Raft
