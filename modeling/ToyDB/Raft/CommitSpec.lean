import ToyDB.Raft.LeaderSpec

/-!
# Committing, applying and reading

A quorum value of the followers' progress is a quorum of nodes in the history that
did what it says. The leader commits what a quorum acknowledged, and executes the
reads that a quorum confirmed.
-/
namespace ToyDB.Raft
open ToyDB.Consensus ToyDB.Effects ToyDB.Collections

section Commit
variable {cfg : Config} {i : NodeID} {X : Prop} {self : RawNode Leader} {g : Point cfg i}

/-- A majority of the members reaches the quorum value of the followers' values and
the leader's own. -/
theorem runs_quorumValue (hl : LeaderAt self g) (f : Progress → ℕ) (own : ℕ) :
    Runs cfg i X (self.quorumValue (self.role.progress.values.map f ++ [own])) (fun v g' =>
      g' = g ∧ ∃ Q, IsQuorum cfg.memberSet Q ∧ ∀ n ∈ Q, n = i ∧ v ≤ own ∨
        ∃ x, self.role.progress.get n = some x ∧ v ≤ f x) g := by
  set pairs : List (NodeID × ℕ) :=
    self.role.progress.entries.map (fun p => (p.1, f p.2)) ++ [(i, own)] with hpairs
  have hkeys : pairs.map Prod.fst = cfg.peers i ++ [i] := by
    rw [hpairs, List.map_append, List.map_map, ← hl.role.keys]
    rfl
  have hvalues : pairs.map Prod.snd = self.role.progress.values.map f ++ [own] := by
    rw [hpairs, List.map_append, List.map_map, OrderedMap.values, List.map_map]
    rfl
  have hnodup : (pairs.map Prod.fst).Nodup := by
    rw [hkeys]
    refine List.nodup_append.mpr ⟨cfg.peers_nodup i, List.nodup_singleton i, fun a ha b hb => ?_⟩
    obtain rfl := List.mem_singleton.mp hb
    exact (Config.mem_peers.mp ha).2
  have hsize : pairs.length = self.clusterSize := by
    rw [hl.toMember.clusterSize, ← Config.length_peers hl.member]
    simpa using congrArg List.length hkeys
  have hq : self.quorumSize - 1 < pairs.length := by
    rw [hsize, RawNode.quorumSize, hl.toMember.clusterSize]
    have := List.length_pos_of_mem hl.member
    omega
  unfold RawNode.quorumValue
  rw [← hvalues]
  refine runs_assert_bind (by rw [List.length_map, hsize]) ?_
  obtain ⟨v, hv⟩ : ∃ v, ((pairs.map Prod.snd).insertionSort (· ≥ ·))[self.quorumSize - 1]? = some v :=
    ⟨_, List.getElem?_eq_getElem (by rw [List.length_insertionSort, List.length_map]; exact hq)⟩
  rw [hv]
  obtain ⟨Q, hcard, hreach⟩ := exists_reaching hnodup (le_countP_of_sorted hv)
  refine runs_pure ⟨rfl, Q, ⟨fun n hn => ?_, ?_⟩, fun n hn => ?_⟩
  · obtain ⟨x, hx, _⟩ := hreach n hn
    have hn' := List.mem_map_of_mem (f := Prod.fst) hx
    rw [hkeys, List.mem_append, List.mem_singleton] at hn'
    rcases hn' with hn' | rfl
    · exact (Config.mem_peers.mp hn').1
    · exact hl.member
  · rw [Config.card_memberSet, ← hl.toMember.clusterSize]
    rw [RawNode.quorumSize] at hcard
    omega
  · obtain ⟨x, hx, hvx⟩ := hreach n hn
    rw [hpairs, List.mem_append, List.mem_singleton, List.mem_map] at hx
    rcases hx with ⟨⟨m, y⟩, hm, heq⟩ | heq
    · obtain ⟨rfl, rfl⟩ := Prod.mk.inj heq
      exact Or.inr ⟨y, OrderedMap.get_eq_some_iff.mpr hm, hvx⟩
    · obtain ⟨rfl, rfl⟩ := Prod.mk.inj heq
      exact Or.inl ⟨rfl, hvx⟩

/-- Responding to the client of a pending request. -/
theorem runs_respond (hl : LeaderAt self g) {n : NodeID}
    (hc : Client cfg g.hist i self.log.term n) {id : RequestID} {response : Except Error Response}
    (ha : Answers cfg g.hist n id response) :
    Runs cfg i X (self.send n (.clientResponse id response)) (fun _ g' => g' = g) g :=
  runs_send hl.toMember hc.member ⟨ha, fun hne => ⟨hl.role.led, hc.follows (Ne.symm hne)⟩⟩
    fun _ => ⟨_, _, rfl⟩

/-! ## Reads -/

/-- The leader may execute reads up to the sequence number `q` on its state. -/
structure Readable (cfg : Config) (h : History) (i : NodeID) (T : ℕ) (state : List Entry)
    (q : ℕ) : Prop where
  quorum : ∃ Q, IsQuorum cfg.memberSet Q ∧ ∀ v ∈ Q, v = i ∨ q ≤ h.confirmed v T
  state_initial : state <+: (h.core i).full T
  commit_le : (h.core i).commitTo T ≤ state.length
  start_lt : ∃ s, (h.core i).start T = some s ∧ s.length < state.length

theorem runs_serveReads (hl : LeaderAt self g) {q : ℕ}
    (hq : Readable cfg g.hist i self.log.term self.state q) {reads : List Read}
    (hr : ∀ r ∈ reads, ReadOf cfg g.hist i self.log.term r) :
    Runs cfg i X (self.serveReads cfg.sm q reads) (fun rest g' => LeaderAt self g' ∧
      ∀ r ∈ rest, r ∈ reads) g := by
  induction reads generalizing g with
  | nil => exact runs_pure ⟨hl, fun r hr => hr⟩
  | cons r reads ih =>
      have hr₀ := hr r List.mem_cons_self
      unfold RawNode.serveReads
      refine runs_ite (fun _ => runs_pure ⟨hl, fun r hr => hr⟩) fun hlt => ?_
      obtain ⟨Q, hQ, hconf⟩ := hq.quorum
      refine Runs.bind (runs_mark (by rw [hl.disk]; rfl) ⟨hl.role.led, hr₀.pos, hr₀.request,
        ⟨Q, hQ, fun v hv => (hconf v hv).imp id fun h => (not_lt.mp hlt).trans h⟩,
        hq.state_initial, hq.commit_le, hq.start_lt⟩) ?_
      rintro _ g₁ hg₁ ⟨hh, hd⟩
      have hl₁ := hl.marked hg₁ hh hd
      have hmark : g₁.hist.marked i (.readServed self.log.term r self.state) := by
        rw [hh]
        exact Or.inr ⟨rfl, rfl⟩
      refine runs_seq (runs_respond hl₁ (hr₀.client.grows hg₁) ?_) fun _ => ?_
      · cases hres : cfg.sm.read (cfg.sm.contents self.state) r.command with
        | ok bytes => exact ⟨i, _, r, self.state, hmark, rfl, rfl, hres⟩
        | error e => trivial
      · have hq₁ : Readable cfg g₁.hist i self.log.term self.state q := hh ▸ { hq with }
        exact wp_mono (ih hl₁ hq₁ fun r' hr' => (hr r' (List.mem_cons_of_mem r hr')).grows hg₁)
          (fun rest g' h => ⟨h.1, fun r' hr' => List.mem_cons_of_mem r (h.2 r' hr')⟩)
          (fun _ _ h => h)

/-- A commit index of the leader's own term is past the log it was elected with. -/
theorem LeaderAt.start_lt (hl : LeaderAt self g) (hc : self.log.term ≤ self.log.commitTerm) :
    ∃ s, (g.hist.core i).start self.log.term = some s ∧ s.length < self.log.commitIndex := by
  obtain ⟨s, hs⟩ := Option.isSome_iff_exists.mp hl.role.led
  have hpos := (g.inv.core.led_le hl.role.led).1
  have hterm : self.log.commitTerm = lastTerm (self.log.entries.take self.log.commitIndex) :=
    hl.stored.commit_term
  have hne : self.log.entries.take self.log.commitIndex ≠ [] := by
    intro hnil
    rw [hnil] at hterm
    have h0 : lastTerm ([] : List Entry) = 0 := rfl
    omega
  obtain ⟨e, he, het⟩ := exists_last hne
  have hlen : (self.log.entries.take self.log.commitIndex).length = self.log.commitIndex := by
    have := hl.stored.commit_le
    rw [List.length_take]
    omega
  have hpos' := List.length_pos_of_ne_nil hne
  rw [hlen] at he hpos'
  have he' := getElem?_of_initial (List.take_prefix _ _) he
  rw [← hl.full_eq] at he'
  have hle := g.inv.core.full_le hl.role.led e (List.mem_of_getElem? he')
  have := g.inv.core.start_length hs he' (by rw [stamped_term] at *; omega)
  exact ⟨s, hs, by omega⟩

theorem runs_maybeRead (hl : LeaderAt self g) :
    Runs cfg i X (self.maybeRead cfg.sm) (fun self' g' => LeaderAt self' g' ∧
      self'.log = self.log ∧ self'.peers = self.peers) g := by
  have hdone : LeaderAt self g ∧ self.log = self.log ∧ self.peers = self.peers :=
    ⟨hl, rfl, rfl⟩
  unfold RawNode.maybeRead
  refine runs_ite (fun _ => runs_pure hdone) fun _ => ?_
  rw [hl.appliedIndex]
  refine runs_ite (fun _ => runs_pure hdone) fun hbehind => ?_
  obtain ⟨hct, hci⟩ := not_or.mp hbehind
  obtain ⟨s, hs, hsl⟩ := hl.start_lt (not_lt.mp hct)
  refine runs_value (runs_quorumValue hl Progress.readSeq self.role.readSeq) ?_
  rintro q ⟨Q, hQ, hq⟩
  have hread : Readable cfg g.hist i self.log.term self.state q := {
    quorum := ⟨Q, hQ, fun v hv => (hq v hv).imp And.left fun ⟨x, hx, hqx⟩ =>
      hqx.trans (hl.role.progress hx).confirmed⟩
    state_initial := by rw [hl.full_eq]; exact hl.stored.state_initial
    commit_le := hl.commit.trans (not_lt.mp hci)
    start_lt := ⟨s, hs, by omega⟩ }
  refine Runs.bind (runs_serveReads hl hread hl.role.reads) ?_
  rintro rest g₁ _ ⟨hl₁, hrest⟩
  exact runs_pure ⟨hl₁.with_role { self.role with reads := rest }
    { hl₁.role with reads := fun r hr => hl₁.role.reads r (hrest r hr) }, rfl, rfl⟩

/-! ## Commitment -/

theorem runs_applyAndRespond (hl : LeaderAt self g) {e : Entry}
    (hp : self.state ++ [e] <+: self.log.entries)
    (hc : Chosen g.hist.core self.log.term (self.state ++ [e])) :
    Runs cfg i X (self.applyAndRespond cfg.sm e) (fun self' g' => g'.hist = g.hist ∧
      LeaderAt self' g' ∧ self'.log = self.log ∧ self'.state = self.state ++ [e] ∧
      self'.peers = self.peers) g := by
  have he : e.index = self.state.length + 1 := (hl.indexed.of_initial hp).index_append (j := 0) rfl
  unfold RawNode.applyAndRespond
  refine Runs.bind (runs_applyEntry hl.disk hp hc) ?_
  rintro _ g₁ hg₁ ⟨rfl, hh, hd⟩
  set node : RawNode Leader := { self with
    state := self.state ++ [e]
    role := { self.role with writes := self.role.writes.erase e.index } } with hnode
  have hl₁ : LeaderAt node g₁ := by
    refine ⟨⟨hl.toMember.with_role rfl rfl rfl, hd⟩, ?_, by rw [hh]; exact hl.commit⟩
    rw [hh]
    refine { hl.role with writes := fun {k w} hw => hl.role.writes ?_ }
    rw [OrderedMap.get_erase] at hw
    split_ifs at hw
    exact hw
  have hpost : g₁.hist = g.hist ∧ LeaderAt node g₁ ∧ node.log = self.log ∧
      node.state = self.state ++ [e] ∧ node.peers = self.peers := ⟨hh, hl₁, rfl, rfl, rfl⟩
  cases hw : self.role.writes.get e.index with
  | none => exact runs_pure hpost
  | some w =>
      have hwo := hl.role.writes hw
      have hans : Answers cfg g₁.hist w.sender w.id
          ((cfg.sm.result self.state e).map Response.write) := by
        cases hres : cfg.sm.result self.state e with
        | error err => trivial
        | ok r =>
            obtain ⟨e', c, he', hcmd, hreq, hmark⟩ := hwo.entry
            rw [he, Nat.add_sub_cancel, getElem?_of_initial hp (j := self.state.length) (e := e)
              (by simp)] at he'
            obtain rfl := Option.some.inj he'
            rw [hh]
            exact ⟨_, self.state, e, c, i, hc, hcmd, hreq, hmark, hres⟩
      exact runs_seq (runs_respond hl₁ (hh ▸ hwo.client) hans) fun _ => runs_pure hpost

/-- The history of a leader that commits up to an index in its term. -/
def committing (x : Local NodeID Entry) (k : ℕ) : Local NodeID Entry :=
  { x with commitTo := Function.update x.commitTo x.term k }

/-- Committing an entry of the leader's term that a quorum acknowledged. -/
theorem runs_commit_leader (hl : LeaderAt self g) {k : ℕ} {e : Entry}
    (hlt : self.log.commitIndex < k) (he : self.log.entries[k - 1]? = some e)
    (ht : e.term = self.log.term)
    (hQ : ∃ Q, IsQuorum cfg.memberSet Q ∧ ∀ n ∈ Q, n = i ∨
      k ≤ (g.hist.core n).acked self.log.term) :
    Runs cfg i X (self.log.commit k) (fun l g' =>
      l.entries = self.log.entries ∧ l.term = self.log.term ∧ l.commitIndex = k ∧
      LeaderAt { self with log := l } g') g := by
  have hk := (List.getElem?_eq_some_iff.mp he).1
  have hterm : (g.hist.core i).term = self.log.term := hl.stored.term
  -- the leader acknowledges its own log first
  refine runs_ack hl.toRunsAt (n := i) (k := k) hl.role.led (by rw [hl.full_eq]; omega)
    (by rw [hl.full_eq]; exact List.take_prefix _ _) fun g₁ hg₁ hk₁ hfo₁ hc₁ hd₁ hack => ?_
  have hl₁ : LeaderAt self g₁ := ⟨hl.toRunsAt.of_disk hd₁,
    hl.role.grows hg₁ List.prefix_rfl (by rw [hk₁.reads]), by rw [hk₁.commitTo]; exact hl.commit⟩
  have hterm₁ : (g₁.hist.core i).term = self.log.term := hl₁.stored.term
  obtain ⟨Q, hQ, hq⟩ := hQ
  have hstep : Step cfg.memberSet i g₁.hist.core
      (Function.update g₁.hist.core i (committing (g₁.hist.core i) k)) := by
    have hs := @Step.commit _ _ _ _ cfg.memberSet i g₁.hist.core (k - 1) e Q
    rw [hterm₁, hl₁.full_eq, Nat.sub_add_cancel (by omega)] at hs
    have := hs hl₁.role.led hQ (fun v hv => ?_) he ht (hl₁.commit.trans (by omega))
    · simpa only [committing, hterm₁] using this
    · rcases hq v hv with rfl | hv
      · omega
      · have := hv.trans ((hg₁.core v).acked _)
        omega
  set h' := g₁.hist.withCore i (committing (g₁.hist.core i) k) with hh'
  have hm : History.Moves cfg.memberSet i g₁.hist h' :=
    .core hstep (hl₁.stored.entries ▸ hl₁.indexed) (hl₁.stored.entries ▸ hl₁.accounted)
  have hfull : (h'.core i).full self.log.term = self.log.entries := by
    rw [hh', History.withCore_core_self]
    exact hl₁.full_eq
  have hto : (h'.core i).commitTo self.log.term = k := by
    simp [hh', committing, hterm₁]
  have hgrow := hm.grows g₁.inv
  refine wp_mono (runs_commit hl₁.toRunsAt hlt (by omega) hm (by simp [hh', committing])
    (by simp [hh', committing]) (by simp [hh', committing]) ?_ ?_) ?_ (fun _ _ h => h)
  · exact Or.inr ⟨i, _, le_rfl, hgrow.core.led hl₁.role.led, by rw [hfull, hto]⟩
  · intro l hlt hlk hle
    refine ⟨fun T => ?_, fun _ => Or.inl rfl, rfl, fun _ => Or.inl (by simp [hh', committing]),
      fun _ _ hm => Or.inl hm⟩
    by_cases hT : T = self.log.term
    · subst hT
      exact Or.inr ⟨l, rfl, hlt, by rw [hlk, hto], by rw [hle, hfull]⟩
    · exact Or.inl (by simp [hh', committing, hterm₁, Function.update_of_ne hT])
  · rintro l g₂ ⟨rfl, hh₂, hd₂⟩
    refine ⟨rfl, rfl, rfl, ⟨hl₁.toMember.with_role rfl rfl rfl, hd₂⟩, ?_, ?_⟩
    · rw [hh₂]
      exact hl₁.role.grows hgrow List.prefix_rfl rfl
    · rw [hh₂, hto]

theorem runs_maybeCommitAndApply (hl : LeaderAt self g) :
    Runs cfg i X (self.maybeCommitAndApply cfg.sm) (fun a g' => LeaderAt a.1 g' ∧
      a.1.log.entries = self.log.entries ∧ a.1.log.term = self.log.term ∧
      a.1.peers = self.peers) g := by
  unfold RawNode.maybeCommitAndApply
  simp only [Log.getLastIndex_eq hl.indexed, Log.getCommitIndex]
  refine runs_value (runs_quorumValue hl Progress.matchIndex self.log.entries.length) ?_
  rintro k ⟨Q, hQ, hq⟩
  have hdone : LeaderAt self g ∧ self.log.entries = self.log.entries ∧
    self.log.term = self.log.term ∧ self.peers = self.peers := ⟨hl, rfl, rfl, rfl⟩
  refine runs_ite (fun _ => runs_pure hdone) fun hold => ?_
  have hk : k ≤ self.log.entries.length := by
    obtain ⟨n, hn, _⟩ := hQ.inter hQ
    rcases hq n hn with ⟨_, hle⟩ | ⟨x, hx, hle⟩
    · exact hle
    · exact hle.trans (hl.role.progress hx).match_le
  obtain ⟨e, he⟩ : ∃ e, self.log.entries[k - 1]? = some e :=
    ⟨_, List.getElem?_eq_getElem (by omega)⟩
  have hget : self.log.get k = some e := by
    obtain ⟨j, rfl⟩ : ∃ j, k = j + 1 := ⟨k - 1, by omega⟩
    exact he
  rw [hget]
  refine runs_ite (fun _ => runs_pure hdone) fun hterm => ?_
  refine Runs.bind (runs_commit_leader hl (not_le.mp hold) he (not_not.mp hterm)
    ⟨Q, hQ, fun n hn => (hq n hn).imp And.left fun ⟨x, hx, hle⟩ =>
      hle.trans (hl.role.progress hx).acked⟩) ?_
  rintro l g₁ hg₁ ⟨hle, hlt, -, hl₁⟩
  set node : RawNode Leader := { self with log := l } with hnode
  obtain ⟨hp, hc⟩ := hl₁.toRunsAt.ready
  refine Runs.bind (wp_foldlM (I := fun rest node' g' => LeaderAt node' g' ∧
    node'.log = l ∧ node'.peers = self.peers ∧ node'.state ++ rest <+: l.entries ∧
    Chosen g'.hist.core l.term (node'.state ++ rest)) ?_ ⟨hl₁, rfl, rfl, hp, hc⟩) ?_
  · rintro x rest node' g' ⟨hl', hlog, hpeers, hp, hc⟩
    have happ : node'.state ++ x :: rest = (node'.state ++ [x]) ++ rest := by simp
    rw [happ] at hp hc
    refine wp_mono (runs_applyAndRespond hl' (hlog ▸ (List.prefix_append _ _).trans hp)
      (hlog ▸ hc.initial (List.prefix_append _ _))) ?_ (fun _ _ h => h)
    rintro node'' g'' ⟨hh, hl'', hlog', hstate, hpeers'⟩
    rw [hstate, hh]
    exact ⟨hl'', hlog'.trans hlog, hpeers'.trans hpeers, hp, hc⟩
  · rintro node' g' _ ⟨hl', hlog, hpeers, -, -⟩
    have hpost : LeaderAt node' g' ∧ node'.log.entries = self.log.entries ∧
        node'.log.term = self.log.term ∧ node'.peers = self.peers :=
      ⟨hl', by rw [hlog, hle], by rw [hlog, hlt], hpeers⟩
    refine runs_ite (fun _ => Runs.bind (runs_maybeRead hl') ?_) fun _ => runs_pure hpost
    rintro node'' g'' _ ⟨hl'', hlog', hpeers'⟩
    exact runs_pure ⟨hl'', by rw [hlog', hpost.2.1], by rw [hlog', hpost.2.2.1],
      hpeers'.trans hpeers⟩

end Commit
end ToyDB.Raft
