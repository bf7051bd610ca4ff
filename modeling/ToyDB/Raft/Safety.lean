import ToyDB.Raft.Simulation

/-!
# Safety of the cluster

What every run of the cluster guarantees, read off its trace: elections, logs,
commitment, application and reads. Each mark of the trace is true of the history
when it happens, and histories only grow.
-/
namespace ToyDB.Raft
open ToyDB.Consensus ToyDB.Effects

section Marks
variable {cfg : Config} {h : History} {trace : List (NodeID × Mark)}

/-- An event of a trace, with the histories before and after it. -/
theorem trace_event (hp : (traceSystem cfg).Path History.init trace h) {i : NodeID} {e : Event}
    (he : (i, Mark.event e) ∈ trace) :
    ∃ h', h'.Inv cfg.memberSet ∧ Occurs cfg i h' e ∧ History.Grows h' h := by
  obtain ⟨pre, post, rfl⟩ := List.append_of_mem he
  obtain ⟨_, h₂, _, _, hv, hi₂, _, _, hg⟩ := trace_at (History.inv_init _) hp
  exact ⟨h₂, hi₂, hv.2.2.1, hg⟩

/-- Requests in the history come from the trace. -/
theorem requests_traced {h₀ : History} (hp : (traceSystem cfg).Path h₀ trace h) {n : NodeID}
    {x : RequestID} {r : Request} (hr : h.requests n x r) :
    h₀.requests n x r ∨ (n, .submitted x r) ∈ trace := by
  induction hp with
  | refl h => exact Or.inl hr
  | silent hs _ ih =>
      obtain ⟨_, _, _, hsh⟩ := hs
      rw [hsh.requests] at ih
      exact ih hr
  | @visible h₀ h₁ h₂ m es hv _ ih =>
      obtain ⟨j, mark⟩ := m
      rcases ih hr with h | h
      swap
      · exact Or.inr (List.mem_cons_of_mem _ h)
      cases mark with
      | event e =>
          have hsh : Shown j (some e) h₀ h₁ := hv.2.2.2
          exact Or.inl (hsh.requests ▸ h)
      | submitted y body =>
          obtain rfl : h₁ = h₀.submit j y body := hv.2.2
          rcases h with h | ⟨rfl, rfl, rfl⟩
          · exact Or.inl h
          · exact Or.inr List.mem_cons_self
      | panicked message =>
          obtain rfl : h₁ = h₀ := hv.2.2
          exact Or.inl h

/-- Events that the history keeps come from the trace. -/
theorem marked_traced {h₀ : History} (hp : (traceSystem cfg).Path h₀ trace h) {n : NodeID}
    {e : Event} (hm : h.marked n e) : h₀.marked n e ∨ (n, .event e) ∈ trace := by
  induction hp with
  | refl h => exact Or.inl hm
  | silent hs _ ih =>
      obtain ⟨_, _, _, hsh⟩ := hs
      rcases ih hm with h | h
      swap
      · exact Or.inr h
      rcases hsh.marked n e h with h | ⟨_, hnone⟩
      · exact Or.inl h
      · cases hnone
  | @visible h₀ h₁ h₂ m es hv _ ih =>
      obtain ⟨j, mark⟩ := m
      rcases ih hm with h | h
      swap
      · exact Or.inr (List.mem_cons_of_mem _ h)
      cases mark with
      | event x =>
          have hsh : Shown j (some x) h₀ h₁ := hv.2.2.2
          rcases hsh.marked n e h with h | ⟨rfl, hx⟩
          · exact Or.inl h
          · obtain rfl : x = e := Option.some.inj hx
            exact Or.inr List.mem_cons_self
      | submitted y body =>
          obtain rfl : h₁ = h₀.submit j y body := hv.2.2
          exact Or.inl h
      | panicked message =>
          obtain rfl : h₁ = h₀ := hv.2.2
          exact Or.inl h

/-- Read requests in the history come from the trace. -/
theorem reads_traced {h₀ : History} (hp : (traceSystem cfg).Path h₀ trace h) {i : NodeID} {T k : ℕ}
    {read : Read} (hr : (h.reads i T)[k]? = some read) :
    (h₀.reads i T)[k]? = some read ∨
      ∃ pre post, trace = pre ++ (i, .event (.readRequested T read)) :: post := by
  induction hp with
  | refl h => exact Or.inl hr
  | @silent h₀ h₁ h₂ es hs _ ih =>
      refine (ih hr).imp_left fun h => ?_
      obtain ⟨j, _, hm, hsh⟩ := hs
      by_cases hj : i = j
      · subst hj
        rcases hsh.reads T with heq | ⟨_, hnone, _⟩
        · rwa [heq] at h
        · cases hnone
      · rwa [(hm.same hj).reads] at h
  | @visible h₀ h₁ h₂ m es hv hp ih =>
      rcases ih hr with h | ⟨pre, post, heq⟩
      swap
      · exact Or.inr ⟨m :: pre, post, by rw [heq, List.cons_append]⟩
      obtain ⟨j, mark⟩ := m
      obtain ⟨_, hm, hv⟩ := hv
      dsimp only at hm hv
      by_cases hj : i = j
      swap
      · exact Or.inl (by rwa [(hm.same hj).reads] at h)
      subst hj
      cases mark with
      | submitted id' request =>
          obtain rfl : h₁ = _ := hv
          exact Or.inl h
      | panicked message =>
          obtain rfl : h₁ = _ := hv
          exact Or.inl h
      | event e =>
          rcases hv.2.reads T with heq | ⟨read', he, _, heq⟩
          · exact Or.inl (by rwa [heq] at h)
          · obtain rfl : e = _ := Option.some.inj he
            rw [heq] at h
            rcases Nat.lt_or_ge k (h₀.reads i T).length with hk | hk
            · exact Or.inl (by rwa [List.getElem?_append_left hk] at h)
            · obtain rfl : k = (h₀.reads i T).length := by
                have := (List.getElem?_eq_some_iff.mp h).1
                simp only [List.length_append, List.length_singleton] at this
                omega
              obtain rfl : read' = read := by simpa using h
              exact Or.inr ⟨[], es, rfl⟩

end Marks

/-! ## Elections -/

/-- Node `n` became leader of the term, or is its leader. -/
def LeaderOf (w : World) (n : NodeID) (T : ℕ) : Prop :=
  (n, Mark.event (.leading T)) ∈ w.trace ∨
    ∃ node startTerm, w.process n = .up (.leader node) startTerm ∧ node.term = T

section Worlds
variable {cfg : Config} {w : World}

/-- The leader of a world, in the history. -/
theorem Describes.leader {h : History} (hs : Describes cfg h w) {n : NodeID}
    {node : RawNode Leader} {startTerm : ℕ} (hp : w.process n = .up (.leader node) startTerm) :
    Led h.core n node.term ∧ (h.core n).full node.term = node.log.entries := by
  have hn : ProcessOk cfg h n (.up (.leader node) startTerm) := hp ▸ hs.process n
  obtain ⟨_, g, rfl, hl, _⟩ := hn
  exact ⟨hl.role.led, hl.full_eq⟩

theorem LeaderOf.led {h : History} (hp : (traceSystem cfg).Path History.init w.trace h)
    (hs : Describes cfg h w) {n : NodeID} {T : ℕ} (hl : LeaderOf w n T) : Led h.core n T := by
  rcases hl with hl | ⟨node, startTerm, hl, rfl⟩
  · obtain ⟨h', _, hled, hg⟩ := trace_event hp hl
    exact hg.core.led hled
  · exact (hs.leader hl).1

/-- Election safety: no term ever has two leaders. -/
theorem election_safety (hr : World.Reachable cfg w) {n m : NodeID} {T : ℕ}
    (hn : LeaderOf w n T) (hm : LeaderOf w m T) : n = m := by
  obtain ⟨h, hp, hs⟩ := hr.describes
  exact hs.inv.core.unique_leader (hn.led hp hs) (hm.led hp hs)

/-- Node 1 became leader of term 1, and no other node did. -/
theorem election_safety_three : LeaderOf (.after .three Move.election) 1 1 ∧ (1 : NodeID) = 1 := by
  have hr := World.run_after (c := .three) (m := Move.election) (by decide +kernel)
  have hmark : LeaderOf (.after .three Move.election) 1 1 := .inl (by decide +kernel)
  have hrole : LeaderOf (.after .three Move.election) 1 1 :=
    .inr (Process.leads_iff.mp (by decide +kernel))
  exact ⟨hmark, election_safety ⟨_, hr⟩ hmark hrole⟩

/-! ## Logs and commitment -/

/-- Node `n`, in the term, had committed the entry. -/
def Committed (w : World) (n : NodeID) (T : ℕ) (e : Entry) : Prop :=
  ∃ log, (n, Mark.event (.logged log)) ∈ w.trace ∧ log.term = T ∧
    e ∈ log.entries.take log.commitIndex

/-- Node `n` applied the entry with the result. -/
def Applied (w : World) (n : NodeID) (e : Entry) (result : Except Error Bytes) : Prop :=
  (n, Mark.event (.applied e result)) ∈ w.trace

theorem Indexed.exists_of_mem {l : List Entry} (hl : Indexed l) {e : Entry} (he : e ∈ l) :
    ∃ k, l[k]? = some e ∧ e.index = k + 1 := by
  obtain ⟨k, hk⟩ := List.mem_iff_getElem?.mp he
  exact ⟨k, hk, hl k e hk⟩

/-- A chosen prefix has contiguous indexes. -/
theorem chosen_indexed {h : History} (hi : h.Inv cfg.memberSet) {T : ℕ} {p : List Entry}
    (hp : Chosen h.core T p) : Indexed p := by
  rcases hp with rfl | ⟨n, U, _, hl, hp⟩
  · exact Indexed.nil
  · exact (hi.full_indexed n U hl).of_initial (hp.trans (List.take_prefix _ _))

/-- Entries of the same index in chosen prefixes are the same. -/
theorem chosen_unique {h : History} (hi : h.Inv cfg.memberSet) {T U : ℕ} {p q : List Entry}
    (hp : Chosen h.core T p) (hq : Chosen h.core U q) {e e' : Entry} (he : e ∈ p) (he' : e' ∈ q)
    (hidx : e.index = e'.index) : e = e' := by
  obtain ⟨j, hj, hji⟩ := (chosen_indexed hi hp).exists_of_mem he
  obtain ⟨k, hk, hki⟩ := (chosen_indexed hi hq).exists_of_mem he'
  obtain rfl : j = k := by omega
  rcases hi.core.chosen_agree hp hq with hpq | hqp
  · rw [getElem?_of_initial hpq hj] at hk
    exact Option.some.inj hk
  · rw [getElem?_of_initial hqp hk] at hj
    exact (Option.some.inj hj).symm

theorem Committed.chosen {h : History} (hp : (traceSystem cfg).Path History.init w.trace h)
    {n : NodeID} {T : ℕ} {e : Entry} (hc : Committed w n T e) :
    ∃ p, Chosen h.core T p ∧ e ∈ p := by
  obtain ⟨log, hlog, rfl, he⟩ := hc
  obtain ⟨h', _, ho, hg⟩ := trace_event hp hlog
  exact ⟨_, ho.1.grows hg.core le_rfl, he⟩

theorem Applied.chosen {h : History} (hp : (traceSystem cfg).Path History.init w.trace h)
    {n : NodeID} {e : Entry} {result : Except Error Bytes} (ha : Applied w n e result) :
    ∃ T p, Chosen h.core T p ∧ e ∈ p := by
  obtain ⟨h', _, ⟨T, p, hc, _, _⟩, hg⟩ := trace_event hp ha
  exact ⟨T, p ++ [e], hc.grows hg.core le_rfl, by simp⟩

/-- A log that a node wrote, in the history of the whole run. -/
theorem logged_grounded {h : History} (hp : (traceSystem cfg).Path History.init w.trace h)
    {n : NodeID} {log : Log} (hlog : (n, Mark.event (.logged log)) ∈ w.trace) :
    Indexed log.entries ∧ Grounded h.core log.entries ∧ Accounted h log.entries := by
  obtain ⟨h', hi', ⟨_, _, heq⟩, hg⟩ := trace_event hp hlog
  rw [← heq]
  exact ⟨hi'.log_indexed n, (hi'.core.log_grounded n).grows hg.core,
    hg.accounted (hi'.log_accounted n)⟩

/-- Entries of the same index and term in logs that nodes wrote at any time are the same. -/
theorem logged_unique {h : History} (hi : h.Inv cfg.memberSet)
    (hp : (traceSystem cfg).Path History.init w.trace h) {n m : NodeID} {log log' : Log}
    (hlog : (n, Mark.event (.logged log)) ∈ w.trace)
    (hlog' : (m, Mark.event (.logged log')) ∈ w.trace) {e e' : Entry} (he : e ∈ log.entries)
    (he' : e' ∈ log'.entries) (hidx : e.index = e'.index) (ht : e.term = e'.term) : e = e' := by
  obtain ⟨hx, hgr, _⟩ := logged_grounded hp hlog
  obtain ⟨hx', hgr', _⟩ := logged_grounded hp hlog'
  obtain ⟨j, hj, hji⟩ := hx.exists_of_mem he
  obtain ⟨k, hk, hki⟩ := hx'.exists_of_mem he'
  obtain rfl : j = k := by omega
  have hmatch := congrArg (fun l => l[j]?) (hi.core.matching hgr hgr' hj hk ht)
  simp only [List.getElem?_take_of_lt (Nat.lt_succ_self j), hj, hk] at hmatch
  exact Option.some.inj hmatch

/-- Log matching: logs that have an entry of the same index and term are the same up
to it. -/
theorem log_matching (hr : World.Reachable cfg w) {n m : NodeID} {e e' : Entry}
    (he : e ∈ (w.process n).disk.log.entries) (he' : e' ∈ (w.process m).disk.log.entries)
    (hidx : e.index = e'.index) (ht : e.term = e'.term) :
    (w.process n).disk.log.entries.take e.index = (w.process m).disk.log.entries.take e.index := by
  obtain ⟨h, _, hs⟩ := hr.describes
  have hn := (hs.process n).stored.entries
  have hm := (hs.process m).stored.entries
  rw [← hn] at he ⊢
  rw [← hm] at he' ⊢
  obtain ⟨j, hj, hji⟩ := (hs.inv.log_indexed n).exists_of_mem he
  obtain ⟨k, hk, hki⟩ := (hs.inv.log_indexed m).exists_of_mem he'
  obtain rfl : j = k := by omega
  rw [hji]
  exact hs.inv.core.matching (hs.inv.core.log_grounded n) (hs.inv.core.log_grounded m) hj hk ht

/-- Leader completeness: at any time of a run, the leader of a later term has what a
node ever commits. -/
theorem leader_completeness {v w : World} {ns : List Move} (hv : World.Reachable cfg v)
    (hw : World.run cfg v ns = some w) {n m : NodeID} {T startTerm : ℕ} {e : Entry}
    {node : RawNode Leader} (hc : Committed w n T e)
    (hp : v.process m = .up (.leader node) startTerm) (hT : T < node.term) :
    e ∈ node.log.entries := by
  obtain ⟨h₁, hp₁, hs₁⟩ := hv.describes
  obtain ⟨marks, h₂, ht, hp₂, hs₂⟩ := hs₁.run hw
  obtain ⟨hled, hfull⟩ := hs₁.leader hp
  have hpath : (traceSystem cfg).Path History.init w.trace h₂ := by
    rw [ht]
    exact hp₁.append hp₂
  obtain ⟨p, hch, he⟩ := hc.chosen hpath
  rcases hch with rfl | ⟨l, U, hU, hl, hp'⟩
  · simp at he
  · obtain ⟨s, hs⟩ := Option.isSome_iff_exists.mp hled
    have hgrow := (trace_grows hs₁.inv hp₂).2
    have := hs₂.inv.core.committed_start hl hp' (hU.trans_lt hT) ((hgrow.core m).start hs)
    rw [← hfull]
    exact (this.trans (hs₁.inv.core.start_initial hs)).subset he

/-- The logs, what is committed and what is applied never diverge, in a run that
goes through the world `v` to the world `w`. -/
theorem log_and_state_machine_safety {v w : World} {ms ns : List Move}
    (hv : World.run cfg World.init ms = some v) (hw : World.run cfg v ns = some w) :
    (∀ n m e e', e ∈ (w.process n).disk.log.entries → e' ∈ (w.process m).disk.log.entries →
      e.index = e'.index → e.term = e'.term →
      (w.process n).disk.log.entries.take e.index =
        (w.process m).disk.log.entries.take e.index) ∧
    (∀ n T e m node startTerm, Committed w n T e → v.process m = .up (.leader node) startTerm →
      T < node.term → e ∈ node.log.entries) ∧
    (∀ n T e m U e', Committed w n T e → Committed w m U e' → e.index = e'.index → e = e') ∧
    (∀ n e r m e' r', Applied w n e r → Applied w m e' r' → e.index = e'.index → e = e') := by
  have hr : World.Reachable cfg w := ⟨ms ++ ns, by rw [World.run_append, hv]; exact hw⟩
  obtain ⟨h, hp, hs⟩ := hr.describes
  refine ⟨fun n m e e' => log_matching hr, fun n T e m node startTerm hc hl hT =>
    leader_completeness ⟨ms, hv⟩ hw hc hl hT, ?_, ?_⟩
  · intro n T e m U e' hc hc' hidx
    obtain ⟨p, hch, he⟩ := hc.chosen hp
    obtain ⟨q, hch', he'⟩ := hc'.chosen hp
    exact chosen_unique hs.inv hch hch' he he' hidx
  · intro n e r m e' r' ha ha' hidx
    obtain ⟨T, p, hch, he⟩ := ha.chosen hp
    obtain ⟨U, q, hch', he'⟩ := ha'.chosen hp
    exact chosen_unique hs.inv hch hch' he he' hidx

/-- Node 2 wins a second election, and has the noop that node 1 committed. -/
theorem log_and_state_machine_safety_three : ∃ node startTerm,
    (World.after .three (Move.election ++ [Move.tick 2, Move.deliver 4, Move.deliver 5])).process 2 =
      .up (.leader node) startTerm ∧ ⟨1, 1, none⟩ ∈ node.log.entries := by
  have hv := World.run_after (c := .three)
    (m := Move.election ++ [Move.tick 2, Move.deliver 4, Move.deliver 5]) (by decide +kernel)
  obtain ⟨node, startTerm, hp, hT⟩ := Process.leads_iff.mp (show ((World.after .three
    (Move.election ++ [Move.tick 2, Move.deliver 4, Move.deliver 5])).process 2).leads 2 by decide +kernel)
  obtain ⟨_, hleader, _, _⟩ := log_and_state_machine_safety hv (World.run_nil _ _)
  exact ⟨node, startTerm, hp, hleader 1 1 ⟨1, 1, none⟩ 2 node startTerm
    ⟨⟨[⟨1, 1, none⟩], 1, some 1, 1, 1⟩, by decide +kernel, rfl, by decide⟩ hp (by omega)⟩

/-! ## Reads -/

/-- What was chosen when a leader received a read request is in the state on which
it executes the read. -/
theorem read_covers {h h' : History} (hi : h.Inv cfg.memberSet) (hi' : h'.Inv cfg.memberSet)
    (hg : History.Grows h h') {i : NodeID} {T U : ℕ} {read : Read} {p state : List Entry}
    (hp : Chosen h.core U p) (hreq : Occurs cfg i h (.readRequested T read))
    (hserved : Occurs cfg i h' (.readServed T read state)) : p <+: state := by
  obtain ⟨hT, hled, hconf, _⟩ := hreq
  obtain ⟨_, _, _, ⟨Q, hQ, hq⟩, hstate, hcommit, s, hs, hslen⟩ := hserved
  rcases hp with rfl | ⟨n, V, _, hn, hp⟩
  · exact List.nil_prefix
  have hn' := hg.core.led hn
  have hp' : p <+: ((h'.core n).full V).take ((h'.core n).commitTo V) :=
    hp.trans ((((hg.core n).full hn).take _).trans
      (List.take_prefix_take_left ((hg.core n).commitTo V)))
  rcases Nat.lt_trichotomy V T with hlt | rfl | hgt
  · -- committed in an earlier term, so the leader started with it
    exact (hi'.core.committed_start hn' hp' hlt hs).trans
      (List.prefix_of_prefix_length_le (hi'.core.start_initial hs) hstate hslen.le)
  · obtain rfl := hi.core.unique_leader hn hled
    refine List.prefix_of_prefix_length_le (hp'.trans (List.take_prefix _ _)) hstate ?_
    have := hp'.length_le
    rw [List.length_take] at this
    omega
  · -- a later term was chosen in before, so a quorum could not confirm the read
    rcases Nat.eq_zero_or_pos ((h.core n).commitTo V) with h0 | h0
    · rw [h0, List.take_zero, List.prefix_nil] at hp
      exact hp ▸ List.nil_prefix
    obtain ⟨_, _, R, hR, hack, _, _⟩ := hi.core.commit_quorum h0
    obtain ⟨v, hvQ, hvR⟩ := hQ.inter hR
    have hv := (hi.core.acked_le (h0.trans_le (hack v hvR))).1
    rcases hq v hvQ with rfl | hv'
    · omega
    · have hlt := hconf v
      rcases hg.fresh v T with heq | hle
      · omega
      · omega

/-- Node `i` received the read request as leader after `pre` and executed it later, on a
state that has applied all that any node had committed or applied in `pre`. -/
structure Linearized (before pre : List (NodeID × Mark)) (i : NodeID) (T : ℕ) (read : Read)
    (state : List Entry) : Prop where
  order : ∃ mid post, before = pre ++ (i, .event (.readRequested T read)) ::
    (mid ++ (i, .event (.readServed T read state)) :: post)
  submitted : (read.sender, .submitted read.id (.read read.command)) ∈ pre
  committed : ∀ n log, (n, Mark.event (.logged log)) ∈ pre →
    log.entries.take log.commitIndex <+: state
  applied : ∀ n e result, (n, Mark.event (.applied e result)) ∈ pre → e ∈ state

/-- A leader that executes a read received its request before. -/
theorem linearized_of_served {h : History} {before post : List (NodeID × Mark)} {i : NodeID}
    {T : ℕ} {read : Read} {state : List Entry}
    (hp : (traceSystem cfg).Path History.init
      (before ++ (i, .event (.readServed T read state)) :: post) h) :
    ∃ pre, Linearized (before ++ (i, .event (.readServed T read state)) :: post) pre i T read
      state := by
  obtain ⟨h₁, h₂, hpre, _, hv, hi₂, hg₁₂, _, _⟩ := trace_at (History.inv_init _) hp
  obtain ⟨_, _, hserved, hsh⟩ := hv
  have hread : (h₁.reads i T)[read.seq - 1]? = some read := by
    have h' := hserved.2.2.1
    rcases hsh.reads T with heq | ⟨_, he, _⟩
    · rwa [heq] at h'
    · cases he
  rcases reads_traced hpre hread with h₀ | ⟨pre, mid, rfl⟩
  · simp [History.init] at h₀
  obtain ⟨ha, hb, hpa, _, hvb, hib, hgab, _, hgb⟩ := trace_at (History.inv_init _) hpre
  have hreq : Occurs cfg i hb (.readRequested T read) := hvb.2.2.1
  have hsubmitted : ha.requests read.sender read.id (.read read.command) := by
    rw [← hvb.2.2.2.requests]
    exact hreq.2.2.2
  refine ⟨pre, ⟨mid, post, by simp⟩, ?_, fun n log hmem => ?_, fun n e result hmem => ?_⟩
  · exact (requests_traced hpa hsubmitted).resolve_left fun h => h
  · obtain ⟨_, _, ho, hg⟩ := trace_event hpa hmem
    exact read_covers hib hi₂ (hgb.trans hg₁₂) (ho.1.grows (hg.trans hgab).core le_rfl) hreq hserved
  · obtain ⟨_, _, ⟨U, p, hc, _, _⟩, hg⟩ := trace_event hpa hmem
    exact (read_covers hib hi₂ (hgb.trans hg₁₂) (hc.grows (hg.trans hgab).core le_rfl) hreq
      hserved).subset (by simp)

/-- Linearizable reads: the response to a read is what its command reads on the state on
which a leader executed it, and that state has applied all that any node had committed
or applied when the leader received the request. -/
theorem linearizable_reads (hr : World.Reachable cfg w) {n : NodeID} {env : Envelope}
    {id : RequestID} {r : Bytes} {before after : List (NodeID × Mark)}
    (ht : w.trace = before ++ (n, .event (.send env)) :: after)
    (hresponse : env.message = .clientResponse id (.ok (.read r))) :
    ∃ pre i T read state, Linearized before pre i T read state ∧ read.sender = env.recipient ∧
      read.id = id ∧ cfg.sm.read (cfg.sm.contents state) read.command = .ok r := by
  obtain ⟨h, hp, _⟩ := hr.describes
  rw [ht] at hp
  obtain ⟨h₁, h₂, hpre, _, hv, _, _, _, _⟩ := trace_at (History.inv_init _) hp
  obtain ⟨_, _, ⟨_, hsent, _⟩, hsh⟩ := hv
  have hmeans := hsent.means
  rw [hresponse] at hmeans
  obtain ⟨i, T, read, state, hmark, hsender, hid, hres⟩ := hmeans.1
  -- sending the response is not executing the read
  rcases hsh.marked _ _ hmark with hmark | ⟨_, he⟩
  swap
  · cases he
  rcases marked_traced hpre hmark with h₀ | hserved
  · exact h₀.elim
  obtain ⟨mid, post, rfl⟩ := List.append_of_mem hserved
  obtain ⟨pre, hlin⟩ := linearized_of_served hpre
  exact ⟨pre, i, T, read, state, hlin, hsender, hid, hres⟩

/-- Node 1 answers a read that node 2 confirms, after the noop that it applied. -/
theorem linearizable_reads_three : ∃ before after,
    (World.after .three (Move.election ++ [Move.submit 1 7 (.read [5]), Move.deliver 4, Move.deliver 5])).trace =
      before ++ (1, .event (.send ⟨1, 1, 1, .clientResponse 7 (.ok (.read [5]))⟩)) :: after ∧
    ∃ pre i T read state, Linearized before pre i T read state ∧ read.id = 7 := by
  have hr := World.run_after (c := .three)
    (m := Move.election ++ [Move.submit 1 7 (.read [5]), Move.deliver 4, Move.deliver 5]) (by decide +kernel)
  have hsent : (1, Mark.event (.send ⟨1, 1, 1, .clientResponse 7 (.ok (.read [5]))⟩)) ∈ (World.after .three
    (Move.election ++ [Move.submit 1 7 (.read [5]), Move.deliver 4, Move.deliver 5])).trace := by decide +kernel
  obtain ⟨before, after, ht⟩ := List.append_of_mem hsent
  obtain ⟨pre, i, T, read, state, hlin, _, hid, _⟩ := linearizable_reads ⟨_, hr⟩ ht rfl
  exact ⟨before, after, ht, pre, i, T, read, state, hlin, hid⟩

end Worlds
end ToyDB.Raft
