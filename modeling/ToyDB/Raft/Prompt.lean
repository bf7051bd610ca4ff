import Mathlib
import ToyDB.Effects.Meter
import ToyDB.Raft.NodeSpec

/-!
# A leader leaves no answerable request waiting

Commitment, application and reads are triggered from a few message branches only.
A leader is prompt if it committed what a majority replicated in its term, applied
what is committed, answered the writes it applied, and executed the reads that a
majority confirmed. Every step that may break one of these repairs it before it
returns; a panic does not return.
-/
namespace ToyDB.Raft
open ToyDB.Consensus ToyDB.Effects ToyDB.Collections

/-- Every result of the program satisfies the postcondition. -/
abbrev Ends {α : Type} (x : Action α) (P : α → Prop) : Prop :=
  Costless (fun _ => (0 : ℕ)) x P

namespace RawNode
variable {R : Type}

/-- The largest value that a quorum of the nodes reaches. -/
def majority (self : RawNode R) (values : List ℕ) : ℕ :=
  ((values.insertionSort (· ≥ ·))[self.quorumSize - 1]?).getD 0

/-- The last index of each node, as far as the leader knows. -/
def matchIndexes (self : RawNode Leader) : List ℕ :=
  self.role.progress.values.map Progress.matchIndex ++ [self.log.getLastIndex.1]

/-- The read sequence number that each node confirmed. -/
def readSeqs (self : RawNode Leader) : List ℕ :=
  self.role.progress.values.map Progress.readSeq ++ [self.role.readSeq]

theorem le_majority_iff {self : RawNode R} {values : List ℕ}
    (hlen : values.length = self.clusterSize) (k : ℕ) :
    k ≤ self.majority values ↔ self.quorumSize ≤ values.countP (k ≤ ·) := by
  have hq : self.quorumSize - 1 < (values.insertionSort (· ≥ ·)).length := by
    rw [List.length_insertionSort, hlen, quorumSize, clusterSize]
    omega
  have hpos : self.quorumSize - 1 + 1 = self.quorumSize := by
    rw [quorumSize]
    omega
  obtain ⟨v, hv⟩ : ∃ v, (values.insertionSort (· ≥ ·))[self.quorumSize - 1]? = some v :=
    ⟨_, List.getElem?_eq_getElem hq⟩
  rw [majority, hv, Option.getD_some]
  constructor
  · intro hk
    have hcount := le_countP_of_sorted hv
    rw [hpos] at hcount
    refine hcount.trans (List.countP_mono_left fun x _ hx => ?_)
    simp only [decide_eq_true_eq] at hx ⊢
    omega
  · intro hk
    by_contra hlt
    have hcount := countP_le_of_sorted hv (not_le.mp hlt)
    omega

/-- With other nodes in the cluster, a majority reaches no more when the leader alone,
who is ahead of the others, advances. -/
theorem majority_advance {self : RawNode R} {values : List ℕ} {own own' : ℕ}
    (hlen : values.length + 1 = self.clusterSize) (hpeers : self.clusterSize ≠ 1)
    (hle : ∀ v ∈ values, v ≤ own) (hown : own ≤ own') :
    self.majority (values ++ [own']) = self.majority (values ++ [own]) := by
  have hsize : 2 ≤ self.quorumSize := by
    rw [quorumSize]
    omega
  refine eq_of_forall_le_iff fun k => ?_
  rw [le_majority_iff (by simp [hlen]), le_majority_iff (by simp [hlen]), List.countP_append,
    List.countP_append]
  by_cases hk : k ≤ own
  · simp [hk, hk.trans hown]
  · have hnone : values.countP (k ≤ ·) = 0 := by
      rw [List.countP_eq_zero]
      intro v hv
      have := hle v hv
      simp only [decide_eq_true_eq]
      omega
    have hone : ∀ x : ℕ, [x].countP (k ≤ ·) ≤ 1 := fun x => List.countP_le_length
    have := hone own
    have := hone own'
    omega

end RawNode

/-- A leader that has nothing left to answer. -/
structure Prompt (node : RawNode Leader) : Prop where
  committed : ∀ e, node.log.get (node.majority node.matchIndexes) = some e →
    e.term = node.term → node.majority node.matchIndexes ≤ node.log.getCommitIndex.1
  applied : node.log.entries.take node.log.getCommitIndex.1 <+: node.state
  answered : ∀ k w, node.role.writes.get k = some w → node.log.getCommitIndex.1 < k
  read : node.log.getCommitIndex.2 = node.term →
    ∀ r ∈ node.role.reads, node.majority node.readSeqs < r.seq

/-! ## What every leader keeps in order -/

/-- A node that has applied what it committed. -/
structure AppliesAll {R : Type} (node : RawNode R) : Prop where
  indexed : Indexed node.log.entries
  state_initial : node.state <+: node.log.entries
  commit_le : node.log.commitIndex ≤ node.state.length

/-- What holds of a leader throughout a step. -/
structure Orderly (node : RawNode Leader) : Prop extends AppliesAll node where
  size : node.role.progress.values.length + 1 = node.clusterSize
  match_le : ∀ v ∈ node.role.progress.values.map Progress.matchIndex, v ≤ node.log.entries.length
  seq_le : ∀ v ∈ node.role.progress.values.map Progress.readSeq, v ≤ node.role.readSeq
  write_lt : ∀ {k w}, node.role.writes.get k = some w → node.state.length < k
  reads_sorted : node.role.reads.Pairwise fun a b => a.seq < b.seq
  reads_le : ∀ r ∈ node.role.reads, r.seq ≤ node.role.readSeq

/-- The leader committed what a majority replicated in its term. -/
def Commits (node : RawNode Leader) : Prop :=
  ∀ e, node.log.get (node.majority node.matchIndexes) = some e →
    e.term = node.term → node.majority node.matchIndexes ≤ node.log.commitIndex

/-- The leader executed the reads that a majority confirmed, if it may read. -/
def Serves (node : RawNode Leader) : Prop :=
  node.log.commitTerm = node.term → ∀ r ∈ node.role.reads, node.majority node.readSeqs < r.seq

/-- The invariant of a leader between its steps. -/
structure Settled (node : RawNode Leader) : Prop extends Orderly node where
  commits : Commits node
  serves : Serves node

theorem Settled.prompt {self : RawNode Leader} (hs : Settled self) : Prompt self where
  committed := hs.commits
  applied := by
    rw [List.prefix_iff_eq_take.mp hs.state_initial]
    exact List.take_prefix_take_left hs.commit_le
  answered k w hw := hs.commit_le.trans_lt (hs.write_lt hw)
  read := hs.serves

/-! ## Replication -/

/-- The leaders differ at most in their timers and the next indexes of followers. -/
structure Alike (node node' : RawNode Leader) : Prop where
  log : node'.log = node.log
  state : node'.state = node.state
  peers : node'.peers = node.peers
  matched : node'.role.progress.values.map Progress.matchIndex =
    node.role.progress.values.map Progress.matchIndex
  seqs : node'.role.progress.values.map Progress.readSeq =
    node.role.progress.values.map Progress.readSeq
  writes : node'.role.writes = node.role.writes
  reads : node'.role.reads = node.role.reads
  readSeq : node'.role.readSeq = node.role.readSeq

namespace Alike
variable {a b c : RawNode Leader}

theorem refl (a : RawNode Leader) : Alike a a := ⟨rfl, rfl, rfl, rfl, rfl, rfl, rfl, rfl⟩

theorem trans (h : Alike a b) (h' : Alike b c) : Alike a c where
  log := h'.log.trans h.log
  state := h'.state.trans h.state
  peers := h'.peers.trans h.peers
  matched := h'.matched.trans h.matched
  seqs := h'.seqs.trans h.seqs
  writes := h'.writes.trans h.writes
  reads := h'.reads.trans h.reads
  readSeq := h'.readSeq.trans h.readSeq

theorem majority (h : Alike a b) : b.majority = a.majority := by
  funext values
  simp only [RawNode.majority, RawNode.quorumSize, RawNode.clusterSize, h.peers]

theorem orderly (h : Alike a b) (ho : Orderly a) : Orderly b where
  indexed := h.log ▸ ho.indexed
  state_initial := by rw [h.log, h.state]; exact ho.state_initial
  commit_le := by rw [h.log, h.state]; exact ho.commit_le
  size := by
    have := congrArg List.length h.seqs
    rw [List.length_map, List.length_map] at this
    rw [this, RawNode.clusterSize, h.peers]
    exact ho.size
  match_le := by rw [h.matched, h.log]; exact ho.match_le
  seq_le := by rw [h.seqs, h.readSeq]; exact ho.seq_le
  write_lt := by rw [h.writes, h.state]; exact ho.write_lt
  reads_sorted := by rw [h.reads]; exact ho.reads_sorted
  reads_le := by rw [h.reads, h.readSeq]; exact ho.reads_le

theorem commits (h : Alike a b) (hc : Commits a) : Commits b := by
  rw [Commits, h.majority, RawNode.matchIndexes, h.matched, RawNode.term, h.log]
  exact hc

theorem serves (h : Alike a b) (hs : Serves a) : Serves b := by
  rw [Serves, h.majority, RawNode.readSeqs, h.seqs, h.readSeq, h.reads, RawNode.term, h.log]
  exact hs

theorem settled (h : Alike a b) (hs : Settled a) : Settled b :=
  ⟨h.orderly hs.toOrderly, h.commits hs.commits, h.serves hs.serves⟩

end Alike

section Replication
variable {R : Type} {self : RawNode Leader}

theorem ends_assert {p : Prop} [Decidable p] {m : String} :
    Ends (assert p m) fun _ => p := costless_ensure

theorem ends_panic {α : Type} {P : α → Prop} {m : String} : Ends (panic m) P := costless_fail

theorem ends_send (self : RawNode R) (n : NodeID) (m : Message) :
    Ends (self.send n m) fun _ => True := costless_emit rfl

theorem ends_broadcast (self : RawNode R) (m : Message) :
    Ends (self.broadcast m) fun _ => True :=
  costless_forM fun n _ => ends_send self n m

theorem ends_progress (p : NodeID) :
    Ends (self.progress p) fun x => self.role.progress.get p = some x := by
  unfold RawNode.progress
  split
  · next x hx => exact costless_pure hx
  · exact ends_panic

theorem alike_setProgress {p : NodeID} {x y : Progress} (hx : self.role.progress.get p = some x)
    (hm : y.matchIndex = x.matchIndex) (hs : y.readSeq = x.readSeq) :
    Alike self (self.setProgress p y) where
  log := rfl
  state := rfl
  peers := rfl
  matched := OrderedMap.map_values_insert hx hm
  seqs := OrderedMap.map_values_insert hx hs
  writes := rfl
  reads := rfl
  readSeq := rfl

theorem ends_maybeSendAppend (p : NodeID) (probe : Bool) :
    Ends (self.maybeSendAppend p probe) (Alike self) := by
  unfold RawNode.maybeSendAppend
  refine (ends_progress p).bind fun x hx => ends_assert.bind fun _ _ => ends_assert.bind
    fun _ _ => ends_assert.bind fun _ _ => ends_assert.bind fun _ _ =>
    costless_ite (fun _ => costless_pure (.refl self)) fun _ =>
    costless_ite (fun _ => costless_pure (.refl self)) fun _ => ?_
  have hbase : Ends (self.appendBase x.nextIndex) fun _ => True := by
    unfold RawNode.appendBase
    refine costless_ite (fun _ => costless_pure trivial) fun _ => ?_
    split
    · exact costless_pure trivial
    · exact ends_panic
  refine hbase.bind fun _ _ => (ends_send _ _ _).bind fun _ _ => costless_pure ?_
  refine alike_setProgress hx ?_ ?_ <;> split <;> rfl

theorem ends_heartbeat : Ends self.heartbeat (Alike self) := by
  unfold RawNode.heartbeat
  exact ends_assert.bind fun _ _ => (ends_broadcast _ _).bind fun _ _ =>
    costless_pure ⟨rfl, rfl, rfl, rfl, rfl, rfl, rfl, rfl⟩

/-- The leader with an entry of its term at the end of its log. -/
def RawNode.appended (self : RawNode Leader) (command : Option Bytes) : RawNode Leader :=
  let entry := ⟨self.log.entries.length + 1, self.log.term, command⟩
  { self with log := { self.log with entries := self.log.entries ++ [entry] } }

theorem ends_propose (hi : Indexed self.log.entries) (command : Option Bytes) :
    Ends (self.propose command) fun r =>
      Alike (self.appended command) r.1 ∧ r.2 = self.log.entries.length + 1 := by
  unfold RawNode.propose Log.append
  rw [Log.getLastIndex_eq hi]
  simp only [bind_assoc, pure_bind]
  refine ends_assert.bind fun _ _ => Costless.bind (costless_emit rfl) fun _ _ => ?_
  refine Costless.bind (P := Alike (self.appended command))
    (costless_foldlM (fun node p hn => ?_) (Alike.refl _)) fun node hn => costless_pure ⟨hn, rfl⟩
  refine (ends_progress p).bind fun x _ => costless_ite (fun _ => ?_) fun _ => costless_pure hn
  exact (ends_maybeSendAppend p false).mono fun _ h => hn.trans h

end Replication

/-! ## Applying -/

section Apply
variable {R : Type} {sm : StateMachine}

/-- The applied entries with those that are ready, where everything committed is stored. -/
theorem applied_ready {log : Log} {state : List Entry} (hi : Indexed log.entries)
    (hp : state <+: log.entries) (hc : log.commitIndex ≤ log.entries.length) :
    let ready := state ++ log.scanApply (getAppliedIndex state)
    ready <+: log.entries ∧ log.commitIndex ≤ ready.length := by
  simp only [getAppliedIndex_eq (hi.of_initial hp), Log.scanApply_eq hi]
  obtain ⟨rest, hrest⟩ := hp
  rw [← hrest, List.length_append] at hc
  rw [← hrest, List.take_append, List.drop_append, List.length_take]
  rcases Nat.le_total log.commitIndex state.length with hle | hle
  · rw [Nat.sub_eq_zero_of_le hle, List.take_zero, List.drop_nil, List.append_nil,
      List.drop_of_length_le (by rw [List.length_take]; omega), List.append_nil]
    exact ⟨List.prefix_append _ _, hle⟩
  · rw [List.take_of_length_le hle, List.drop_length, Nat.min_eq_right hle, Nat.sub_self,
      List.drop_zero, List.nil_append, List.length_append, List.length_take]
    exact ⟨(List.prefix_append_right_inj state).mpr (List.take_prefix _ _), by omega⟩

theorem ends_applyEntry (state : List Entry) (e : Entry) :
    Ends (applyEntry sm state e) fun r => r.1 = state ++ [e] :=
  Costless.bind (costless_emit rfl) fun _ _ => costless_pure rfl

theorem ends_maybeApply {self : RawNode R} (hi : Indexed self.log.entries)
    (hp : self.state <+: self.log.entries) (hc : self.log.commitIndex ≤ self.log.entries.length) :
    Ends (self.maybeApply sm) fun node =>
      node.log = self.log ∧ node.role = self.role ∧ node.peers = self.peers ∧ AppliesAll node := by
  have happly : ∀ (entries state : List Entry), Ends
      (entries.foldlM (fun state entry => do
        let applied ← applyEntry sm state entry
        return applied.1) state) fun state' => state' = state ++ entries := by
    intro entries
    induction entries with
    | nil => exact fun state => costless_pure (List.append_nil state).symm
    | cons e entries ih =>
        intro state
        rw [List.foldlM_cons]
        refine Costless.bind (P := fun state' => state' = state ++ [e]) ?_ fun state' h => ?_
        · exact (ends_applyEntry state e).bind fun _ h => costless_pure h
        · exact (ih state').mono fun _ h' => by rw [h', h, List.append_assoc]; rfl
  unfold RawNode.maybeApply
  refine (happly _ _).bind fun state hs => costless_pure ⟨rfl, rfl, rfl, hi, ?_, ?_⟩
  · rw [hs]
    exact (applied_ready hi hp hc).1
  · rw [hs]
    exact (applied_ready hi hp hc).2

/-- Committing an entry of the log. -/
theorem ends_commit {log : Log} (hi : Indexed log.entries) (k : ℕ) :
    Ends (log.commit k) fun l => l.entries = log.entries ∧ l.term = log.term ∧
      ∃ e, log.get k = some e ∧ (l.commitIndex = k ∧ l.commitTerm = e.term ∨
        l = log ∧ k = log.commitIndex) := by
  unfold Log.commit
  split
  · exact ends_panic
  · next e he =>
      rw [Log.get_index hi he]
      refine costless_ite (fun _ => ends_panic) fun _ => costless_ite
        (fun h => costless_pure ⟨rfl, rfl, e, he, Or.inr ⟨rfl, h⟩⟩) fun _ => ?_
      exact Costless.bind (costless_emit rfl) fun _ _ =>
        costless_pure ⟨rfl, rfl, e, he, Or.inl ⟨rfl, rfl⟩⟩

theorem Log.le_of_get {log : Log} {k : ℕ} {e : Entry} (he : log.get k = some e) :
    k ≤ log.entries.length := by
  cases k with
  | zero => exact Nat.zero_le _
  | succ k => exact (List.getElem?_eq_some_iff.mp he).1

end Apply

/-! ## Reads -/

section Reads
variable {self : RawNode Leader} {sm : StateMachine}

theorem ends_quorumValue (values : List ℕ) :
    Ends (self.quorumValue values) fun v => v = self.majority values := by
  unfold RawNode.quorumValue
  refine ends_assert.bind fun _ _ => ?_
  split
  · next v hv => exact costless_pure (by rw [RawNode.majority, hv, Option.getD_some])
  · exact ends_panic

/-- The reads above the sequence number are left, since the reads are in order. -/
theorem ends_serveReads (q : ℕ) {reads : List Read}
    (hs : reads.Pairwise fun a b => a.seq < b.seq) :
    Ends (self.serveReads sm q reads) fun rest =>
      rest.Sublist reads ∧ ∀ r ∈ rest, q < r.seq := by
  induction reads with
  | nil => exact costless_pure ⟨.refl [], by simp⟩
  | cons read reads ih =>
      obtain ⟨hread, hs⟩ := List.pairwise_cons.mp hs
      unfold RawNode.serveReads
      refine costless_ite (fun hq => costless_pure ⟨.refl _, fun r hr => ?_⟩) fun _ => ?_
      · rcases List.mem_cons.mp hr with rfl | hr
        · exact hq
        · exact hq.trans (hread r hr)
      · exact Costless.bind (costless_emit rfl) fun _ _ => (ends_send _ _ _).bind
          fun _ _ => (ih hs).mono fun rest h => ⟨h.1.cons read, h.2⟩

/-- Executing the ready reads. -/
theorem ends_maybeRead (ho : Orderly self) : Ends (self.maybeRead sm) fun node =>
    node.log = self.log ∧ Orderly node ∧ Serves node ∧ (Commits self → Commits node) := by
  have hdone : Serves self → self.log = self.log ∧ Orderly self ∧ Serves self ∧
      (Commits self → Commits self) := fun hs => ⟨rfl, ho, hs, fun h => h⟩
  unfold RawNode.maybeRead
  refine costless_ite (fun hnil => costless_pure (hdone fun _ r hr => ?_)) fun _ => ?_
  · rw [hnil] at hr
    cases hr
  rw [getAppliedIndex_eq (ho.indexed.of_initial ho.state_initial)]
  refine costless_ite (fun hb => costless_pure (hdone fun heq => ?_)) fun _ => ?_
  · have hle := ho.commit_le
    have hb' : self.log.commitTerm < self.term ∨ self.state.length < self.log.commitIndex := hb
    omega
  refine (ends_quorumValue _).bind fun q hq => ?_
  refine (ends_serveReads q ho.reads_sorted).bind fun rest hrest => costless_pure ?_
  refine ⟨rfl, { ho with
    reads_sorted := ho.reads_sorted.sublist hrest.1
    reads_le := fun r hr => ho.reads_le r (hrest.1.subset hr) }, fun _ r hr => ?_, fun h => h⟩
  change self.majority self.readSeqs < r.seq
  exact hq ▸ hrest.2 r hr

end Reads

/-! ## Commitment -/

section Commit
variable {self : RawNode Leader} {sm : StateMachine}

theorem ends_applyAndRespond (e : Entry) : Ends (self.applyAndRespond sm e) fun node =>
    node = { self with
      state := self.state ++ [e]
      role := { self.role with writes := self.role.writes.erase e.index } } := by
  unfold RawNode.applyAndRespond
  refine (ends_applyEntry _ _).bind fun r hr => ?_
  rw [hr]
  split
  · exact (ends_send _ _ _).bind fun _ _ => costless_pure rfl
  · exact costless_pure rfl

/-- Applying entries answers the writes at their indexes. -/
theorem ends_applyAll (entries : List Entry) :
    Ends (entries.foldlM (fun self entry => self.applyAndRespond sm entry) self) fun node =>
      ∃ writes, node = { self with
        state := self.state ++ entries
        role := { self.role with writes := writes } } ∧
      ∀ k w, writes.get k = some w → self.role.writes.get k = some w ∧
        ∀ e ∈ entries, e.index ≠ k := by
  induction entries generalizing self with
  | nil => exact costless_pure ⟨self.role.writes, by simp, by simp⟩
  | cons e entries ih =>
      rw [List.foldlM_cons]
      refine (ends_applyAndRespond e).bind fun node hn => ?_
      subst hn
      refine ih.mono fun node ⟨writes, hnode, hw⟩ => ⟨writes, ?_, fun k w hk => ?_⟩
      · simpa using hnode
      · obtain ⟨hk, hne⟩ := hw k w hk
        rw [OrderedMap.get_erase] at hk
        split_ifs at hk with heq
        exact ⟨hk, List.forall_mem_cons.mpr ⟨Ne.symm heq, hne⟩⟩

theorem ends_maybeCommitAndApply (ho : Orderly self) (hs : Serves self) :
    Ends (self.maybeCommitAndApply sm) fun r => Settled r.1 := by
  unfold RawNode.maybeCommitAndApply
  refine (ends_quorumValue _).bind fun k hk => ?_
  have hk' : k = self.majority self.matchIndexes := hk
  refine costless_ite (fun hle => costless_pure ⟨ho, fun _ _ _ => hk' ▸ hle, hs⟩) fun hlt => ?_
  split
  · exact ends_panic
  next e he =>
  refine costless_ite (fun hne => costless_pure ⟨ho, fun e' he' ht => ?_, hs⟩) fun hterm => ?_
  · rw [← hk', he] at he'
    obtain rfl := Option.some.inj he'
    exact absurd ht hne
  refine (ends_commit ho.indexed k).bind fun l ⟨hle, hlt', e', he', hl⟩ => ?_
  obtain rfl := Option.some.inj (he.symm.trans he')
  have hlk : l.commitIndex = k ∧ l.commitTerm = e.term := hl.resolve_right fun h =>
    hlt h.2.le
  have hready := @applied_ready l _ (hle ▸ ho.indexed) (hle ▸ ho.state_initial)
    (by rw [hlk.1, hle]; exact Log.le_of_get he)
  refine (ends_applyAll _).bind fun node ⟨writes, hnode, hw⟩ => ?_
  have hlast : l.getLastIndex = self.log.getLastIndex := by simp only [Log.getLastIndex, hle]
  have ho' : Orderly node := by
    subst hnode
    refine { ho with
      indexed := hle ▸ ho.indexed
      state_initial := hready.1
      commit_le := hready.2
      match_le := hle ▸ ho.match_le
      write_lt := fun {k' w} hk' => ?_ }
    obtain ⟨hk', hne⟩ := hw k' w hk'
    have hpos := ho.write_lt hk'
    by_contra hge
    rw [not_lt] at hge
    simp only [List.length_append] at hge
    obtain ⟨x, hx⟩ : ∃ x, (l.scanApply (getAppliedIndex self.state))[k' - self.state.length - 1]? =
        some x := ⟨_, List.getElem?_eq_getElem (by omega)⟩
    refine hne x (List.mem_of_getElem? hx) ?_
    rw [((hle ▸ ho.indexed : Indexed l.entries).of_initial hready.1).index_append hx]
    omega
  have hc' : Commits node := by
    subst hnode
    intro _ _ _
    change self.majority (_ ++ [l.getLastIndex.1]) ≤ l.commitIndex
    rw [hlast, hlk.1]
    exact hk.ge
  refine costless_ite (fun _ => ?_) fun hsame => costless_pure ⟨ho', hc', fun _ r hr => ?_⟩
  · exact (ends_maybeRead ho').bind fun node' h => costless_pure ⟨h.2.1, h.2.2.2 hc', h.2.2.1⟩
  · subst hnode
    rw [not_not] at hsame
    refine hs ?_ r hr
    simpa [RawNode.term, Log.getTermVote, hlt'] using hsame

end Commit

end ToyDB.Raft
