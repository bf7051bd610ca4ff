import Mathlib.Algebra.Order.Group.Multiset
import ToyDB.Effects.Meter
import ToyDB.Raft.Replication

/-!
# What a leader and a follower exchange

While the leader `i` of a term replicates its log to the follower `j`, one message of the
protocol is under way at a time. A step pays for the messages that it sends to the other node
out of a budget of such messages, so the rules of the meter tell what a step sends. Answers of
the leader to its clients are free.
-/
namespace ToyDB.Raft
open ToyDB.Collections ToyDB.Consensus ToyDB.Effects

/-! ## Messages -/

namespace Message

def isResponse : Message → Bool
  | .clientResponse _ _ => true
  | _ => false

end Message

namespace Envelope

/-- The message goes from one of the nodes to the other one. -/
def Between (i j : NodeID) (env : Envelope) : Prop :=
  env.sender = i ∧ env.recipient = j ∨ env.sender = j ∧ env.recipient = i

/-- The leader of the term answers a client. -/
def Answers (i : NodeID) (T : ℕ) (env : Envelope) : Prop :=
  env.sender = i ∧ env.term = T ∧ env.message.isResponse = true

/-- The message is part of the replication between the nodes. -/
def Replicates (i j : NodeID) (T : ℕ) (env : Envelope) : Prop :=
  env.Between i j ∧ ¬ env.Answers i T

instance (i j : NodeID) (env : Envelope) : Decidable (env.Between i j) := by
  unfold Between
  infer_instance

instance (i : NodeID) (T : ℕ) (env : Envelope) : Decidable (env.Answers i T) := by
  unfold Answers
  infer_instance

instance (i j : NodeID) (T : ℕ) (env : Envelope) : Decidable (env.Replicates i j T) := by
  unfold Replicates
  infer_instance

end Envelope

/-- The messages of an event that are part of the replication between two nodes. -/
def replicating (i j : NodeID) (T : ℕ) (e : Event) : Multiset Envelope :=
  (↑((World.routed e).toList) : Multiset Envelope).filter (Envelope.Replicates i j T)

theorem sum_replicating (i j : NodeID) (T : ℕ) (es : List Event) :
    (es.map (replicating i j T)).sum =
      (↑(es.filterMap World.routed) : Multiset Envelope).filter (Envelope.Replicates i j T) := by
  induction es with
  | nil => rfl
  | cons e es ih =>
      rw [List.map_cons, List.sum_cons, ih, replicating, ← Multiset.filter_add]
      congr 1
      cases hroute : World.routed e with
      | none => simp [hroute]
      | some env => simp [hroute]

/-- The message that the replication of the entries `L` awaits, and a bound on the number of
messages until the follower with the recorded progress has them. -/
inductive Awaits (L : List Entry) (i j : NodeID) (T : ℕ) (x : Progress) :
    Multiset Envelope → ℕ → Prop where
  | heartbeat (commitIndex seq : ℕ) :
      Awaits L i j T x {⟨i, T, j, .heartbeat L.length commitIndex seq⟩} (4 * L.length + 5)
  | compared (m seq : ℕ) : m = L.length ∨ m = 0 ∧ x.matchIndex < L.length →
      Awaits L i j T x {⟨j, T, i, .heartbeatResponse m seq⟩} (4 * L.length + 4)
  | probed : x.matchIndex + 1 < x.nextIndex → x.nextIndex ≤ L.length →
      Awaits L i j T x
        {⟨i, T, j, .append (x.nextIndex - 1) (lastTerm (L.take (x.nextIndex - 1))) []⟩}
        (2 * (L.length + x.nextIndex) + 3)
  | rejected (r : ℕ) : x.matchIndex < r → r < x.nextIndex → x.nextIndex ≤ L.length →
      Awaits L i j T x {⟨j, T, i, .appendResponse 0 r⟩} (2 * (L.length + x.nextIndex) + 2)
  | sent (entries : List Entry) : x.matchIndex + 1 < x.nextIndex → x.nextIndex ≤ L.length + 1 →
      entries.getLast?.map Entry.index = some (x.nextIndex - 1) →
      Awaits L i j T x {⟨i, T, j, .append x.matchIndex (lastTerm (L.take x.matchIndex)) entries⟩}
        (2 * (L.length - x.matchIndex) + 1)
  | appended : x.matchIndex + 1 < x.nextIndex → x.nextIndex ≤ L.length + 1 →
      Awaits L i j T x {⟨j, T, i, .appendResponse (x.nextIndex - 1) 0⟩}
        (2 * (L.length - x.matchIndex))
  | done : x.matchIndex = L.length → Awaits L i j T x 0 0

/-! ## Steps that send nothing -/

/-- The program sends no message of the replication. -/
abbrev Quiet {α : Type} (i j : NodeID) (T : ℕ) (x : Action α) (P : α → Prop) : Prop :=
  Costless (replicating i j T) x P

section Quiet
variable {i j : NodeID} {T : ℕ} {R : Type} {sm : StateMachine}

theorem replicating_answer (n : NodeID) (id : RequestID) (response : Except Error Response) :
    replicating i j T (.send ⟨i, T, n, .clientResponse id response⟩) = 0 := by
  unfold replicating
  rw [Multiset.filter_eq_nil]
  intro env henv
  simp only [World.routed] at henv
  split_ifs at henv
  · simp at henv
  · obtain rfl : env = ⟨i, T, n, .clientResponse id response⟩ := by simpa using henv
    exact fun h => h.2 ⟨rfl, rfl, rfl⟩

theorem replicating_self (n : NodeID) (term : ℕ) (id : RequestID)
    (response : Except Error Response) :
    replicating i j T (.send ⟨n, term, n, .clientResponse id response⟩) = 0 := by
  simp [replicating, World.routed]

theorem quiet_assert {p : Prop} [Decidable p] {m : String} : Quiet i j T (assert p m) fun _ => p :=
  costless_ensure

theorem quiet_panic {α : Type} {P : α → Prop} {m : String} : Quiet i j T (panic m) P :=
  costless_fail

theorem quiet_applyEntry (state : List Entry) (entry : Entry) :
    Quiet i j T (applyEntry sm state entry) fun _ => True :=
  Costless.bind (costless_emit rfl) fun _ _ => costless_pure trivial

theorem quiet_commit (log : Log) (index : ℕ) : Quiet i j T (log.commit index) fun log' =>
    log'.entries = log.entries ∧ log'.term = log.term := by
  unfold Log.commit
  cases log.get index with
  | none => exact quiet_panic
  | some entry =>
      refine costless_ite (fun _ => quiet_panic) fun _ => costless_ite (fun _ => ?_) fun _ => ?_
      · exact costless_pure ⟨rfl, rfl⟩
      · exact Costless.bind (costless_emit rfl) fun _ _ => costless_pure ⟨rfl, rfl⟩

theorem quiet_quorumValue (self : RawNode R) (values : List ℕ) :
    Quiet i j T (self.quorumValue values) fun _ => True := by
  unfold RawNode.quorumValue
  refine quiet_assert.bind fun _ _ => ?_
  split
  · exact costless_pure trivial
  · exact quiet_panic

end Quiet

/-! ## Steps that reply -/

/-- A run of the program that returns satisfies the postcondition with what it sent. -/
def Replies {α : Type} (i j : NodeID) (T : ℕ) (program : Action α)
    (P : α → Multiset Envelope → Prop) : Prop :=
  ∀ s a, (program s).result = .ok a → P a ((program s).events.map (replicating i j T)).sum

section Replies
variable {i j : NodeID} {T : ℕ} {α β : Type} {x : Action α} {f : α → Action β}
  {P : α → Multiset Envelope → Prop}

/-- A program that spends its budget. -/
theorem Replies.of_pays {Q : α → Prop} {sent : Multiset Envelope}
    (h : Pays (replicating i j T) x (fun a g => g = 0 ∧ Q a) sent) (hP : ∀ a, Q a → P a sent) :
    Replies i j T x P := by
  intro s a ha
  obtain ⟨g, hpath, hr⟩ := h s
  rw [ha] at hr
  obtain ⟨rfl, hQ⟩ := hr
  have hspent := meter_spent hpath
  rw [add_zero] at hspent
  exact hspent ▸ hP a hQ

theorem Quiet.replies {Q : α → Prop} {P : β → Multiset Envelope → Prop} (hx : Quiet i j T x Q)
    (hf : ∀ a, Q a → Replies i j T (f a) P) : Replies i j T (x >>= f) P := by
  intro s b hb
  change (Program.bind x f s).result = .ok b at hb
  change P b ((Program.bind x f s).events.map (replicating i j T)).sum
  obtain ⟨g, hpath, hr⟩ := hx 0 s
  have hspent := meter_spent hpath
  unfold Program.bind at hb ⊢
  cases hxs : x s with
  | mk r s' es =>
      rw [hxs] at hb hr hspent
      cases r with
      | error c => cases hb
      | ok a =>
          obtain ⟨rfl, hQ⟩ := hr
          rw [add_zero] at hspent
          have hlast := hf a hQ s' b hb
          dsimp only at hspent ⊢
          rw [List.map_append, List.sum_append, ← hspent, zero_add]
          exact hlast

/-- What a program replies, with another name for its result. -/
theorem Replies.map {P' : β → Multiset Envelope → Prop} {f : α → β} (h : Replies i j T x P)
    (hP : ∀ a sent, P a sent → P' (f a) sent) :
    Replies i j T (x >>= fun a => pure (f a)) P' := by
  intro s b hb
  change (Program.bind x (fun a => Program.pure (f a)) s).result = .ok b at hb
  change P' b ((Program.bind x (fun a => Program.pure (f a)) s).events.map _).sum
  have hx := h s
  unfold Program.bind Program.pure at hb ⊢
  cases hxs : x s with
  | mk r s' es =>
      rw [hxs] at hb hx
      cases r with
      | error c => cases hb
      | ok a =>
          obtain rfl := Except.ok.inj hb
          dsimp only at hx ⊢
          rw [List.append_nil]
          exact hP a _ (hx a rfl)

end Replies

/-! ## The leader -/

/-- The leader of the term, with its log and the progress of the follower. -/
structure RawNode.Leads (node : RawNode Leader) (L : List Entry) (i j : NodeID) (T : ℕ)
    (x : Progress) : Prop where
  id : node.id = i
  term : node.log.term = T
  entries : node.log.entries = L
  progress : node.role.progress.get j = some x
  appends : 1 ≤ node.opts.maxAppendEntries

section Leader
variable {L : List Entry} {i j : NodeID} {T : ℕ} {x : Progress} {sm : StateMachine}
  {self : RawNode Leader}

theorem RawNode.Leads.setProgress (h : self.Leads L i j T x) (y : Progress) :
    (self.setProgress j y).Leads L i j T y :=
  ⟨h.id, h.term, h.entries, OrderedMap.get_insert_self _ _ _, h.appends⟩

theorem RawNode.Leads.quiet_send (h : self.Leads L i j T x) (n : NodeID) (id : RequestID)
    (response : Except Error Response) :
    Quiet i j T (self.send n (.clientResponse id response)) fun _ => True := by
  have hterm : self.term = T := h.term
  unfold RawNode.send
  rw [h.id, hterm]
  exact costless_emit (replicating_answer n id response)

theorem RawNode.Leads.quiet_progress (h : self.Leads L i j T x) :
    Quiet i j T (self.progress j) fun y => y = x := by
  unfold RawNode.progress
  rw [h.progress]
  exact costless_pure rfl

theorem RawNode.Leads.quiet_serveReads (h : self.Leads L i j T x) (seq : ℕ) (reads : List Read) :
    Quiet i j T (self.serveReads sm seq reads) fun _ => True := by
  induction reads with
  | nil => exact costless_pure trivial
  | cons read reads ih =>
      unfold RawNode.serveReads
      refine costless_ite (fun _ => costless_pure trivial) fun _ => ?_
      exact Costless.bind (costless_emit rfl) fun _ _ => (h.quiet_send _ _ _).bind fun _ _ => ih

theorem RawNode.Leads.quiet_maybeRead (h : self.Leads L i j T x) :
    Quiet i j T (self.maybeRead sm) fun next => next.Leads L i j T x := by
  unfold RawNode.maybeRead
  refine costless_ite (fun _ => costless_pure h) fun _ => ?_
  refine costless_ite (fun _ => costless_pure h) fun _ =>
    (quiet_quorumValue _ _).bind fun seq _ => ?_
  exact (h.quiet_serveReads _ _).bind fun _ _ =>
    costless_pure ⟨h.id, h.term, h.entries, h.progress, h.appends⟩

theorem RawNode.Leads.quiet_applyAndRespond (h : self.Leads L i j T x) (entry : Entry) :
    Quiet i j T (self.applyAndRespond sm entry) fun next => next.Leads L i j T x := by
  unfold RawNode.applyAndRespond
  refine (quiet_applyEntry _ _).bind fun applied _ => ?_
  have hnext : ∀ role : Leader, role.progress = self.role.progress →
      RawNode.Leads { self with role := role, state := applied.1 } L i j T x :=
    fun role hrole => ⟨h.id, h.term, h.entries, hrole ▸ h.progress, h.appends⟩
  split
  · exact ((hnext _ rfl).quiet_send _ _ _).bind fun _ _ => costless_pure (hnext _ rfl)
  · exact costless_pure (hnext _ rfl)

theorem RawNode.Leads.quiet_maybeCommitAndApply (h : self.Leads L i j T x) :
    Quiet i j T (self.maybeCommitAndApply sm) fun a => a.1.Leads L i j T x := by
  unfold RawNode.maybeCommitAndApply
  refine (quiet_quorumValue _ _).bind fun index _ => ?_
  refine costless_ite (fun _ => costless_pure h) fun _ => ?_
  split
  · exact quiet_panic
  refine costless_ite (fun _ => costless_pure h) fun _ => ?_
  refine (quiet_commit _ _).bind fun log hlog => ?_
  have hnext : RawNode.Leads { self with log := log } L i j T x :=
    ⟨h.id, hlog.2.trans h.term, hlog.1.trans h.entries, h.progress, h.appends⟩
  refine Costless.bind (costless_foldlM (R := fun next => next.Leads L i j T x)
    (fun _ entry hnext => hnext.quiet_applyAndRespond entry) hnext) fun next hnext => ?_
  refine costless_ite (fun _ => ?_) fun _ => costless_pure hnext
  exact hnext.quiet_maybeRead.bind fun _ hnext => costless_pure hnext

theorem RawNode.Leads.quiet_advanceRead (h : self.Leads L i j T x) (seq : ℕ) :
    Quiet i j T (self.advanceRead sm j seq) fun next =>
      next.Leads L i j T (x.advanceRead seq).2 := by
  unfold RawNode.advanceRead
  refine h.quiet_progress.bind fun y hy => ?_
  subst hy
  have hnext := h.setProgress (y.advanceRead seq).2
  exact costless_ite (fun _ => hnext.quiet_maybeRead) fun _ => costless_pure hnext

theorem RawNode.Leads.quiet_advanceMatch (h : self.Leads L i j T x) (index : ℕ) :
    Quiet i j T (self.advanceMatch sm j index) fun next =>
      next.Leads L i j T (x.advance index).2 := by
  unfold RawNode.advanceMatch
  refine h.quiet_progress.bind fun y hy => ?_
  subst hy
  have hnext := h.setProgress (y.advance index).2
  refine costless_ite (fun _ => ?_) fun _ => costless_pure hnext
  exact hnext.quiet_maybeCommitAndApply.bind fun _ hnext => costless_pure hnext

/-! ## The leader sends entries -/

theorem replicating_send {n : NodeID} {m : Message} (hn : n = j ∧ n ≠ i)
    (hm : m.isResponse = false) : replicating i j T (.send ⟨i, T, n, m⟩) = {⟨i, T, n, m⟩} := by
  have hroute : World.routed (.send ⟨i, T, n, m⟩) = some ⟨i, T, n, m⟩ := by
    cases m <;> first | rfl | cases hm
  rw [replicating, hroute]
  refine Multiset.filter_eq_self.mpr fun env henv => ?_
  obtain rfl : env = ⟨i, T, n, m⟩ := by simpa using henv
  refine ⟨Or.inl ⟨rfl, hn.1⟩, fun h => ?_⟩
  rw [h.2.2] at hm
  cases hm

theorem RawNode.Leads.pays_send (h : self.Leads L i j T x) (hne : j ≠ i) {m : Message}
    (hm : m.isResponse = false) (g : Multiset Envelope) :
    Pays (replicating i j T) (self.send j m) (fun _ g' => g' = g) ({⟨i, T, j, m⟩} + g) := by
  have hterm : self.term = T := h.term
  unfold RawNode.send
  rw [h.id, hterm]
  exact pays_emit (by rw [replicating_send ⟨rfl, hne⟩ hm]) rfl

theorem RawNode.Leads.quiet_appendBase (h : self.Leads L i j T x) (hL : Indexed L) {next : ℕ}
    (hpos : 0 < next) (hle : next ≤ L.length) : Quiet i j T (self.appendBase next) fun base =>
      base = (next - 1, lastTerm (L.take (next - 1))) := by
  obtain rfl := h.entries
  unfold RawNode.appendBase
  refine costless_ite (fun hone => ?_) fun hone => ?_
  · subst hone
    exact costless_pure rfl
  · obtain ⟨k, hk⟩ : ∃ k, next - 1 = k + 1 := ⟨next - 2, by omega⟩
    obtain ⟨e, he⟩ : ∃ e, self.log.entries[k]? = some e := ⟨_, List.getElem?_eq_getElem (by omega)⟩
    have hget : self.log.get (next - 1) = some e := by rw [hk]; exact he
    rw [hget]
    exact costless_pure (by rw [hk, lastTerm_take he, hL k e he])

/-- The progress after entries were sent. -/
def Progress.after (x : Progress) (entries : List Entry) : Progress :=
  match entries.getLast? with
  | some last => { x with nextIndex := last.index + 1 }
  | none => x

theorem RawNode.Leads.pays_maybeSendAppend (h : self.Leads L i j T x) (hne : j ≠ i)
    (hL : Indexed L) (hlt : x.matchIndex < x.nextIndex) (hle : x.nextIndex ≤ L.length)
    (probe : Bool) (entries : List Entry) (hentries : entries =
      if (probe && decide (x.matchIndex + 1 < x.nextIndex)) = true then [] else
        (L.drop (x.nextIndex - 1)).take self.opts.maxAppendEntries) (g : Multiset Envelope) :
    Pays (replicating i j T) (self.maybeSendAppend j probe)
      (fun next g' => g' = g ∧ next.Leads L i j T (x.after entries))
      ({⟨i, T, j, .append (x.nextIndex - 1) (lastTerm (L.take (x.nextIndex - 1))) entries⟩} + g) := by
  have hlog : Indexed self.log.entries := h.entries ▸ hL
  have hlast : self.log.getLastIndex.1 = L.length := by rw [Log.getLastIndex_eq hlog, h.entries]
  have hscan : self.log.scan x.nextIndex L.length = L.drop (x.nextIndex - 1) := by
    rw [Log.scan_eq hlog _ (by omega), h.entries, List.take_length]
  unfold RawNode.maybeSendAppend
  rw [hlast]
  refine h.quiet_progress.then fun y hy => ?_
  subst hy
  refine quiet_assert.then fun _ _ => quiet_assert.then fun _ _ => quiet_assert.then fun _ _ =>
    quiet_assert.then fun _ _ => ?_
  rw [if_neg (by omega)]
  dsimp only
  rw [if_neg (by omega), hscan, ← hentries]
  refine (h.quiet_appendBase hL (by omega) hle).then fun base hbase => ?_
  subst hbase
  have hnext : (self.setProgress j (y.after entries)).Leads L i j T (y.after entries) :=
    h.setProgress _
  exact Pays.bind (hnext.pays_send hne rfl g) fun _ g' hg => pays_pure ⟨hg, hnext⟩

/-- A leader sends something to a follower that lacks entries. -/
theorem RawNode.Leads.sends (h : self.Leads L i j T x) (hne : j ≠ i) (hL : Indexed L)
    (hlt : x.matchIndex < x.nextIndex) (hle : x.nextIndex ≤ L.length) (probe : Bool)
    (hprobe : probe = true ∨ x.nextIndex = x.matchIndex + 1) :
    ∃ y sent k, Awaits L i j T y sent k ∧ k ≤ 2 * (L.length + x.nextIndex) + 3 ∧
      (x.nextIndex = x.matchIndex + 1 → k ≤ 2 * (L.length - x.matchIndex) + 1) ∧
      ∀ g, Pays (replicating i j T) (self.maybeSendAppend j probe)
        (fun next g' => g' = g ∧ next.Leads L i j T y) (sent + g) := by
  have hpays := h.pays_maybeSendAppend hne hL hlt hle probe
  by_cases hnext : x.nextIndex = x.matchIndex + 1
  · -- the base is confirmed, so entries are sent
    have hdecide : decide (x.matchIndex + 1 < x.nextIndex) = false := decide_eq_false (by omega)
    rw [hdecide, Bool.and_false] at hpays
    set entries := (L.drop (x.nextIndex - 1)).take self.opts.maxAppendEntries with hentries
    have hsent := hpays entries rfl
    have hslice : L.take x.matchIndex ++ entries <+: L := by
      conv_rhs => rw [← List.take_append_drop x.matchIndex L]
      rw [hentries, hnext, Nat.add_sub_cancel]
      exact (List.prefix_append_right_inj _).mpr (List.take_prefix _ _)
    have hlength : entries.length = min self.opts.maxAppendEntries (L.length - x.matchIndex) := by
      rw [hentries, hnext, Nat.add_sub_cancel, List.length_take, List.length_drop]
    have happends := h.appends
    obtain ⟨last, hlast⟩ : ∃ last, entries.getLast? = some last := by
      refine Option.ne_none_iff_exists'.mp fun hnone => ?_
      rw [List.getLast?_eq_none_iff.mp hnone, List.length_nil] at hlength
      omega
    have hindex : last.index = x.matchIndex + entries.length := by
      have hi := (hL.of_initial hslice).index_getLast (e := last)
        (by rw [List.getLast?_append, hlast]; rfl)
      rw [List.length_append, List.length_take] at hi
      omega
    have hafter : x.after entries = { x with nextIndex := last.index + 1 } := by
      rw [Progress.after, hlast]
    rw [hnext, Nat.add_sub_cancel] at hsent
    refine ⟨x.after entries, _, _, ?_, ?_, fun _ => le_rfl, hsent⟩
    · have hawaits : Awaits L i j T (x.after entries) _ _ :=
        .sent entries (by rw [hafter]; dsimp only; omega) (by rw [hafter]; dsimp only; omega)
          (by rw [hafter, hlast]; rfl)
      rwa [show (x.after entries).matchIndex = x.matchIndex by rw [hafter]] at hawaits
    · omega
  · have hdecide : decide (x.matchIndex + 1 < x.nextIndex) = true := decide_eq_true (by omega)
    obtain rfl := hprobe.resolve_right hnext
    rw [hdecide, Bool.and_self] at hpays
    exact ⟨x, _, _, .probed (by omega) hle, le_rfl, fun h => absurd h hnext, hpays [] rfl⟩

/-! ## The leader processes a response -/

/-- The leader awaits what it sent, which is closer to the end. -/
def Awaiting (L : List Entry) (i j : NodeID) (T k : ℕ) (next : RawNode Leader)
    (sent : Multiset Envelope) : Prop :=
  ∃ y k', Awaits L i j T y sent k' ∧ k' < k ∧ next.Leads L i j T y

theorem Progress.advance_last {n : ℕ} (hlt : x.matchIndex < x.nextIndex)
    (hle : x.nextIndex ≤ n + 1) : (x.advance n).2.matchIndex = n := by
  unfold Progress.advance
  split_ifs with h
  · dsimp only
    omega
  · rfl

theorem Progress.advance_zero : (x.advance 0).2 = x := by
  unfold Progress.advance
  rw [if_pos (Nat.zero_le _)]

/-- The next index of a follower that lacks the last entry, after a response says so. -/
theorem Progress.regressNext_behind {n : ℕ} (hmatch : x.matchIndex < n)
    (hlt : x.matchIndex < x.nextIndex) : (x.regressNext n).2.matchIndex = x.matchIndex ∧
      x.matchIndex < (x.regressNext n).2.nextIndex ∧ (x.regressNext n).2.nextIndex ≤ n := by
  unfold Progress.regressNext
  split_ifs with h
  · exact ⟨rfl, hlt, by dsimp only; omega⟩
  · exact ⟨rfl, by dsimp only; omega, by dsimp only; omega⟩

theorem Progress.advanceRead_match (seq : ℕ) : (x.advanceRead seq).2.matchIndex = x.matchIndex ∧
    (x.advanceRead seq).2.nextIndex = x.nextIndex := by
  unfold Progress.advanceRead
  split_ifs <;> exact ⟨rfl, rfl⟩

theorem RawNode.Leads.replies_heartbeatResponse (h : self.Leads L i j T x) (hne : j ≠ i)
    (hL : Indexed L) (hpos : 0 < L.length) (hlt : x.matchIndex < x.nextIndex)
    (hle : x.nextIndex ≤ L.length + 1) {msg : Envelope} (hsender : msg.sender = j) {m seq : ℕ}
    (hm : m = L.length ∨ m = 0 ∧ x.matchIndex < L.length) :
    Replies i j T (self.stepHeartbeatResponse sm msg m seq)
      (Awaiting L i j T (4 * L.length + 4)) := by
  unfold RawNode.stepHeartbeatResponse
  rw [hsender]
  refine quiet_assert.replies fun _ _ => quiet_assert.replies fun _ _ =>
    (h.quiet_advanceRead seq).replies fun next hnext => ?_
  obtain ⟨hmatch, hnextIndex⟩ := Progress.advanceRead_match (x := x) seq
  set x₁ := (x.advanceRead seq).2 with hx₁
  have hlast : self.log.getLastIndex.1 = L.length := by
    rw [Log.getLastIndex_eq (h.entries ▸ hL), h.entries]
  rw [hlast]
  by_cases hm0 : m = 0
  · have hbehind : x₁.matchIndex < L.length := by omega
    rw [if_pos hm0, hm0]
    unfold RawNode.probeLast
    rw [bind_assoc]
    refine hnext.quiet_progress.replies fun y hy => ?_
    subst hy
    obtain ⟨hregressed, hlt', hle'⟩ := Progress.regressNext_behind (n := L.length) hbehind
      (by omega)
    obtain ⟨y, sent, k', hawaits, hk, -, hpays⟩ :=
      (hnext.setProgress (x₁.regressNext L.length).2).sends hne hL (hregressed ▸ hlt') hle'
        true (Or.inl rfl)
    refine Replies.of_pays (Q := fun last => last.Leads L i j T (y.advance 0).2)
      (Pays.bind (add_zero sent ▸ hpays 0) ?_) ?_
    · exact fun last g hlast => (hlast.2.quiet_advanceMatch 0).last fun _ h => ⟨hlast.1, h⟩
    · intro last hlast
      rw [Progress.advance_zero] at hlast
      exact ⟨y, k', hawaits, by omega, hlast⟩
  · obtain rfl := hm.resolve_right fun h => hm0 h.1
    rw [if_neg hm0]
    refine .of_pays (hnext.quiet_advanceMatch L.length 0) ?_
    rintro last hlast
    exact ⟨_, 0, .done (Progress.advance_last (hmatch ▸ hnextIndex ▸ hlt) (hnextIndex ▸ hle)),
      by omega, hlast⟩

theorem RawNode.Leads.quiet_maybeSendAppend (h : self.Leads L i j T x) (hL : Indexed L)
    (hdone : x.matchIndex = L.length) (probe : Bool) :
    Quiet i j T (self.maybeSendAppend j probe) fun next => next.Leads L i j T x := by
  have hlast : self.log.getLastIndex.1 = L.length := by
    rw [Log.getLastIndex_eq (h.entries ▸ hL), h.entries]
  unfold RawNode.maybeSendAppend
  rw [hlast]
  refine h.quiet_progress.bind fun y hy => ?_
  subst hy
  refine quiet_assert.bind fun _ _ => quiet_assert.bind fun _ _ => quiet_assert.bind fun _ _ =>
    quiet_assert.bind fun _ _ => ?_
  rw [if_pos hdone]
  exact costless_pure h

theorem RawNode.Leads.replies_appended (h : self.Leads L i j T x) (hne : j ≠ i) (hL : Indexed L)
    (hlt : x.matchIndex + 1 < x.nextIndex) (hle : x.nextIndex ≤ L.length + 1) {msg : Envelope}
    (hsender : msg.sender = j) : Replies i j T (self.stepAppended sm msg (x.nextIndex - 1))
      (Awaiting L i j T (2 * (L.length - x.matchIndex))) := by
  unfold RawNode.stepAppended
  rw [hsender]
  refine quiet_assert.replies fun _ _ => (h.quiet_advanceMatch _).replies fun next hnext => ?_
  have hadvance : (x.advance (x.nextIndex - 1)).2 = { x with matchIndex := x.nextIndex - 1 } := by
    unfold Progress.advance
    rw [if_neg (by omega), Nat.sub_add_cancel (by omega), max_self]
  rw [hadvance] at hnext
  by_cases hdone : x.nextIndex - 1 = L.length
  · exact .of_pays (hnext.quiet_maybeSendAppend hL hdone false 0) fun last hlast =>
      ⟨_, 0, .done hdone, by omega, hlast⟩
  · obtain ⟨y, sent, k', hawaits, -, hk, hpays⟩ := hnext.sends hne hL
      (by dsimp only; omega) (by dsimp only; omega) false (Or.inr (by dsimp only; omega))
    have hk' := hk (by dsimp only; omega)
    dsimp only at hk'
    exact .of_pays (add_zero sent ▸ hpays 0) fun last hlast => ⟨y, k', hawaits, by omega, hlast⟩

theorem RawNode.Leads.replies_rejected (h : self.Leads L i j T x) (hne : j ≠ i) (hL : Indexed L)
    {r : ℕ} (hr : x.matchIndex < r) (hlt : r < x.nextIndex) (hle : x.nextIndex ≤ L.length)
    {msg : Envelope} (hsender : msg.sender = j) : Replies i j T (self.stepRejected msg r)
      (Awaiting L i j T (2 * (L.length + x.nextIndex) + 2)) := by
  unfold RawNode.stepRejected
  rw [hsender]
  refine quiet_assert.replies fun _ _ => h.quiet_progress.replies fun y hy => ?_
  subst hy
  have hregress : y.regressNext r = (true, { y with nextIndex := r }) := by
    unfold Progress.regressNext
    rw [if_neg (by omega), max_eq_left (by omega)]
  rw [if_neg (by omega), hregress]
  dsimp only
  rw [if_pos rfl]
  obtain ⟨z, sent, k', hawaits, hk, -, hpays⟩ := (h.setProgress { y with nextIndex := r }).sends
    hne hL hr (by dsimp only; omega) true (Or.inl rfl)
  dsimp only at hk
  exact .of_pays (add_zero sent ▸ hpays 0) fun last hlast => ⟨z, k', hawaits, by omega, hlast⟩

end Leader

/-! ## The follower -/

/-- The follower of the leader in the term. -/
structure RawNode.Follows (node : RawNode Follower) (i j : NodeID) (T : ℕ) : Prop where
  id : node.id = j
  term : node.log.term = T
  leader : node.role.leader = some i

section Follower
variable {L : List Entry} {i j : NodeID} {T : ℕ} {x : Progress} {sm : StateMachine}
  {self : RawNode Follower} {msg : Envelope}

theorem replicating_reply (hne : j ≠ i) (m : Message) (hm : m.isResponse = false) :
    replicating i j T (.send ⟨j, T, i, m⟩) = {⟨j, T, i, m⟩} := by
  have hroute : World.routed (.send ⟨j, T, i, m⟩) = some ⟨j, T, i, m⟩ := by
    cases m <;> first | rfl | cases hm
  rw [replicating, hroute]
  refine Multiset.filter_eq_self.mpr fun env henv => ?_
  obtain rfl : env = ⟨j, T, i, m⟩ := by simpa using henv
  exact ⟨Or.inr ⟨rfl, rfl⟩, fun h => hne h.1⟩

theorem RawNode.Follows.pays_send (h : self.Follows i j T) (hne : j ≠ i) {m : Message}
    (hm : m.isResponse = false) :
    Pays (replicating i j T) (self.send i m) (fun _ g => g = 0) {⟨j, T, i, m⟩} := by
  have hterm : self.term = T := h.term
  unfold RawNode.send
  rw [h.id, hterm]
  exact pays_emit (by rw [replicating_reply hne m hm, add_zero]) rfl

theorem quiet_abortForwarded : Quiet i j T self.abortForwarded fun next =>
    next.log = self.log ∧ next.id = self.id := by
  unfold RawNode.abortForwarded
  refine (costless_forM fun id _ => ?_).bind fun _ _ => costless_pure ⟨rfl, rfl⟩
  exact costless_emit (replicating_self _ _ _ _)

theorem quiet_maybeApply {R : Type} (self : RawNode R) :
    Quiet i j T (self.maybeApply sm) fun next => next.id = self.id ∧ next.log = self.log ∧ next.role = self.role := by
  unfold RawNode.maybeApply
  refine Costless.bind (P := fun _ => True) (costless_foldlM (fun state entry _ => ?_) trivial)
    fun _ _ => costless_pure ⟨rfl, rfl, rfl⟩
  exact (quiet_applyEntry state entry).bind fun _ _ => costless_pure trivial

/-- A follower of the term follows the leader from its first message on. -/
theorem quiet_checkLeader (hid : self.id = j) (hterm : self.log.term = T)
    (hleader : self.role.leader = none ∨ self.role.leader = some i) (hsender : msg.sender = i) :
    Quiet i j T (self.checkLeader msg) fun next => next.Follows i j T ∧ next.log = self.log := by
  unfold RawNode.checkLeader
  obtain hnone | hsome := hleader
  · rw [hnone]
    dsimp only
    unfold RawNode.intoFollower
    refine quiet_assert.bind fun _ _ => quiet_abortForwarded.bind fun next hnext => ?_
    refine quiet_assert.bind fun _ _ => quiet_assert.bind fun _ _ => quiet_assert.bind fun _ _ => ?_
    exact costless_pure
      ⟨⟨hnext.2.trans hid, by rw [hnext.1]; exact hterm, by rw [hsender]; rfl⟩, hnext.1⟩
  · rw [hsome]
    exact quiet_assert.bind fun _ _ => costless_pure ⟨⟨hid, hterm, hsome⟩, rfl⟩

/-- The follower answers the leader. -/
def Following (L : List Entry) (i j : NodeID) (T : ℕ) (x : Progress) (k : ℕ)
    (next : RawNode Follower) (sent : Multiset Envelope) : Prop :=
  ∃ k', Awaits L i j T x sent k' ∧ k' < k ∧ next.Follows i j T

theorem replies_heartbeat (hne : j ≠ i) (hid : self.id = j) (hterm : self.log.term = T)
    (hleader : self.role.leader = none ∨ self.role.leader = some i) (hsender : msg.sender = i)
    (hmsg : msg.term = T) {commitIndex seq : ℕ}
    (hhas : self.log.has L.length T = true ∨ x.matchIndex < L.length) :
    Replies i j T (self.stepHeartbeat sm msg L.length commitIndex seq)
      (Following L i j T x (4 * L.length + 5)) := by
  unfold RawNode.stepHeartbeat
  refine quiet_assert.replies fun _ _ =>
    (quiet_checkLeader hid hterm hleader hsender).replies fun next hnext => ?_
  obtain ⟨hfollows, hlog⟩ := hnext
  rw [hsender, hmsg, hlog]
  set m := if self.log.has L.length T = true then L.length else 0 with hm
  have hawaits : Awaits L i j T x {⟨j, T, i, .heartbeatResponse m seq⟩} (4 * L.length + 4) := by
    refine .compared m seq ?_
    rw [hm]
    split_ifs with h
    · exact Or.inl rfl
    · exact Or.inr ⟨rfl, hhas.resolve_left h⟩
  refine Replies.of_pays (Q := fun next => next.Follows i j T)
    (Pays.bind (hfollows.pays_send hne rfl) fun _ g hg => ?_)
    fun next hnext => ⟨_, hawaits, by omega, hnext⟩
  subst hg
  refine pays_ite (fun _ => ?_) fun _ => pays_pure ⟨rfl, hfollows⟩
  refine (quiet_commit _ _).then fun log hlog' => (quiet_maybeApply _).last fun next hnext => ?_
  refine ⟨rfl, hnext.1.trans hfollows.id, ?_, ?_⟩
  · rw [hnext.2.1]
    exact hlog'.2.trans (hlog ▸ hterm)
  · rw [hnext.2.2]
    exact hfollows.leader

theorem quiet_splice (log : Log) (entries : List Entry) : Quiet i j T (log.splice entries) fun a =>
    a.1.term = log.term := by
  have hskip : ∀ stored new : List Entry,
      Quiet i j T (Log.skipPresent stored new) fun _ => True := by
    intro stored
    induction stored with
    | nil => exact fun new => costless_pure trivial
    | cons entry stored ih =>
        intro new
        cases new with
        | nil => exact quiet_panic
        | cons first new =>
            refine quiet_assert.bind fun _ _ => costless_ite (fun _ => costless_pure trivial)
              fun _ => quiet_assert.bind fun _ _ => ih new
  have hwrite : ∀ (missing : List Entry) (last : ℕ),
      Quiet i j T (log.writeMissing missing last) fun a => a.1.term = log.term := by
    intro missing last
    unfold Log.writeMissing
    split
    · exact costless_pure rfl
    · exact quiet_assert.bind fun _ _ => Costless.bind (costless_emit rfl) fun _ _ =>
        costless_pure rfl
  unfold Log.splice
  split
  · refine quiet_assert.bind fun _ _ => quiet_assert.bind fun _ _ => quiet_assert.bind fun _ _ =>
      quiet_assert.bind fun _ _ => ?_
    dsimp only
    split
    · exact quiet_assert.bind fun _ _ => (hskip _ _).bind fun missing _ => hwrite _ _
    · exact quiet_assert.bind fun _ _ => (hskip _ _).bind fun missing _ => hwrite _ _
  · exact costless_pure rfl

/-- What the follower answers to entries after a base. -/
theorem replies_append (hne : j ≠ i) (hid : self.id = j) (hterm : self.log.term = T)
    (hleader : self.role.leader = none ∨ self.role.leader = some i) (hsender : msg.sender = i)
    {k baseIndex baseTerm : ℕ} {entries : List Entry}
    (hmatch : baseIndex = 0 ∨ self.log.has baseIndex baseTerm = true → ∃ k' < k, Awaits L i j T x
      {⟨j, T, i, .appendResponse ((entries.getLast?.map Entry.index).getD baseIndex) 0⟩} k')
    (hreject : ¬ (baseIndex = 0 ∨ self.log.has baseIndex baseTerm = true) → ∃ k' < k,
      Awaits L i j T x
        {⟨j, T, i, .appendResponse 0 (min baseIndex (self.log.getLastIndex.1 + 1))⟩} k') :
    Replies i j T (self.stepAppend msg baseIndex baseTerm entries) (Following L i j T x k) := by
  unfold RawNode.stepAppend
  refine quiet_assert.replies fun _ _ =>
    (quiet_checkLeader hid hterm hleader hsender).replies fun next hnext => ?_
  obtain ⟨hfollows, hlog⟩ := hnext
  rw [hsender, hlog]
  split_ifs with hbase
  · obtain ⟨k', hk, hawaits⟩ := hmatch hbase
    refine (quiet_splice _ _).replies fun spliced hspliced => ?_
    have hfollows' : RawNode.Follows { next with log := spliced.1 } i j T :=
      ⟨hfollows.id, hspliced.trans hterm, hfollows.leader⟩
    exact Replies.of_pays (Q := fun next => next.Follows i j T)
      (Pays.bind (hfollows'.pays_send hne rfl) fun _ g hg => pays_pure ⟨hg, hfollows'⟩)
      fun next hnext => ⟨k', hawaits, hk, hnext⟩
  · obtain ⟨k', hk, hawaits⟩ := hreject hbase
    exact Replies.of_pays (Q := fun next => next.Follows i j T)
      (Pays.bind (hfollows.pays_send hne rfl) fun _ g hg => pays_pure ⟨hg, hfollows⟩)
      fun next hnext => ⟨k', hawaits, hk, hnext⟩

end Follower

/-! ## The nodes process a message -/

section Nodes
variable {L : List Entry} {i j : NodeID} {T k : ℕ} {x : Progress} {sm : StateMachine}
  {msg : Envelope}

/-- The leader processes a response. -/
theorem RawNode.Leads.replies_step {self : RawNode Leader} (h : self.Leads L i j T x) (hne : j ≠ i)
    (hL : Indexed L) (hpos : 0 < L.length) (hlt : x.matchIndex < x.nextIndex)
    (hle : x.nextIndex ≤ L.length + 1) (hawaits : Awaits L i j T x {msg} k)
    (hto : msg.recipient = i) :
    Replies i j T (Node.step (.leader self) sm msg) fun node sent =>
      ∃ next, node = .leader next ∧ Awaiting L i j T k next sent := by
  have hterm : self.term = T := h.term
  have hmessage : msg.term = T →
      Replies i j T (self.stepLeaderMessage sm msg) (Awaiting L i j T k) →
      Replies i j T (Node.step (.leader self) sm msg) fun node sent =>
        ∃ next, node = .leader next ∧ Awaiting L i j T k next sent := by
    intro hT hreplies
    unfold Node.step RawNode.stepLeader
    refine quiet_assert.replies fun _ _ => quiet_assert.replies fun _ _ => ?_
    dsimp only
    rw [if_neg (by omega), if_neg (by omega)]
    exact hreplies.map fun next sent hnext => ⟨next, rfl, hnext⟩
  generalize hsent : ({msg} : Multiset Envelope) = sent at hawaits
  cases hawaits with
  | heartbeat commitIndex seq =>
      obtain rfl := Multiset.singleton_inj.mp hsent
      exact absurd hto hne
  | probed =>
      obtain rfl := Multiset.singleton_inj.mp hsent
      exact absurd hto hne
  | sent =>
      obtain rfl := Multiset.singleton_inj.mp hsent
      exact absurd hto hne
  | done => exact absurd hsent (Multiset.singleton_ne_zero msg)
  | compared m seq hm =>
      obtain rfl := Multiset.singleton_inj.mp hsent
      refine hmessage rfl ?_
      unfold RawNode.stepLeaderMessage
      exact h.replies_heartbeatResponse hne hL hpos hlt hle rfl hm
  | rejected r hr hlt' hle' =>
      obtain rfl := Multiset.singleton_inj.mp hsent
      refine hmessage rfl ?_
      unfold RawNode.stepLeaderMessage
      dsimp only
      rw [if_neg (by omega), if_pos (by omega)]
      exact h.replies_rejected hne hL hr hlt' hle' rfl
  | appended hlt' hle' =>
      obtain rfl := Multiset.singleton_inj.mp hsent
      refine hmessage rfl ?_
      unfold RawNode.stepLeaderMessage
      dsimp only
      rw [if_pos (by omega)]
      exact h.replies_appended hne hL hlt' hle' rfl

/-- A follower of the term that has the log of the leader up to the match index. -/
structure RawNode.Matches (node : RawNode Follower) (L : List Entry) (i j : NodeID) (T : ℕ)
    (x : Progress) : Prop where
  id : node.id = j
  term : node.log.term = T
  leader : node.role.leader = none ∨ node.role.leader = some i
  indexed : Indexed node.log.entries
  entries : L.take x.matchIndex <+: node.log.entries

/-- The follower has the entry at the match index. -/
theorem RawNode.Matches.has {self : RawNode Follower} (h : self.Matches L i j T x)
    (hpos : 0 < x.matchIndex) (hle : x.matchIndex ≤ L.length) :
    self.log.has x.matchIndex (lastTerm (L.take x.matchIndex)) = true := by
  refine (Log.has_iff h.indexed).mpr ⟨hpos, ?_⟩
  obtain ⟨m, hm⟩ : ∃ m, x.matchIndex = m + 1 := ⟨x.matchIndex - 1, by omega⟩
  have hentry : (L.take x.matchIndex)[m]? = some L[m] := by
    rw [List.getElem?_take_of_lt (by omega), List.getElem?_eq_getElem]
  rw [hm, Nat.add_sub_cancel]
  refine ⟨L[m], getElem?_of_initial h.entries hentry, ?_⟩
  rw [lastTerm_take (List.getElem?_eq_getElem (by omega))]

theorem RawNode.Matches.leaderSeen {self : RawNode Follower} (h : self.Matches L i j T x) {p : Prop}
    [Decidable p] {n : ℕ} : RawNode.Matches
      { self with role := if p then { self.role with leaderSeen := n } else self.role }
      L i j T x := by
  refine ⟨h.id, h.term, ?_, h.indexed, h.entries⟩
  dsimp only
  split_ifs
  · exact h.leader
  · exact h.leader

/-- The follower processes a message of the leader. -/
theorem RawNode.Matches.replies_step {self : RawNode Follower} (h : self.Matches L i j T x)
    (hne : j ≠ i) (hT : lastTerm L = T) (hpos : 0 < L.length) (hlt : x.matchIndex < x.nextIndex)
    (hle : x.nextIndex ≤ L.length + 1) (hawaits : Awaits L i j T x {msg} k)
    (hto : msg.recipient = j) :
    Replies i j T (Node.step (.follower self) sm msg) fun node sent =>
      ∃ next, node = .follower next ∧ Following L i j T x k next sent := by
  have hterm : self.term = T := h.term
  have hmessage : msg.term = T → Replies i j T (self.stepMessage sm msg) (Following L i j T x k) →
      Replies i j T (Node.step (.follower self) sm msg) fun node sent =>
        ∃ next, node = .follower next ∧ Following L i j T x k next sent := by
    intro hmsg hreplies
    unfold Node.step RawNode.stepFollower
    refine quiet_assert.replies fun _ _ => quiet_assert.replies fun _ _ => ?_
    dsimp only
    rw [if_neg (by omega), if_neg (by omega)]
    exact hreplies.map fun next sent hnext => ⟨next, rfl, hnext⟩
  generalize hsent : ({msg} : Multiset Envelope) = sent at hawaits
  cases hawaits with
  | compared m seq hm =>
      obtain rfl := Multiset.singleton_inj.mp hsent
      exact absurd hto.symm hne
  | rejected =>
      obtain rfl := Multiset.singleton_inj.mp hsent
      exact absurd hto.symm hne
  | appended =>
      obtain rfl := Multiset.singleton_inj.mp hsent
      exact absurd hto.symm hne
  | done => exact absurd hsent (Multiset.singleton_ne_zero msg)
  | heartbeat commitIndex seq =>
      obtain rfl := Multiset.singleton_inj.mp hsent
      refine hmessage rfl ?_
      unfold RawNode.stepMessage
      refine replies_heartbeat hne h.leaderSeen.id h.leaderSeen.term h.leaderSeen.leader rfl rfl ?_
      by_cases hmatch : x.matchIndex = L.length
      · left
        have hhas := h.has (by omega) hmatch.le
        rwa [hmatch, List.take_length, hT] at hhas
      · right
        omega
  | probed hlt' hle' =>
      obtain rfl := Multiset.singleton_inj.mp hsent
      refine hmessage rfl ?_
      unfold RawNode.stepMessage
      have hlength := h.entries.length_le
      rw [List.length_take] at hlength
      refine replies_append hne h.leaderSeen.id h.leaderSeen.term h.leaderSeen.leader rfl
        (fun _ => ?_) fun _ => ?_
      · exact ⟨_, by omega, .appended hlt' hle⟩
      · refine ⟨_, by omega, .rejected _ ?_ ?_ hle'⟩
        · dsimp only
          rw [Log.getLastIndex_eq h.indexed]
          dsimp only
          omega
        · omega
  | sent entries hlt' hle' hlast =>
      obtain rfl := Multiset.singleton_inj.mp hsent
      refine hmessage rfl ?_
      unfold RawNode.stepMessage
      refine replies_append hne h.leaderSeen.id h.leaderSeen.term h.leaderSeen.leader rfl
        (fun _ => ?_) fun hbase => ?_
      · rw [hlast]
        exact ⟨_, by omega, .appended hlt' hle'⟩
      · rw [not_or] at hbase
        exact absurd (h.has (Nat.pos_of_ne_zero hbase.1) (by omega)) hbase.2

end Nodes
end ToyDB.Raft
