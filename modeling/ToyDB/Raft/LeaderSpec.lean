import ToyDB.Raft.CandidateSpec

/-!
# The leader keeps its invariant

Replication, commitment, reads and client requests of a leader. Its assertions
hold because a follower's progress is never ahead of what the follower did.
-/
namespace ToyDB.Raft
open ToyDB.Consensus ToyDB.Effects ToyDB.Collections

/-! ## Progress -/

namespace ProgressOf
variable {h : History} {p : NodeID} {T n : ℕ} {x : Progress}

theorem match_le (hx : ProgressOf h p T n x) : x.matchIndex ≤ n := by
  have := hx.match_lt
  have := hx.next_le
  omega

theorem advance (hx : ProgressOf h p T n x) {m : ℕ} (hm : m ≤ n) (ha : m ≤ (h.core p).acked T) :
    ProgressOf h p T n (x.advance m).2 := by
  have := hx.next_le
  unfold Progress.advance
  split_ifs
  · exact hx
  · exact ⟨by simp only; omega, by simp only; omega, ha, hx.confirmed⟩

theorem advanceRead (hx : ProgressOf h p T n x) {seq : ℕ} (hc : seq ≤ h.confirmed p T) :
    ProgressOf h p T n (x.advanceRead seq).2 := by
  unfold Progress.advanceRead
  split_ifs
  · exact hx
  · exact { hx with confirmed := hc }

theorem regressNext (hx : ProgressOf h p T n x) (m : ℕ) :
    ProgressOf h p T n (x.regressNext m).2 := by
  have := hx.next_le
  unfold Progress.regressNext
  split_ifs
  · exact hx
  · exact { hx with match_lt := by simp only; omega, next_le := by simp only; omega }

end ProgressOf

section Leader
variable {cfg : Config} {i : NodeID} {X : Prop} {self : RawNode Leader} {g : Point cfg i}

/-- Another role value of the same leader. -/
theorem LeaderAt.with_role (hl : LeaderAt self g) (role : Leader)
    (hr : LeaderRole cfg g.hist i self.log.term self.log.entries role) :
    LeaderAt { self with role := role } g :=
  ⟨⟨hl.toMember.with_role rfl rfl rfl, hl.disk⟩, hr, hl.commit⟩

/-- A leader that only marked an event. -/
theorem LeaderAt.marked (hl : LeaderAt self g) {g' : Point cfg i} {e : Event}
    (hg : History.Grows g.hist g'.hist) (hh : g'.hist = g.hist.mark i e)
    (hd : g'.disk = g.disk) : LeaderAt self g' :=
  ⟨hl.toRunsAt.of_disk hd, hl.role.grows hg List.prefix_rfl (by rw [hh]; rfl),
    by rw [hh]; exact hl.commit⟩

theorem LeaderAt.full_eq (hl : LeaderAt self g) :
    (g.hist.core i).full self.log.term = self.log.entries :=
  hl.toRunsAt.full_eq hl.role.led

theorem LeaderAt.setProgress (hl : LeaderAt self g) {p : NodeID} {x : Progress}
    (hp : p ∈ self.peers) (hx : ProgressOf g.hist p self.log.term self.log.entries.length x) :
    LeaderAt (self.setProgress p x) g := by
  refine hl.with_role _ { hl.role with keys := ?_, progress := fun {p' x'} hx' => ?_ }
  · refine (OrderedMap.keys_insert_of_mem ?_).trans hl.role.keys
    rw [hl.role.keys, ← hl.peers]
    exact hp
  · rw [OrderedMap.get_insert] at hx'
    split_ifs at hx' with heq
    · obtain rfl := Option.some.inj hx'
      exact heq ▸ hx
    · exact hl.role.progress hx'

/-- What is sent to a follower is not beyond the log. -/
theorem ProgressOf.sent {h : History} {p : NodeID} {T lastIndex : ℕ} {x : Progress}
    (hx : ProgressOf h p T lastIndex x) {entries : List Entry}
    (hlast : ∀ e, entries.getLast? = some e →
      x.matchIndex < e.index + 1 ∧ e.index ≤ lastIndex) :
    ProgressOf h p T lastIndex
      (match entries.getLast? with
        | some last => { x with nextIndex := last.index + 1 }
        | none => x) := by
  cases he : entries.getLast? with
  | none => exact hx
  | some last =>
      obtain ⟨hlt, hle⟩ := hlast last he
      exact { hx with match_lt := hlt, next_le := Nat.succ_le_succ hle }

theorem runs_progress (hl : LeaderAt self g) {p : NodeID} (hp : p ∈ self.peers) :
    Runs cfg i X (self.progress p) (fun x g' => g' = g ∧
      ProgressOf g.hist p self.log.term self.log.entries.length x) g := by
  obtain ⟨x, hx⟩ := Option.isSome_iff_exists.mp
    (OrderedMap.mem_keys.mp (by rw [hl.role.keys, ← hl.peers]; exact hp))
  unfold RawNode.progress
  rw [hx]
  exact runs_pure ⟨rfl, hl.role.progress hx⟩

/-- What replication to followers leaves of a leader. -/
def Replicates (self : RawNode Leader) (g : Point cfg i) (self' : RawNode Leader)
    (g' : Point cfg i) : Prop :=
  g' = g ∧ LeaderAt self' g ∧ self'.log = self.log ∧ self'.peers = self.peers ∧
    self'.role.writes = self.role.writes

theorem runs_appendBase (hr : RunsAt self g) {next : ℕ} (hpos : 0 < next)
    (hle : next ≤ self.log.entries.length + 1) :
    Runs cfg i X (self.appendBase next) (fun b g' => g' = g ∧
      b = (next - 1, lastTerm (self.log.entries.take (next - 1)))) g := by
  unfold RawNode.appendBase
  split_ifs with h1
  · exact runs_pure ⟨rfl, by simp [h1, lastTerm]⟩
  · obtain ⟨k, hk⟩ : ∃ k, next - 1 = k + 1 := ⟨next - 2, by omega⟩
    obtain ⟨e, he⟩ : ∃ e, self.log.entries[k]? = some e :=
      ⟨_, List.getElem?_eq_getElem (by omega)⟩
    have hget : self.log.get (next - 1) = some e := by rw [hk]; exact he
    rw [hget]
    exact runs_pure ⟨rfl, by rw [hk, lastTerm_take he, hr.indexed k e he]⟩

theorem runs_maybeSendAppend (hl : LeaderAt self g) {p : NodeID} (hp : p ∈ self.peers)
    (probe : Bool) :
    Runs cfg i X (self.maybeSendAppend p probe) (Replicates self g) g := by
  unfold RawNode.maybeSendAppend
  rw [Log.getLastIndex_eq hl.indexed]
  refine runs_value (runs_progress hl hp) fun x hx => ?_
  have hmatch := hx.match_lt
  have hnext := hx.next_le
  refine runs_assert_bind (by omega) (runs_assert_bind hmatch (runs_assert_bind hx.match_le
    (runs_assert_bind hnext ?_)))
  have hdone : Replicates self g self g := ⟨rfl, hl, rfl, rfl, rfl⟩
  simp only
  by_cases hcaught : x.matchIndex = self.log.entries.length
  · rw [if_pos hcaught]
    exact runs_pure hdone
  rw [if_neg hcaught]
  set probe' := probe && decide (x.matchIndex + 1 < x.nextIndex) with hprobe
  by_cases hidle : self.log.entries.length < x.nextIndex ∧ probe' = false
  · rw [if_pos hidle]
    exact runs_pure hdone
  rw [if_neg hidle]
  refine runs_value (runs_appendBase hl.toRunsAt (by omega) hnext) ?_
  rintro _ rfl
  set entries := if probe' = true then [] else
    (self.log.scan x.nextIndex self.log.entries.length).take self.opts.maxAppendEntries
    with hentries
  set base := self.log.entries.take (x.nextIndex - 1) with hbase
  have hlen : base.length = x.nextIndex - 1 := by
    rw [hbase, List.length_take]
    omega
  -- the entries continue the base within the leader's log
  have hslice : base ++ entries <+: self.log.entries := by
    rw [hentries]
    split_ifs
    · rw [List.append_nil]
      exact List.take_prefix _ _
    · rw [Log.scan_eq hl.indexed _ (by omega), List.take_length]
      conv_rhs => rw [← List.take_append_drop (x.nextIndex - 1) self.log.entries]
      exact (List.prefix_append_right_inj base).mpr (List.take_prefix _ _)
  have hsend : Sendable cfg g.hist i self.log.term (x.nextIndex - 1) (lastTerm base) entries := by
    refine ⟨hl.role.led, ⟨base, hlen, rfl, by rw [hl.full_eq]; exact hslice⟩, fun h0 hnil => ?_⟩
    have hp0 : probe' = false := by
      rw [hprobe, decide_eq_false (by omega), Bool.and_false]
    rw [hentries, hp0, if_neg (by simp), Log.scan_eq hl.indexed _ (by omega),
      List.take_length, List.take_eq_nil_iff] at hnil
    rcases hnil with hnil | hnil
    · rw [← hl.opts, hnil]
    · rw [List.drop_eq_nil_iff] at hnil
      exact absurd ⟨by omega, hp0⟩ hidle
  have hsent := hx.sent fun last (hlast : entries.getLast? = some last) => by
    have hidx := (hl.indexed.of_initial hslice).index_getLast (e := last)
      (by rw [List.getLast?_append, hlast]; rfl)
    have hpos : 0 < entries.length := List.length_pos_of_mem (List.mem_of_getLast? hlast)
    have hle := hslice.length_le
    rw [List.length_append] at hidx hle
    omega
  have hself := hl.setProgress hp hsent
  have hpm := hl.mem_peers.mp hp
  exact runs_seq (runs_send hself.toMember hpm.1 hsend fun h => absurd h hpm.2)
    fun _ => runs_pure ⟨rfl, hself, rfl, rfl, rfl⟩

/-- Appending as leader: the log gains an entry of the term, nothing else changes. -/
theorem runs_propose (hl : LeaderAt self g) (command : Option Bytes)
    (hacc : Accounted g.hist [⟨self.log.entries.length + 1, self.log.term, command⟩]) :
    Runs cfg i X (self.propose command) (fun a g' =>
      LeaderAt a.1 g' ∧ a.2 = self.log.entries.length + 1 ∧
      a.1.log.term = self.log.term ∧
      a.1.log.entries = self.log.entries ++ [⟨a.2, self.log.term, command⟩]) g := by
  unfold RawNode.propose
  refine Runs.bind (runs_append hl.toRunsAt hl.role.led command hacc) ?_
  rintro _ g₁ hg₁ ⟨rfl, hh, hd⟩
  set node : RawNode Leader := { self with log := { self.log with
    entries := self.log.entries ++ [⟨self.log.entries.length + 1, self.log.term, command⟩] } }
    with hnode
  have hl₁ : LeaderAt node g₁ := by
    refine ⟨⟨hl.toMember.with_role rfl rfl rfl, hd⟩, hl.role.grows hg₁ (List.prefix_append _ _)
      (by rw [hh]; simp), ?_⟩
    rw [hh]
    simpa [appending] using hl.commit
  refine Runs.bind (Q := Replicates node g₁) (wp_mono (wp_foldlM
    (I := fun rest node' g' => (∀ p ∈ rest, p ∈ node.peers) ∧ Replicates node g₁ node' g') ?_
    ⟨fun p hp => hp, rfl, hl₁, rfl, rfl, rfl⟩) (fun _ _ h => h.2) (fun _ _ h => h)) ?_
  · rintro p rest node' g' ⟨hmem, rfl, hl', hlog, hpeers, hw⟩
    have hp : p ∈ node'.peers := hpeers ▸ hmem p List.mem_cons_self
    have hrest : ∀ q ∈ rest, q ∈ node.peers := fun q hq => hmem q (List.mem_cons_of_mem p hq)
    refine runs_value (runs_progress hl' hp) fun x _ => ?_
    split_ifs
    · refine wp_mono (runs_maybeSendAppend hl' hp false) ?_ (fun _ _ h => h)
      rintro node'' g'' ⟨rfl, hl'', hlog', hpeers', hw'⟩
      exact ⟨hrest, rfl, hl'', hlog'.trans hlog, hpeers'.trans hpeers, hw'.trans hw⟩
    · exact runs_pure ⟨hrest, rfl, hl', hlog, hpeers, hw⟩
  · rintro node' g' _ ⟨rfl, hl', hlog, _, _⟩
    exact runs_pure ⟨hl', rfl, by rw [hlog], by rw [hlog]⟩

theorem runs_heartbeat (hl : LeaderAt self g) (hlast : lastTerm self.log.entries = self.log.term) :
    Runs cfg i X self.heartbeat (fun self' g' => g' = g ∧ LeaderAt self' g ∧
      self'.log = self.log) g := by
  unfold RawNode.heartbeat
  rw [Log.getLastIndex_eq hl.indexed]
  refine runs_assert_bind hlast ?_
  have hl' := hl.with_role { self.role with sinceHeartbeat := 0 } { hl.role with }
  have hs := hl.stored
  refine runs_seq (runs_broadcast hl'.toMember fun p _ => ?_) fun _ => runs_pure ⟨rfl, hl', rfl⟩
  exact ⟨hl.role.led, hs.commit_le, ⟨self.log.entries, by rw [hl.full_eq], rfl, hlast,
    hs.committed⟩, hl.role.seq.le⟩

theorem runs_tickLeader {startTerm : ℕ} (hl : LeaderAt self g)
    (hlast : lastTerm self.log.entries = self.log.term) :
    Runs cfg i X self.tickLeader (fun node g' => NodeAt startTerm node g') g := by
  have hl' := hl.with_role
    { self.role with sinceHeartbeat := self.role.sinceHeartbeat + 1 } { hl.role with }
  unfold RawNode.tickLeader
  simp only
  split_ifs
  · refine Runs.bind (runs_heartbeat hl' hlast) ?_
    rintro self₁ g₁ _ ⟨rfl, hl₁, hlog⟩
    exact runs_pure ⟨hl₁, by rw [hlog]; exact hlast⟩
  · exact runs_pure ⟨hl', hlast⟩

end Leader
end ToyDB.Raft
