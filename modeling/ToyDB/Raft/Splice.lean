import ToyDB.Raft.Steps

/-!
# Splicing entries of the leader's log

A follower splices a segment of its leader's log. Where both logs have an entry
of the same term they agree up to it, so the splice keeps the log if it already
contains the segment and otherwise leaves the leader's log up to the end of the
segment. Committed entries agree with the leader's and are never replaced.
-/
namespace ToyDB.Raft
open ToyDB.Consensus ToyDB.Effects

section Splice
variable {cfg : Config} {i : NodeID} {X : Prop} {R : Type} {self : RawNode R} {g : Point cfg i}

/-- Skipping stops at the first entry that differs. -/
theorem runs_skipPresent {stored entries : List Entry} (hlen : stored.length ≤ entries.length)
    (hagree : ∀ (j : ℕ) (a b : Entry), stored[j]? = some a → entries[j]? = some b →
      a.index = b.index ∧ (a.term = b.term → a = b)) :
    Runs cfg i X (Log.skipPresent stored entries) (fun rest g' => g' = g ∧
      ∃ k, rest = entries.drop k ∧ k ≤ stored.length ∧ stored.take k = entries.take k ∧
        ∀ a b : Entry, stored[k]? = some a → entries[k]? = some b → a.term ≠ b.term) g := by
  induction stored generalizing entries with
  | nil => exact runs_pure ⟨rfl, 0, by simp, by simp, by simp, by simp⟩
  | cons x stored ih =>
      cases entries with
      | nil => simp at hlen
      | cons y entries =>
          obtain ⟨hidx, hsame⟩ := hagree 0 x y rfl rfl
          unfold Log.skipPresent
          refine runs_assert_bind hidx ?_
          split_ifs with hterm
          · exact runs_pure ⟨rfl, 0, by simp, by simp, by simp, by simpa using hterm⟩
          · obtain rfl := hsame (not_not.mp hterm)
            refine runs_assert_bind rfl (wp_mono (ih (by simpa using hlen)
              fun j a b ha hb => hagree (j + 1) a b (by simpa using ha) (by simpa using hb)) ?_
              (fun _ _ h => h))
            rintro rest g' ⟨rfl, k, rfl, hk, htake, hne⟩
            exact ⟨rfl, k + 1, by simp, by simpa using hk, by simp [htake],
              fun a b ha hb => hne a b (by simpa using ha) (by simpa using hb)⟩

/-- A segment of the log of the leader `n` that starts where the logs agree. -/
structure Segment (node : RawNode R) (g : Point cfg i) (n : NodeID) (base entries : List Entry) :
    Prop where
  led : Led g.hist.core n node.log.term
  start : base <+: node.log.entries
  slice : base ++ entries <+: (g.hist.core n).full node.log.term

namespace Segment
variable {n : NodeID} {base entries : List Entry}

theorem full_indexed (h : Segment self g n base entries) : Indexed (base ++ entries) :=
  (g.inv.full_indexed n _ h.led).of_initial h.slice

theorem full_accounted (h : Segment self g n base entries) :
    Accounted g.hist (base ++ entries) :=
  (g.inv.full_accounted n _ h.led).initial h.slice

theorem grounded (h : Segment self g n base entries) :
    Grounded g.hist.core (base ++ entries) :=
  (g.inv.core.full_grounded h.led).initial h.slice

theorem index (h : Segment self g n base entries) {j : ℕ} {e : Entry}
    (he : entries[j]? = some e) : e.index = base.length + j + 1 :=
  h.full_indexed.index_append he

theorem at_append {j : ℕ} {e : Entry} (he : entries[j]? = some e) :
    (base ++ entries)[base.length + j]? = some e := by
  rw [List.getElem?_append_right (by omega), Nat.add_sub_cancel_left, he]

theorem term_le (h : Segment self g n base entries) {j : ℕ} {e : Entry}
    (he : entries[j]? = some e) : 0 < e.term ∧ e.term ≤ self.log.term := by
  obtain ⟨m, hm, _⟩ := h.grounded _ e (at_append he)
  exact ⟨(g.inv.core.led_le hm).1, g.inv.core.full_le h.led e
    (List.mem_of_getElem? (getElem?_of_initial h.slice (at_append he)))⟩

/-- An entry of the same index and term in the log is the same entry. -/
theorem same (h : Segment self g n base entries) (hr : RunsAt self g) {j : ℕ} {a b : Entry}
    (ha : self.log.entries[base.length + j]? = some a) (hb : entries[j]? = some b)
    (ht : a.term = b.term) : a = b := by
  have hm := g.inv.core.matching hr.grounded h.grounded ha (at_append hb) ht
  have ha' := congrArg (fun l => l[base.length + j]?) hm
  simp only [List.getElem?_take_of_lt (Nat.lt_succ_self _), ha, at_append hb] at ha'
  exact Option.some.inj ha'

/-- Committed and applied entries are those of the leader. -/
theorem chosen_initial (h : Segment self g n base entries) {p : List Entry}
    (hp : Chosen g.hist.core self.log.term p) : p <+: (g.hist.core n).full self.log.term :=
  g.inv.core.chosen_initial hp h.led le_rfl

end Segment

variable {n : NodeID} {base entries : List Entry}

/-- Splicing a segment leaves a log that contains it, and is otherwise the log
before or ends with the segment. -/
theorem runs_splice (hr : RunsAt self g) (h : Segment self g n base entries) :
    Runs cfg i X (self.log.splice entries) (fun a g' => ∃ l,
      a.1 = { self.log with entries := l } ∧ base ++ entries <+: l ∧
      g'.hist = g.hist.withCore i { g.hist.core i with log := l } ∧
      g'.disk = ⟨a.1, self.state⟩) g := by
  have hs := hr.stored
  have hsame : g.hist = g.hist.withCore i { g.hist.core i with log := self.log.entries } := by
    simp [History.withCore, ← hs.entries]
  rcases List.eq_nil_or_concat entries with rfl | ⟨front, last, hlast⟩
  · exact runs_pure ⟨self.log.entries, rfl, by simpa using h.start, hsame, hr.disk⟩
  have hlen : 0 < entries.length := by simp [hlast]
  obtain ⟨first, hfirst⟩ : ∃ e, entries[0]? = some e :=
    ⟨entries[0], List.getElem?_eq_getElem hlen⟩
  have hl : entries[entries.length - 1]? = some last := by simp [hlast]
  have hfi := h.index hfirst
  have hli := h.index hl
  have hget : self.log.get (first.index - 1) = none → first.index = 1 := by
    intro hnone
    by_contra hne
    obtain ⟨b, hb⟩ : ∃ b, first.index - 1 = b + 1 := ⟨first.index - 2, by omega⟩
    rw [hb] at hnone
    have := List.getElem?_eq_none_iff.mp hnone
    have := h.start.length_le
    omega
  have hbase : ∀ b, self.log.get (first.index - 1) = some b → b.term ≤ first.term := by
    intro b hb
    obtain ⟨k, hk⟩ : ∃ k, base.length = k + 1 := by
      cases hbl : base.length with
      | zero => rw [hfi, hbl] at hb; simp [Log.get] at hb
      | succ k => exact ⟨k, rfl⟩
    rw [hfi, hk] at hb
    have hb' : (base ++ entries)[k]? = some b := by
      rw [List.getElem?_append_left (by omega)]
      obtain ⟨t, ht⟩ := h.start
      change self.log.entries[k]? = some b at hb
      rwa [← ht, List.getElem?_append_left (by omega)] at hb
    exact g.inv.core.terms_sorted h.grounded hb' (Segment.at_append hfirst) (by omega)
  -- the scan is the segment of the log at the positions of the entries
  set stored := self.log.scan first.index last.index with hstored
  have hscan : stored = (self.log.entries.take (base.length + entries.length)).drop base.length := by
    rw [hstored, Log.scan_eq hr.indexed _ (by omega)]
    congr 1
    · omega
    · congr 1
      omega
  have hstore : ∀ {j a}, stored[j]? = some a → self.log.entries[base.length + j]? = some a := by
    intro j a ha
    rw [hscan, List.getElem?_drop] at ha
    exact getElem?_of_initial (List.take_prefix _ _) ha
  have hsplit : self.log.entries.take (base.length + entries.length) = base ++ stored := by
    obtain ⟨t, ht⟩ := h.start
    rw [hscan, ← ht, List.take_length_add_append, List.drop_left]
  have hsl : stored.length = min (base.length + entries.length) self.log.entries.length -
      base.length := by
    rw [hscan, List.length_drop, List.length_take]
  unfold Log.splice
  simp only [List.head?_eq_getElem?, List.getLast?_eq_getElem?, hfirst, hl]
  refine runs_assert_bind ⟨by omega, (h.term_le hfirst).1⟩ (runs_assert_bind ?_
    (runs_assert_bind ?_ (runs_assert_bind (h.term_le hl).2 ?_)))
  · refine Log.windows_iff.mpr fun j a b ha hb => ?_
    rw [h.index ha, h.index hb]
    omega
  · refine Log.windows_iff.mpr fun j a b ha hb => ?_
    exact g.inv.core.terms_sorted h.grounded (Segment.at_append ha) (Segment.at_append hb)
      (by omega)
  suffices hrest : Runs cfg i X (Log.skipPresent stored entries >>= fun missing =>
      self.log.writeMissing missing last.index) _ g by
    cases hb : self.log.get (first.index - 1) with
    | none => exact runs_assert_bind (hget hb) hrest
    | some b => exact runs_assert_bind (hbase b hb) hrest
  refine Runs.bind (runs_skipPresent (by rw [hsl]; omega) fun j a b ha hb => ?_)
    fun missing g' _ hg' => ?_
  · refine ⟨?_, h.same hr (hstore ha) hb⟩
    rw [h.index hb, hr.indexed _ a (hstore ha)]
  obtain ⟨heq, k, rfl, hk, htake, hne⟩ := hg'
  subst g'
  have hinitial : base ++ entries.take k <+: self.log.entries := by
    rw [← htake]
    refine List.IsPrefix.trans ?_ (List.take_prefix (base.length + entries.length) _)
    rw [hsplit]
    exact (List.prefix_append_right_inj base).mpr (List.take_prefix _ _)
  unfold Log.writeMissing
  rw [List.head?_eq_getElem?]
  cases hhead : (entries.drop k)[0]? with
  | none =>
      have hk' : entries.length ≤ k := by
        simpa using hhead
      rw [List.take_of_length_le hk'] at hinitial
      exact runs_pure ⟨self.log.entries, rfl, hinitial, hsame, hr.disk⟩
  | some e =>
      have he : entries[k]? = some e := by simpa using hhead
      have hei := h.index he
      have hlast' : last.index = base.length + entries.length := by omega
      -- the first missing entry differs from what the log has there, if anything
      have hdiff : ∀ a, self.log.entries[base.length + k]? = some a → a.term ≠ e.term := by
        intro a ha
        refine hne a e ?_ he
        have := (List.getElem?_eq_some_iff.mp he).1
        rw [hscan, List.getElem?_drop, List.getElem?_take_of_lt (by omega), ha]
      have hkeep : ∀ {p : List Entry}, p <+: self.log.entries →
          p <+: (g.hist.core n).full self.log.term → p <+: base ++ entries := by
        intro p hp hf
        rcases List.prefix_or_prefix_of_prefix hf h.slice with hpe | hep
        · exact hpe
        · have := getElem?_of_initial (hep.trans hp) (Segment.at_append he)
          exact absurd rfl (hdiff e this)
      have hcommit : self.log.commitIndex < e.index := by
        by_contra hcon
        have hle := hs.commit_le
        obtain ⟨a, ha⟩ : ∃ a, self.log.entries[base.length + k]? = some a :=
          ⟨_, List.getElem?_eq_getElem (by omega)⟩
        have hp := h.chosen_initial hs.committed
        have ha' := getElem?_of_initial hp (j := base.length + k) (e := a)
          (by rw [List.getElem?_take_of_lt (by omega), ha])
        rw [getElem?_of_initial h.slice (Segment.at_append he)] at ha'
        exact hdiff a ha (congrArg Entry.term (Option.some.inj ha').symm)
      have hnew : self.log.entries.take (e.index - 1) ++ entries.drop k = base ++ entries := by
        have hlen' : (base ++ entries.take k).length = e.index - 1 := by
          have := (List.getElem?_eq_some_iff.mp he).1
          simp only [List.length_append, List.length_take]
          omega
        rw [← hlen', ← List.prefix_iff_eq_take.mp hinitial, List.append_assoc,
          List.take_append_drop]
      have hw := runs_logged_entries (X := X) hr (x := { g.hist.core i with log := base ++ entries })
        (.accept n _ (by rw [hs.term]; exact h.led) (by rw [hs.term]; exact h.slice)
          (by rw [hs.term, hs.entries]; exact fun p hp hf => hkeep hp hf))
        h.full_indexed h.full_accounted rfl rfl rfl rfl (hkeep (List.take_prefix _ _) (h.chosen_initial hs.committed))
        (hkeep hs.state_initial (h.chosen_initial hs.applied))
      refine runs_assert_bind hcommit ?_
      rw [hnew]
      exact Runs.bind hw fun _ g' _ hg' => runs_pure
        ⟨base ++ entries, rfl, List.prefix_rfl, hg'.1, hg'.2⟩

end Splice
end ToyDB.Raft
