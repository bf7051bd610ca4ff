import ToyDB.Raft.LogRuns

/-!
# What a splice leaves

An accepted splice keeps the log if it has all entries already. Otherwise it keeps what is
before the first entry that is missing or has a different term, and the log ends with the
entries from there on. The statements are about the stored log: any engine on which the
documented invariants hold stands for a log.
-/
namespace ToyDB.Raft
open ToyDB.Collections ToyDB.Effects ToyDB.Storage

def Value.asEntry : Value → Option Entry
  | .entry e => some e
  | _ => none

namespace OpenLog

/-- The stored entries, in the order of their indexes. -/
def entries (s : OpenLog) : List Entry :=
  (s.engine.scan Key.isEntry).filterMap fun p => p.2.asEntry

/-- The entry that is stored at an index has the term. -/
def Stores (s : OpenLog) (index term : ℕ) : Prop :=
  ∃ e, s.engine.get (.entry index) = some (.entry e) ∧ e.term = term

/-- The log has an entry of the same index and term already. -/
def Present (s : OpenLog) (e : Entry) : Prop := s.Stores e.index e.term

/-! ## The log that the engine stands for -/

/-- The engine has what the opened log keeps of the term and the vote. -/
def KeepsTerm (m : OrderedMap Key Value) (term : ℕ) (vote : Option NodeID) : Prop :=
  m.get .termVote = some (.termVote term vote) ∨ m.get .termVote = none ∧ term = 0 ∧ vote = none

/-- The engine has what the opened log keeps of its commit index. -/
def KeepsCommit (m : OrderedMap Key Value) (index term : ℕ) : Prop :=
  m.get .commitIndex = some (.commitIndex index term) ∨
    m.get .commitIndex = none ∧ index = 0 ∧ term = 0

section
variable {m : OrderedMap Key Value}

theorem triple_decodeTermVote : Triple (· = m) (decodeTermVote (m.get .termVote))
    (fun p s => s = m ∧ KeepsTerm m p.1 p.2) fun _ _ => True := by
  cases hget : m.get .termVote with
  | none => exact triple_pure fun s hs => ⟨hs, .inr ⟨hget, rfl, rfl⟩⟩
  | some v =>
      cases v with
      | termVote term vote => exact triple_pure fun s hs => ⟨hs, .inl hget⟩
      | entry e => exact triple_fail fun _ _ => trivial
      | commitIndex index term => exact triple_fail fun _ _ => trivial

theorem triple_decodeCommitIndex : Triple (· = m) (decodeCommitIndex (m.get .commitIndex))
    (fun p s => s = m ∧ KeepsCommit m p.1 p.2) fun _ _ => True := by
  cases hget : m.get .commitIndex with
  | none => exact triple_pure fun s hs => ⟨hs, .inr ⟨hget, rfl, rfl⟩⟩
  | some v =>
      cases v with
      | commitIndex index term => exact triple_pure fun s hs => ⟨hs, .inl hget⟩
      | entry e => exact triple_fail fun _ _ => trivial
      | termVote term vote => exact triple_fail fun _ _ => trivial

theorem triple_loadLast (last : Option (Key × Value)) :
    Triple (· = m) (StoredLog.loadLast last) (fun _ s => s = m) fun _ _ => True := by
  cases last with
  | none => exact triple_pure fun s hs => hs
  | some p =>
      obtain ⟨k, v⟩ := p
      cases v with
      | entry e => exact triple_pure fun s hs => hs
      | termVote term vote => exact triple_fail fun _ _ => trivial
      | commitIndex index term => exact triple_fail fun _ _ => trivial

theorem triple_get (k : Key) : Triple (· = m) (Store.get k : LogAction (Option Value))
    (fun o s => s = m ∧ o = m.get k) fun _ _ => True :=
  triple_draw fun _ hs => ⟨hs, congrArg (fun m => m.get k) hs⟩

/-- What opening the engine loads is what the engine has. -/
theorem triple_new : Triple (· = m) StoredLog.new (fun log _ =>
    KeepsTerm m log.term log.vote ∧ KeepsCommit m log.commitIndex log.commitTerm)
    fun _ _ => True := by
  unfold StoredLog.new
  refine Triple.bind (triple_get .termVote) fun termVote => triple_assume fun hget => ?_
  subst hget
  refine Triple.bind triple_decodeTermVote fun termVote => triple_assume fun hterm => ?_
  refine Triple.bind (Q := fun _ s => s = m) (triple_draw fun _ hs => hs) fun entries => ?_
  refine Triple.bind (triple_loadLast _) fun last => ?_
  refine Triple.bind (triple_get .commitIndex) fun commit => triple_assume fun hget => ?_
  subst hget
  refine Triple.bind triple_decodeCommitIndex fun commit => triple_assume fun hcommit => ?_
  exact triple_pure fun _ _ => ⟨hterm, hcommit⟩

end

section
variable {s s' : OpenLog} {l l' : Log}

/-- An engine on which the documented invariants hold stands for a log. -/
theorem Sound.holds (h : s.Sound) : ∃ l, s.Holds l := by
  have hstored : ∀ i : Fin s.log.lastIndex, ∃ e, s.engine.get (.entry (i + 1)) = some (.entry e) ∧
      e.index = i + 1 ∧ e.term ≤ s.log.term := by
    intro i
    obtain ⟨v, hv⟩ := (h.contiguous (i + 1)).mpr ⟨i.val.succ_pos, i.isLt⟩
    obtain ⟨e, rfl, he⟩ := h.stored _ v hv
    exact ⟨e, hv, he⟩
  choose entry hentry hindex hterm using hstored
  let l : Log := ⟨List.ofFn entry, s.log.term, s.log.vote, s.log.commitIndex, s.log.commitTerm⟩
  have hget : ∀ {i e}, (List.ofFn entry)[i]? = some e →
      ∃ hi : i < s.log.lastIndex, e = entry ⟨i, hi⟩ := by
    intro i e he
    obtain ⟨hi, he⟩ := List.getElem?_eq_some_iff.mp he
    rw [List.length_ofFn] at hi
    exact ⟨hi, by rw [← he, List.getElem_ofFn]⟩
  obtain ⟨hkterm, hkcommit⟩ : KeepsTerm s.engine s.log.term s.log.vote ∧
      KeepsCommit s.engine s.log.commitIndex s.log.commitTerm := by
    have hnew := triple_new (m := s.engine) s.engine rfl
    rw [h.reload] at hnew
    exact hnew
  have hrep : Represents s.engine l := by
    refine ⟨hkterm, hkcommit, fun i => ?_, fun i e he => ?_⟩
    · cases i with
      | zero =>
          refine Option.eq_none_iff_forall_ne_some.mpr fun v hv => ?_
          exact absurd ((h.contiguous 0).mp ⟨v, hv⟩).1 (Nat.lt_irrefl 0)
      | succ i =>
          change _ = ((List.ofFn entry)[i]?).map Value.entry
          by_cases hi : i < s.log.lastIndex
          · rw [List.getElem?_ofFn, dif_pos hi]
            exact hentry ⟨i, hi⟩
          · rw [List.getElem?_ofFn, dif_neg hi]
            refine Option.eq_none_iff_forall_ne_some.mpr fun v hv => ?_
            exact hi ((h.contiguous (i + 1)).mp ⟨v, hv⟩).2
    · obtain ⟨hi, rfl⟩ := hget he
      exact hindex ⟨i, hi⟩
  have hlog : s.log = .of l := by
    have hnew := hrep.yields_new.2.1
    rw [h.reload] at hnew
    exact Except.ok.inj hnew
  refine ⟨l, hrep, hlog, ⟨?_, fun e he => ?_, ?_⟩, hrep.indexed, ?_⟩
  · refine List.isChain_iff_getElem.mpr fun i hi => ?_
    have hi' : i + 1 < s.log.lastIndex := by rwa [List.length_ofFn] at hi
    rw [List.getElem_ofFn, List.getElem_ofFn]
    exact h.sorted _ _ _ _ (Nat.le_succ _) (hentry ⟨i, by omega⟩) (hentry ⟨i + 1, hi'⟩)
  · obtain ⟨i, hi⟩ := List.mem_iff_getElem?.mp he
    obtain ⟨hlt, rfl⟩ := hget hi
    exact hterm ⟨i, hlt⟩
  · change s.log.commitIndex ≤ (List.ofFn entry).length
    rw [List.length_ofFn]
    exact h.commit_le
  · change s.log.commitTerm = Consensus.lastTerm ((List.ofFn entry).take s.log.commitIndex)
    obtain ⟨hzero, hterm0⟩ | ⟨e, he, hte⟩ := h.commitTerm
    · rw [hzero, hterm0]
      rfl
    · obtain ⟨i, hi⟩ : ∃ i, s.log.commitIndex = i + 1 := by
        have hpos := ((h.contiguous s.log.commitIndex).mp ⟨_, he⟩).1
        exact ⟨s.log.commitIndex - 1, by omega⟩
      have hlt : i < s.log.lastIndex := by
        have hle := h.commit_le
        omega
      rw [hi] at he ⊢
      have heq : e = entry ⟨i, hlt⟩ :=
        Value.entry.inj (Option.some.inj (he.symm.trans (hentry ⟨i, hlt⟩)))
      rw [lastTerm_take (e := entry ⟨i, hlt⟩) (by rw [List.getElem?_ofFn, dif_pos hlt]), ← hte, heq]

/-! ## Splicing -/

theorem Holds.entries_eq (h : s.Holds l) : s.entries = l.entries := by
  have hall : l.entries.filter (fun e => (Key.entry e.index).isEntry) = l.entries :=
    List.filter_eq_self.mpr fun _ _ => rfl
  rw [entries, h.engine.scan_eq fun _ hk => hk, hall, List.filterMap_map]
  exact List.filterMap_some

theorem Holds.stores_iff (h : s.Holds l) {i t : ℕ} :
    s.Stores i t ↔ ∃ e, l.get i = some e ∧ e.term = t := by
  constructor
  · rintro ⟨e, hget, ht⟩
    obtain ⟨e', he', heq⟩ := h.get_iff.mp hget
    exact ⟨e, Value.entry.inj heq ▸ he', ht⟩
  · rintro ⟨e, he, ht⟩
    exact ⟨e, h.get_iff.mpr ⟨e, he, rfl⟩, ht⟩

theorem Holds.present_iff (h : s.Holds l) {e : Entry} : s.Present e ↔ l.holds e = true := by
  rw [Present, h.stores_iff, Log.holds, Option.any_eq_true]
  simp only [decide_eq_true_eq]

/-- The last index and term that the log has in memory are those of the last entry. -/
theorem Holds.has_iff (h : s.Holds l) (i t : ℕ) :
    ∃ found, (s.log.has i t s.engine).result = .ok found ∧ (found = true ↔ s.Stores i t) := by
  have hhas := (h.engine.yields_has i t).2.1
  rw [← h.log] at hhas
  refine ⟨_, hhas, ?_⟩
  rw [Log.has_iff h.sound.indexed, h.stores_iff]
  cases i with
  | zero =>
      simp only [Nat.lt_irrefl, false_and, false_iff]
      rintro ⟨e, he, -⟩
      cases he
  | succ i =>
      rw [Nat.add_sub_cancel]
      exact and_iff_right i.succ_pos

/-- The log after an accepted splice: nothing is written, or what is new replaces the rest. -/
theorem Holds.splice_cases (h : s.Holds l) {entries : List Entry}
    (hs : s.step (.splice entries) = some s') :
    l.fresh entries = [] ∧ s' = s ∨ l.fresh entries ≠ [] ∧
      ∃ kept, Replaces l kept (l.fresh entries) ∧ s'.Holds (l.spliced kept (l.fresh entries)) := by
  unfold OpenLog.step at hs
  split at hs
  case h_2 => cases hs
  case h_1 log engine events heq =>
      cases hs
      have hresult : (s.log.call (.splice entries) s.engine).result = .ok log := by rw [heq]
      have hengine : (s.log.call (.splice entries) s.engine).state = engine := by rw [heq]
      rw [h.log] at hresult hengine
      obtain ⟨index, hr, hmap⟩ := fst_returned hresult
      obtain ⟨a, -, ⟨hab, hrep, hops, hnew⟩, hstate⟩ :=
        Refines.returned (refines_splice h.engine entries) (Log.returns_splice entries) hr
      obtain ⟨l', hrep', hlog', hsound, -⟩ := h.splice hr
      have hengine' : engine = replay s.engine (spliceOps l (l.fresh entries)) := by
        rw [← hengine, ← hops, ← hstate]
        exact hmap
      rw [hstate, hops, ← hengine'] at hrep'
      by_cases hnil : l.fresh entries = []
      · have hsame : engine = s.engine := by rw [hengine', hnil]; rfl
        rw [hsame] at hrep'
        have hl : l' = l := Represents.unique hrep' h.engine
        refine .inl ⟨hnil, ?_⟩
        rw [hsame, show log = s.log by rw [h.log, ← hl]; exact hlog']
      · obtain ⟨kept, -, hreplaces⟩ := hnew hnil
        have hspliced := hreplaces.represents h.engine hnil
        rw [← hengine'] at hspliced
        have hl := Represents.unique hrep' hspliced
        exact .inr ⟨hnil, kept, hreplaces, hspliced, by rw [← hl]; exact hlog', hl ▸ hsound⟩

/-- What an accepted splice leaves: the log as it was if it has every entry, and otherwise the
log before the first entry that is missing or has a different term, and the entries from
there on. Whether it has an index and term afterwards is whether the entry stored there does. -/
theorem splice_result {entries : List Entry} (h : s.Sound)
    (hs : s.step (.splice entries) = some s') :
    s'.Sound ∧
    ((∀ e ∈ entries, s.Present e) → s' = s) ∧
    (∀ k e, entries[k]? = some e → (∀ e' ∈ entries.take k, s.Present e') → ¬ s.Present e →
      s'.entries = s.entries.take (e.index - 1) ++ entries.drop k ∧
        s'.log = { s.log with lastIndex := s'.log.lastIndex, lastTerm := s'.log.lastTerm }) ∧
    ∀ i t, ∃ found, (s'.log.has i t s'.engine).result = .ok found ∧
      (found = true ↔ s'.Stores i t) := by
  obtain ⟨l, hl⟩ := h.holds
  obtain ⟨l', hl', -⟩ := hl.step hs
  refine ⟨hl'.sound_open, fun hall => ?_, fun k e he hbefore hnot => ?_, hl'.has_iff⟩
  · obtain ⟨-, hsame⟩ | ⟨hne, -⟩ := hl.splice_cases hs
    · exact hsame
    · refine absurd (List.dropWhile_eq_nil_iff.mpr fun e he => ?_) hne
      exact hl.present_iff.mp (hall e he)
  · have hfresh : l.fresh entries = entries.drop k := by
      refine dropWhile_eq_drop (fun j hj x hx => ?_) fun x hx => ?_
      · refine hl.present_iff.mp (hbefore x (List.mem_of_getElem? (i := j) ?_))
        rw [List.getElem?_take_of_lt hj, hx]
      · obtain rfl := Option.some.inj (hx.symm.trans he)
        exact Bool.eq_false_iff.mpr fun hholds => hnot (hl.present_iff.mpr hholds)
    obtain ⟨hnil, -⟩ | ⟨-, kept, hreplaces, hspliced⟩ := hl.splice_cases hs
    · rw [hfresh, List.drop_eq_nil_iff] at hnil
      have hlt := (List.getElem?_eq_some_iff.mp he).1
      omega
    · have hindex := hreplaces.index 0 e (by rw [hfresh, List.getElem?_drop, Nat.add_zero, he])
      constructor
      · rw [hspliced.entries_eq, hl.entries_eq, ← hfresh, hindex, Nat.add_zero, Nat.add_sub_cancel]
        rfl
      · rw [hspliced.log, hl.log]
        rfl

/-- A splice of a log of three entries, of which it has the first of those given and has the
second with another term; the third entry goes as well. -/
theorem splice_result_conflict : ∃ s s', init.run [.setTermVote 1 none, .append none,
      .append none, .append (some [7]), .setTermVote 2 none] = some s ∧
    s.step (.splice [⟨1, 1, none⟩, ⟨2, 2, some [8]⟩]) = some s' ∧
    s'.Sound ∧
    ((∀ e ∈ [⟨1, 1, none⟩, ⟨2, 2, some [8]⟩], s.Present e) → s' = s) ∧
    (∀ k e, [⟨1, 1, none⟩, ⟨2, 2, some [8]⟩][k]? = some e →
      (∀ e' ∈ [⟨1, 1, none⟩, ⟨2, 2, some [8]⟩].take k, s.Present e') → ¬ s.Present e →
      s'.entries = s.entries.take (e.index - 1) ++ [⟨1, 1, none⟩, ⟨2, 2, some [8]⟩].drop k ∧
        s'.log = { s.log with lastIndex := s'.log.lastIndex, lastTerm := s'.log.lastTerm }) ∧
    ∀ i t, ∃ found, (s'.log.has i t s'.engine).result = .ok found ∧
      (found = true ↔ s'.Stores i t) := by
  obtain ⟨s, hs⟩ := Option.isSome_iff_exists.mp (show (init.run [.setTermVote 1 none,
    .append none, .append none, .append (some [7]), .setTermVote 2 none]).isSome by decide +kernel)
  obtain ⟨s', hs'⟩ := Option.isSome_iff_exists.mp (show ((init.run [.setTermVote 1 none,
    .append none, .append none, .append (some [7]), .setTermVote 2 none]).bind fun s =>
      s.step (.splice [⟨1, 1, none⟩, ⟨2, 2, some [8]⟩])).isSome by decide +kernel)
  rw [hs] at hs'
  obtain ⟨l, hl, -⟩ := holds_init.run hs
  exact ⟨s, s', hs, hs', splice_result hl.sound_open hs'⟩

end

end OpenLog
end ToyDB.Raft
