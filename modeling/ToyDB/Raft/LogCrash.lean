import ToyDB.Raft.LogRefinement

/-!
# Crashes while splicing

A splice writes its entries one by one over the old log and then removes the old tail
one by one. A crash in between leaves the new entries followed by old ones, possibly of
lower terms, or a gap. These are the crashes after which the log is well-formed.
-/
namespace ToyDB.Raft
open ToyDB.Collections ToyDB.Storage

/-- The documented invariants of a log with contiguous indexes. -/
structure Log.Valid (l : Log) : Prop where
  sorted : TermsSorted l.entries
  term_le : ∀ e ∈ l.entries, e.term ≤ l.term
  commit_le : l.commitIndex ≤ l.entries.length

/-- Opening the engine gives a log with contiguous indexes from 1 and terms that never
decrease, that knows its true end, and that has what was committed in the old log. -/
def Reopens (m : OrderedMap Key Value) (old : Log) : Prop :=
  ∃ entries, Represents m { old with entries := entries } ∧ TermsSorted entries ∧
    entries.take old.commitIndex = old.entries.take old.commitIndex ∧
    (StoredLog.new m).result = .ok ⟨old.term, old.vote, entries.length, Consensus.lastTerm entries,
      old.commitIndex, old.commitTerm⟩

/-- A crash after the first `k` operations of the splice is harmless: nothing or
everything is done, or no old entry was removed and the last new entry has no higher
term than the old entry after it. -/
def HarmlessCut (l : Log) (entries : List Entry) (k : ℕ) : Prop :=
  k = 0 ∨ (spliceOps l (l.fresh entries)).length ≤ k ∨
    k ≤ (l.fresh entries).length ∧
      ∀ e ∈ (l.fresh entries)[k - 1]?, ∀ old ∈ l.entries[e.index]?, e.term ≤ old.term

section Crash
variable {m : OrderedMap Key Value} {l : Log} {kept : ℕ} {new : List Entry}

/-- An engine that represents a sorted log with the committed entries reopens. -/
theorem Represents.reopens {entries : List Entry}
    (h : Represents m { l with entries := entries }) (hs : TermsSorted entries)
    (hc : entries.take l.commitIndex = l.entries.take l.commitIndex) : Reopens m l := by
  refine ⟨entries, h, hs, hc, ?_⟩
  rw [h.yields_new.2.1, StoredLog.of, Log.getLastIndex_eq h.indexed]

theorem Represents.entries_unique {a b : List Entry} (ha : Represents m { l with entries := a })
    (hb : Represents m { l with entries := b }) : a = b := by
  refine List.ext_getElem? fun j => ?_
  have h := (ha.entries (j + 1)).symm.trans (hb.entries (j + 1))
  exact Option.map_injective (fun _ _ => Value.entry.inj) h

/-- After some of the new entries are written. -/
theorem Replaces.writing (hr : Replaces l kept new) (h : Represents m l) {k : ℕ}
    (hk : k ≤ new.length) :
    Represents (replay m ((spliceOps l new).take k))
      { l with entries := l.entries.take kept ++ new.take k ++ l.entries.drop (kept + k) } := by
  have hops : (spliceOps l new).take k =
      (new.take k).map fun e => .set (.entry e.index) (.entry e) := by
    unfold spliceOps
    cases hlast : new.getLast? with
    | none => simp [List.getLast?_eq_none_iff.mp hlast]
    | some last => rw [List.take_append_of_le_length (by simpa using hk), List.map_take]
  have hindex : ∀ j e, (new.take k)[j]? = some e → e.index = kept + j + 1 := fun j e he =>
    hr.index j e (by
      rw [List.getElem?_take] at he
      split_ifs at he
      exact he)
  have hset := h.set_entries hr.kept_le hindex
  rwa [← hops, List.length_take, Nat.min_eq_left hk] at hset

/-- The entries while the new ones are written are sorted exactly if the last new one
does not exceed the old one after it. -/
theorem Replaces.sorted_iff (hr : Replaces l kept new) (hl : TermsSorted l.entries) {k : ℕ}
    (hpos : 0 < k) (hk : k ≤ new.length) :
    TermsSorted (l.entries.take kept ++ new.take k ++ l.entries.drop (kept + k)) ↔
      ∀ e ∈ new[k - 1]?, ∀ old ∈ l.entries[e.index]?, e.term ≤ old.term := by
  obtain ⟨e, he⟩ : ∃ e, new[k - 1]? = some e := ⟨_, List.getElem?_eq_getElem (by omega)⟩
  have hidx : e.index = kept + k := by
    have := hr.index _ _ he
    omega
  have hlast : (new.take k).getLast? = some e := by
    rw [List.getLast?_eq_getElem?, List.length_take, Nat.min_eq_left hk,
      List.getElem?_take_of_lt (by omega), he]
  have hhead : ∀ x ∈ (new.take k).head?, x ∈ new.head? := fun x hx => by
    rwa [List.head?_take, if_neg (by omega)] at hx
  have hfront : TermsSorted (l.entries.take kept ++ new.take k) :=
    List.isChain_append.mpr ⟨hl.take _, hr.sorted.take _, fun b hb x hx =>
      hr.base b hb x (hhead x hx)⟩
  rw [TermsSorted, List.isChain_append, List.getLast?_append, hlast, List.head?_drop, he]
  constructor
  · rintro ⟨_, _, hle⟩ e' he' old hold
    obtain rfl := Option.some.inj he'
    exact hle e rfl old (hidx ▸ hold)
  · intro hle
    refine ⟨hfront, hl.drop _, fun e' he' old hold => ?_⟩
    obtain rfl := Option.some.inj he'
    exact hle e rfl old (hidx.symm ▸ hold)

/-- After some but not all of the old tail is removed, the log has a gap. -/
theorem Replaces.gap (hr : Replaces l kept new) (h : Represents m l) {k : ℕ}
    (hk : new.length < k) (hlt : k < (spliceOps l new).length) :
    ¬ Reopens (replay m ((spliceOps l new).take k)) l := by
  rintro ⟨entries, hrep, _⟩
  have hwritten := hr.writing h le_rfl
  unfold spliceOps at hrep hlt hwritten
  cases hlast : new.getLast? with
  | none =>
      simp only [hlast, List.length_nil] at hlt
      omega
  | some last =>
      have hidx := hr.last hlast
      simp only [hlast, List.length_append, List.length_map, List.length_range'] at hlt
      simp only [hlast] at hrep hwritten
      rw [List.take_left' (by simp)] at hwritten
      obtain ⟨d, rfl⟩ : ∃ d, k = new.length + d := ⟨k - new.length, by omega⟩
      rw [List.take_append, List.length_map, Nat.add_sub_cancel_left,
        List.take_of_length_le (by simp), replay_append, ← List.map_take] at hrep
      have hmem : ∀ i, Key.entry i ∈ ((List.range' (last.index + 1)
          (l.entries.length - last.index)).take d).map Key.entry ↔
            last.index + 1 ≤ i ∧ i ≤ last.index + d := by
        intro i
        rw [List.take_range'_of_length_ge (by omega)]
        simp only [List.mem_map, List.mem_range'_1, Key.entry.injEq, exists_eq_right]
        omega
      have hget := fun i => (replay_deletes_get (replay m _) Key.entry _ (Key.entry i)).symm.trans
        (hrep.entries i)
      -- the first removed index is missing, the last index is not
      have hfirst := hget (last.index + 1)
      have hend := hget l.entries.length
      rw [if_pos ((hmem _).mpr (by omega))] at hfirst
      rw [if_neg (by rw [hmem]; omega), hwritten.entries] at hend
      have hshort : entries.length ≤ last.index := by
        simpa [Log.get] using hfirst.symm
      obtain ⟨n, hn⟩ : ∃ n, l.entries.length = n + 1 := ⟨l.entries.length - 1, by omega⟩
      have hkept : (l.entries.take kept ++ new.take new.length).length = last.index := by
        have := hr.kept_le
        simp only [List.take_length, List.length_append, List.length_take]
        omega
      simp only [hn, Log.get] at hend
      rw [List.getElem?_eq_none (show entries.length ≤ n by omega),
        List.getElem?_append_right (by omega), hkept, List.getElem?_drop,
        List.getElem?_eq_getElem (by omega)] at hend
      cases hend

/-- The operations of an accepted splice. -/
theorem splice_accepted (h : Represents m l) {entries : List Entry} {r : StoredLog × ℕ}
    (hok : ((StoredLog.of l).splice entries m).result = .ok r) :
    ((StoredLog.of l).splice entries m).events = spliceOps l (l.fresh entries) ∧
      (l.fresh entries ≠ [] → ∃ kept, l.commitIndex ≤ kept ∧ Replaces l kept (l.fresh entries)) := by
  obtain ⟨_, hr⟩ := refines_splice h entries []
  cases hres : (l.splice entries []).result with
  | error c =>
      rw [hres, hok] at hr
      cases hr
  | ok a =>
      rw [hres] at hr
      obtain ⟨_, _, _, _, hops, hnew⟩ := hr
      exact ⟨hops, hnew⟩

/-- An accepted splice of a valid log is crash-safe exactly after the operations that
`HarmlessCut` states. -/
theorem splice_crash_iff (h : Represents m l) (hv : l.Valid) {entries : List Entry}
    {r : StoredLog × ℕ} (hok : ((StoredLog.of l).splice entries m).result = .ok r) (k : ℕ) :
    Reopens (Store.crash ((StoredLog.of l).splice entries) m k) l ↔ HarmlessCut l entries k := by
  obtain ⟨hops, hnew⟩ := splice_accepted h hok
  rw [Store.crash, hops, HarmlessCut]
  have hold : Reopens m l := h.reopens hv.sorted rfl
  by_cases hnil : l.fresh entries = []
  · have hops : spliceOps l [] = [] := rfl
    rw [hnil, hops, List.take_nil]
    exact iff_of_true hold (Or.inr (Or.inl (Nat.zero_le _)))
  obtain ⟨kept, hcommit, hr⟩ := hnew hnil
  have hinitial : ∀ rest, (l.entries.take kept ++ rest).take l.commitIndex =
      l.entries.take l.commitIndex := fun rest => by
    have := hr.kept_le
    rw [List.take_append_of_le_length (by rw [List.length_take]; omega), List.take_take,
      Nat.min_eq_left hcommit]
  have hfull : l.fresh entries ≠ [] → TermsSorted (l.entries.take kept ++ l.fresh entries) :=
    fun _ => List.isChain_append.mpr ⟨hv.sorted.take _, hr.sorted, hr.base⟩
  rcases Nat.eq_zero_or_pos k with rfl | hpos
  · exact iff_of_true hold (Or.inl rfl)
  by_cases hall : (spliceOps l (l.fresh entries)).length ≤ k
  · rw [List.take_of_length_le hall]
    exact iff_of_true ((hr.represents h hnil).reopens (hfull hnil) (hinitial _)) (Or.inr (Or.inl hall))
  by_cases hk : k ≤ (l.fresh entries).length
  · have hrep := hr.writing h hk
    have hsorted := hr.sorted_iff hv.sorted hpos hk
    constructor
    · rintro ⟨entries', hrep', hs', _⟩
      exact Or.inr (Or.inr ⟨hk, hsorted.mp (hrep.entries_unique hrep' ▸ hs')⟩)
    · rintro (rfl | hle | ⟨_, hle⟩)
      · omega
      · exact absurd hle hall
      · refine hrep.reopens (hsorted.mpr hle) ?_
        rw [List.append_assoc]
        exact hinitial _
  · refine iff_of_false (hr.gap h (by omega) (by omega)) ?_
    rintro (rfl | hle | ⟨hle, _⟩)
    · omega
    · exact hall hle
    · exact hk hle

end Crash

theorem represents_empty : Represents OrderedMap.empty Log.empty where
  termVote := Or.inr ⟨rfl, rfl, rfl⟩
  commitIndex := Or.inr ⟨rfl, rfl, rfl⟩
  entries i := by cases i <;> rfl
  indexed := Indexed.nil

/-- A log of three entries of term 1, in term 2. -/
def threeEntries : Log := ⟨[⟨1, 1, none⟩, ⟨2, 1, none⟩, ⟨3, 1, none⟩], 2, none, 0, 0⟩

def threeEngine : OrderedMap Key Value :=
  replay (OrderedMap.empty.insert .termVote (.termVote 2 none))
    (threeEntries.entries.map fun e => .set (.entry e.index) (.entry e))

theorem represents_three : Represents threeEngine threeEntries :=
  have hindex : ∀ j e, threeEntries.entries[j]? = some e → e.index = 0 + j + 1 := fun j e he => by
    have hlt : j < 3 := (List.getElem?_eq_some_iff.mp he).1
    match j, hlt with
    | 0, _ | 1, _ | 2, _ => exact (Option.some.inj he) ▸ rfl
  (represents_empty.set_termVote 2 none).set_entries (Nat.zero_le _) hindex

theorem splice_crash_iff_three :
    Reopens (Store.crash ((StoredLog.of threeEntries).splice [⟨2, 2, none⟩]) threeEngine 1)
      threeEntries ↔ HarmlessCut threeEntries [⟨2, 2, none⟩] 1 :=
  splice_crash_iff represents_three ⟨by simp [threeEntries, TermsSorted], by decide, by decide⟩
    (r := (⟨2, none, 2, 2, 0, 0⟩, 2)) (by decide +kernel) 1

/-- A crash after the write of entry 2 in term 2 leaves entry 3 of term 1 behind it. -/
theorem not_splice_crash_safe : ¬ ∀ (m : OrderedMap Key Value) (l : Log) (entries : List Entry)
    (r : StoredLog × ℕ) (k : ℕ), Represents m l → l.Valid →
    ((StoredLog.of l).splice entries m).result = .ok r →
    Reopens (Store.crash ((StoredLog.of l).splice entries) m k) l := by
  intro hall
  have hv : threeEntries.Valid := ⟨by simp [threeEntries, TermsSorted], by decide, by decide⟩
  obtain ⟨entries, hrep, hs, _⟩ := hall threeEngine threeEntries [⟨2, 2, none⟩]
    (⟨2, none, 2, 2, 0, 0⟩, 2) 1 represents_three hv (by decide +kernel)
  have h2 := hrep.entries 2
  have h3 := hrep.entries 3
  rw [show (Store.crash ((StoredLog.of threeEntries).splice [⟨2, 2, none⟩]) threeEngine 1).get
    (.entry 2) = some (.entry ⟨2, 2, none⟩) by decide +kernel] at h2
  rw [show (Store.crash ((StoredLog.of threeEntries).splice [⟨2, 2, none⟩]) threeEngine 1).get
    (.entry 3) = some (.entry ⟨3, 1, none⟩) by decide +kernel] at h3
  obtain ⟨a, ha, heq⟩ := Option.map_eq_some_iff.mp h2.symm
  obtain ⟨b, hb, heq'⟩ := Option.map_eq_some_iff.mp h3.symm
  obtain rfl := Value.entry.inj heq
  obtain rfl := Value.entry.inj heq'
  obtain ⟨_, ha⟩ := List.getElem?_eq_some_iff.mp (show entries[1]? = _ from ha)
  obtain ⟨hlt, hb⟩ := List.getElem?_eq_some_iff.mp (show entries[2]? = _ from hb)
  have := List.isChain_iff_getElem.mp hs 1 hlt
  rw [ha, hb] at this
  exact absurd this (by decide)

end ToyDB.Raft
