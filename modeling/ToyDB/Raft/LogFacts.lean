import ToyDB.Raft.Meaning

/-!
# Logs with contiguous indexes

Once every entry is stored at its own index, the operations of `Log` are
operations on lists of entries: an index range is a segment and the last index is
the length.
-/
namespace ToyDB.Raft
open ToyDB.Consensus ToyDB.Effects

namespace Indexed
variable {l p : List Entry}

theorem nil : Indexed [] := by simp [Indexed]

theorem of_initial (hl : Indexed l) (hp : p <+: l) : Indexed p :=
  fun j e he => hl j e (getElem?_of_initial hp he)

theorem concat (hl : Indexed l) {e : Entry} (he : e.index = l.length + 1) : Indexed (l ++ [e]) := by
  intro j x hx
  rcases Nat.lt_or_ge j l.length with hj | hj
  · exact hl j x (by rwa [List.getElem?_append_left hj] at hx)
  · obtain ⟨hlt, hx⟩ := List.getElem?_eq_some_iff.mp hx
    simp only [List.length_append, List.length_singleton] at hlt
    obtain rfl : j = l.length := by omega
    simpa [← hx] using he

theorem index_getLast (hl : Indexed l) {e : Entry} (he : l.getLast? = some e) :
    e.index = l.length := by
  rw [List.getLast?_eq_getElem?] at he
  have := (List.getElem?_eq_some_iff.mp he).1
  rw [hl _ _ he]
  omega

theorem index_append {es : List Entry} (hl : Indexed (l ++ es)) {e : Entry} {j : ℕ}
    (he : es[j]? = some e) : e.index = l.length + j + 1 := by
  refine hl (l.length + j) e ?_
  rw [List.getElem?_append_right (by omega), Nat.add_sub_cancel_left, he]

/-- The entries of an index range. -/
theorem filter_range (hl : Indexed l) {a : ℕ} (b : ℕ) (ha : 0 < a) :
    l.filter (fun e => decide (a ≤ e.index ∧ e.index ≤ b)) = (l.take b).drop (a - 1) := by
  induction l using List.reverseRecOn generalizing b with
  | nil => simp
  | append_singleton l e ih =>
      have hil := hl.of_initial (List.prefix_append l [e])
      have he : e.index = l.length + 1 := hl.index_append (j := 0) rfl
      rw [List.filter_append, ih hil b]
      by_cases h : a ≤ e.index ∧ e.index ≤ b
      · rw [List.filter_cons_of_pos (by simpa using h), List.filter_nil,
          List.take_of_length_le (by omega), List.take_of_length_le (by simp; omega),
          List.drop_append_of_le_length (by omega)]
      · rw [List.filter_cons_of_neg (by simpa using h), List.filter_nil, List.append_nil]
        rcases Nat.lt_or_ge b (l.length + 1) with hb | hb
        · rw [List.take_append_of_le_length (by omega)]
        · rw [List.drop_of_length_le (by simp; omega), List.drop_of_length_le (by simp; omega)]

end Indexed

theorem lastTerm_eq {l : List Entry} {e : Entry} (he : l.getLast? = some e) :
    lastTerm l = e.term := by simp [lastTerm, he]

/-- The last term of a nonempty prefix is the term of its last entry. -/
theorem lastTerm_take {l : List Entry} {j : ℕ} {e : Entry} (he : l[j]? = some e) :
    lastTerm (l.take (j + 1)) = e.term := by
  have hj := (List.getElem?_eq_some_iff.mp he).1
  refine lastTerm_eq ?_
  rw [List.getLast?_eq_getElem?, List.length_take, Nat.min_eq_left (by omega),
    Nat.add_sub_cancel, List.getElem?_take_of_lt (by omega), he]

theorem getAppliedIndex_eq {state : List Entry} (h : Indexed state) :
    getAppliedIndex state = state.length := by
  unfold getAppliedIndex
  cases he : state.getLast? with
  | none => simp [List.getLast?_eq_none_iff.mp he]
  | some e => exact h.index_getLast he

namespace Log

theorem windows_iff {r : Entry → Entry → Prop} [DecidableRel r] {l : List Entry} :
    Log.windows r l = true ↔ ∀ j a b, l[j]? = some a → l[j + 1]? = some b → r a b := by
  induction l with
  | nil => simp [windows]
  | cons x l ih =>
      cases l with
      | nil => simp [windows]
      | cons y l =>
          simp only [windows, Bool.and_eq_true, decide_eq_true_eq, ih]
          constructor
          · rintro ⟨hxy, hl⟩ j a b ha hb
            cases j with
            | zero => simp_all
            | succ j => exact hl j a b (by simpa using ha) (by simpa using hb)
          · intro h
            exact ⟨h 0 x y rfl rfl, fun j a b ha hb => h (j + 1) a b (by simpa using ha)
              (by simpa using hb)⟩

theorem windows_isChain {r : Entry → Entry → Prop} [DecidableRel r] {l : List Entry}
    (h : windows r l = true) : l.IsChain r := by
  induction l with
  | nil => exact .nil
  | cons a l ih =>
      cases l with
      | nil => exact .singleton a
      | cons b l =>
          simp only [windows, Bool.and_eq_true, decide_eq_true_eq] at h
          exact .cons_cons h.1 (ih h.2)

variable {log : Log} (h : Indexed log.entries)
include h

theorem getLastIndex_eq : log.getLastIndex = (log.entries.length, lastTerm log.entries) := by
  unfold getLastIndex
  cases he : log.entries.getLast? with
  | none => simp [List.getLast?_eq_none_iff.mp he, lastTerm]
  | some e => simp [h.index_getLast he, lastTerm_eq he]

theorem get_index {k : ℕ} {e : Entry} (he : log.get k = some e) : e.index = k := by
  cases k with
  | zero => simp [get] at he
  | succ k => exact h k e he

theorem scan_eq {a : ℕ} (b : ℕ) (ha : 0 < a) :
    log.scan a b = (log.entries.take b).drop (a - 1) :=
  h.filter_range b ha

theorem scanApply_eq (applied : ℕ) :
    log.scanApply applied = (log.entries.take log.commitIndex).drop applied := by
  unfold scanApply
  split_ifs with ha
  · rw [List.drop_of_length_le]
    simp only [List.length_take]
    omega
  · exact scan_eq h _ (by omega)

/-- The log has an index and term exactly if an entry at the index has the term. -/
theorem has_iff {k : ℕ} {t : ℕ} :
    log.has k t = true ↔ 0 < k ∧ ∃ e, log.entries[k - 1]? = some e ∧ e.term = t := by
  cases k with
  | zero => simp [has]
  | succ k =>
      rw [has, getLastIndex_eq h]
      simp only [Nat.add_one_sub_one, Nat.succ_ne_zero, false_or, Prod.mk.injEq]
      split_ifs with hlt heq
      · simp only [false_iff]
        rintro ⟨_, e, he, _⟩
        have := (List.getElem?_eq_some_iff.mp he).1
        omega
      · refine iff_of_true rfl ⟨by omega, ?_⟩
        obtain ⟨e, he⟩ : ∃ e, log.entries[k]? = some e :=
          ⟨_, List.getElem?_eq_getElem (by omega)⟩
        have ht := lastTerm_take he
        rw [List.take_of_length_le (by omega)] at ht
        exact ⟨e, he, ht.symm.trans heq.2.symm⟩
      · simp only [get]
        cases he : log.entries[k]? with
        | none => simp
        | some e => simp

end Log
end ToyDB.Raft
