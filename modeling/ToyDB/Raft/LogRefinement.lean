import Mathlib.Data.List.Chain
import ToyDB.Raft.LogFacts
import ToyDB.Raft.LogStore

/-!
# The stored log refines the log

An engine represents a log if it holds the entries at their indexes, the term and vote
and the commit index. Every operation of the stored log returns what the operation of
the log returns, and leaves an engine that represents the log it leaves.
-/
namespace ToyDB.Raft
open ToyDB.Collections ToyDB.Effects ToyDB.Storage

namespace Key

@[simp] theorem entry_lt {a b : ℕ} : entry a < entry b ↔ a < b := by
  change rank (entry a) < rank (entry b) ↔ _
  simp [rank, Prod.Lex.toLex_lt_toLex]

@[simp] theorem entry_le {a b : ℕ} : entry a ≤ entry b ↔ a ≤ b := by
  change rank (entry a) ≤ rank (entry b) ↔ _
  simp [rank, Prod.Lex.toLex_le_toLex]

theorem inRange_entry {a b i : ℕ} : inRange a b (entry i) = decide (a ≤ i ∧ i ≤ b) := by
  simp [inRange]

theorem isEntry_of_inRange {a b : ℕ} {key : Key} (h : inRange a b key = true) :
    key.isEntry = true := by
  have hle : ∀ k : Key, k.isEntry = false → ¬ k ≤ entry b := by
    intro k hk
    change ¬ rank k ≤ rank (entry b)
    cases k <;> simp_all [isEntry, rank, Prod.Lex.toLex_le_toLex]
  by_contra hne
  simp only [inRange, Bool.decide_and, Bool.and_eq_true, decide_eq_true_eq] at h
  exact hle key (by simpa using hne) h.2

end Key

/-- The engine holds the log. -/
structure Represents (m : OrderedMap Key Value) (l : Log) : Prop where
  termVote : m.get .termVote = some (.termVote l.term l.vote) ∨
    m.get .termVote = none ∧ l.term = 0 ∧ l.vote = none
  commitIndex : m.get .commitIndex = some (.commitIndex l.commitIndex l.commitTerm) ∨
    m.get .commitIndex = none ∧ l.commitIndex = 0 ∧ l.commitTerm = 0
  entries : ∀ i, m.get (.entry i) = (l.get i).map Value.entry
  indexed : Indexed l.entries

/-- What a stored log keeps of the log in memory. -/
def StoredLog.of (l : Log) : StoredLog :=
  ⟨l.term, l.vote, l.getLastIndex.1, l.getLastIndex.2, l.commitIndex, l.commitTerm⟩

namespace Represents
variable {m : OrderedMap Key Value} {l : Log}

theorem get_iff (h : Represents m l) {i : ℕ} {v : Value} :
    m.get (.entry i) = some v ↔ ∃ e ∈ l.entries, e.index = i ∧ v = .entry e := by
  rw [h.entries]
  constructor
  · intro hv
    obtain ⟨e, he, rfl⟩ := Option.map_eq_some_iff.mp hv
    cases i with
    | zero => simp [Log.get] at he
    | succ i => exact ⟨e, List.mem_of_getElem? he, h.indexed i e he, rfl⟩
  · rintro ⟨e, he, rfl, rfl⟩
    obtain ⟨j, hj⟩ := List.mem_iff_getElem?.mp he
    rw [h.indexed j e hj]
    simp [Log.get, hj]

/-- A scan of entry keys lists entries in index order. -/
theorem scan_eq (h : Represents m l) {p : Key → Bool} (hp : ∀ k, p k = true → k.isEntry = true) :
    m.scan p = (l.entries.filter fun e => p (.entry e.index)).map
      fun e => (.entry e.index, .entry e) := by
  refine OrderedMap.scan_eq ?_ fun k v => ?_
  · rw [List.pairwise_map]
    refine List.Pairwise.filter _ (List.pairwise_iff_getElem.mpr fun i j hi hj hij => ?_)
    rw [Key.entry_lt, h.indexed i _ (List.getElem?_eq_getElem hi),
      h.indexed j _ (List.getElem?_eq_getElem hj)]
    omega
  · constructor
    · intro hmem
      obtain ⟨e, he, heq⟩ := List.mem_map.mp hmem
      obtain ⟨hin, hpe⟩ := List.mem_filter.mp he
      obtain ⟨rfl, rfl⟩ := Prod.mk.inj heq
      exact ⟨h.get_iff.mpr ⟨e, hin, rfl, rfl⟩, hpe⟩
    · rintro ⟨hv, hk⟩
      cases k with
      | entry i =>
          obtain ⟨e, he, rfl, rfl⟩ := h.get_iff.mp hv
          exact List.mem_map.mpr ⟨e, List.mem_filter.mpr ⟨he, hk⟩, rfl⟩
      | termVote => cases hp _ hk
      | commitIndex => cases hp _ hk

/-! ## Reads -/

theorem yields_get (h : Represents m l) (i : ℕ) :
    Yields (StoredLog.get i) m fun r ops => r = .ok (l.get i) ∧ ops = [] := by
  refine Yields.read Storage.yields_get ?_
  rw [h.entries]
  cases l.get i <;> exact ⟨rfl, rfl, rfl⟩

theorem yields_decode (es : List Entry) : Yields
    ((es.map fun e => (Key.entry e.index, Value.entry e)).mapM fun p => decodeEntry p.2) m
    fun r ops => r = .ok es ∧ ops = [] := by
  induction es with
  | nil => exact ⟨rfl, rfl, rfl⟩
  | cons e es ih =>
      rw [List.map_cons, List.mapM_cons]
      exact Yields.read (yields_pure ⟨rfl, rfl⟩) (Yields.read ih (yields_pure ⟨rfl, rfl⟩))

theorem yields_scan (h : Represents m l) (a b : ℕ) :
    Yields (StoredLog.scan a b) m fun r ops => r = .ok (l.scan a b) ∧ ops = [] := by
  refine Yields.read Storage.yields_scan ?_
  rw [h.scan_eq fun _ => Key.isEntry_of_inRange]
  simp only [Key.inRange_entry]
  exact yields_decode _

theorem yields_scanApply (h : Represents m l) (applied : ℕ) :
    Yields ((StoredLog.of l).scanApply applied) m fun r ops =>
      r = .ok (l.scanApply applied) ∧ ops = [] := by
  unfold StoredLog.scanApply Log.scanApply
  by_cases hle : l.commitIndex ≤ applied
  · rw [if_pos hle, if_pos (show (StoredLog.of l).commitIndex ≤ applied from hle)]
    exact yields_pure ⟨rfl, rfl⟩
  · rw [if_neg hle, if_neg (show ¬ (StoredLog.of l).commitIndex ≤ applied from hle)]
    exact h.yields_scan _ _

theorem yields_has (h : Represents m l) (i t : ℕ) :
    Yields ((StoredLog.of l).has i t) m fun r ops => r = .ok (l.has i t) ∧ ops = [] := by
  unfold StoredLog.has Log.has
  change Yields (if i = 0 ∨ l.getLastIndex.1 < i then _ else
    if (i, t) = l.getLastIndex then _ else _) m _
  split_ifs
  · exact yields_pure ⟨rfl, rfl⟩
  · exact yields_pure ⟨rfl, rfl⟩
  · refine Yields.read (h.yields_get i) ?_
    cases l.get i <;> exact yields_pure ⟨rfl, rfl⟩

/-- Opening the engine loads the log. -/
theorem yields_new (h : Represents m l) :
    Yields StoredLog.new m fun r ops => r = .ok (StoredLog.of l) ∧ ops = [] := by
  have hterm : Yields (decodeTermVote (m.get .termVote)) m fun r ops =>
      r = .ok (l.term, l.vote) ∧ ops = [] := by
    rcases h.termVote with hv | ⟨hv, ht, hn⟩
    · rw [hv]
      exact ⟨rfl, rfl, rfl⟩
    · rw [hv, ht, hn]
      exact ⟨rfl, rfl, rfl⟩
  have hcommit : Yields (decodeCommitIndex (m.get .commitIndex)) m fun r ops =>
      r = .ok (l.commitIndex, l.commitTerm) ∧ ops = [] := by
    rcases h.commitIndex with hv | ⟨hv, ht, hn⟩
    · rw [hv]
      exact ⟨rfl, rfl, rfl⟩
    · rw [hv, ht, hn]
      exact ⟨rfl, rfl, rfl⟩
  have hlast : Yields (StoredLog.loadLast (m.scan Key.isEntry).getLast?) m fun r ops =>
      r = .ok l.getLastIndex ∧ ops = [] := by
    have hall : l.entries.filter (fun e => (Key.entry e.index).isEntry) = l.entries :=
      List.filter_eq_self.mpr fun _ _ => rfl
    rw [h.scan_eq fun _ hk => hk, List.getLast?_map, hall, Log.getLastIndex]
    cases l.entries.getLast? <;> exact ⟨rfl, rfl, rfl⟩
  unfold StoredLog.new
  refine Yields.read Storage.yields_get (Yields.read hterm (Yields.read Storage.yields_scan
    (Yields.read hlast (Yields.read Storage.yields_get (Yields.read hcommit (yields_pure ⟨rfl, rfl⟩))))))

/-! ## Writes -/

theorem set_termVote (h : Represents m l) (T : ℕ) (v : Option NodeID) :
    Represents (m.insert .termVote (.termVote T v)) { l with term := T, vote := v } where
  termVote := Or.inl (OrderedMap.get_insert_self _ _ _)
  commitIndex := by
    rw [OrderedMap.get_insert_of_ne _ _ (by simp)]
    exact h.commitIndex
  entries i := by
    rw [OrderedMap.get_insert_of_ne _ _ (by simp)]
    exact h.entries i
  indexed := h.indexed

theorem set_commitIndex (h : Represents m l) (k t : ℕ) :
    Represents (m.insert .commitIndex (.commitIndex k t))
      { l with commitIndex := k, commitTerm := t } where
  termVote := by
    rw [OrderedMap.get_insert_of_ne _ _ (by simp)]
    exact h.termVote
  commitIndex := Or.inl (OrderedMap.get_insert_self _ _ _)
  entries i := by
    rw [OrderedMap.get_insert_of_ne _ _ (by simp)]
    exact h.entries i
  indexed := h.indexed

/-- Writing one entry of the log or the next one. -/
theorem set_entry (h : Represents m l) {e : Entry} {i : ℕ} (hi : i ≤ l.entries.length)
    (he : e.index = i + 1) : Represents (m.insert (.entry e.index) (.entry e))
      { l with entries := l.entries.take i ++ e :: l.entries.drop (i + 1) } := by
  have hlen : (l.entries.take i).length = i := by rw [List.length_take]; omega
  have hget : ∀ j, (l.entries.take i ++ e :: l.entries.drop (i + 1))[j]? =
      if j = i then some e else l.entries[j]? := by
    intro j
    rcases Nat.lt_trichotomy j i with hj | rfl | hj
    · rw [List.getElem?_append_left (by omega), List.getElem?_take_of_lt hj, if_neg (by omega)]
    · rw [List.getElem?_append_right (by omega), hlen, if_pos rfl, Nat.sub_self]
      rfl
    · obtain ⟨d, rfl⟩ : ∃ d, j = i + 1 + d := ⟨j - (i + 1), by omega⟩
      rw [List.getElem?_append_right (by omega), hlen, if_neg (by omega),
        show i + 1 + d - i = d + 1 by omega, List.getElem?_cons_succ, List.getElem?_drop]
  constructor
  · rw [OrderedMap.get_insert_of_ne _ _ (by simp)]
    exact h.termVote
  · rw [OrderedMap.get_insert_of_ne _ _ (by simp)]
    exact h.commitIndex
  · intro j
    rw [OrderedMap.get_insert, h.entries]
    cases j with
    | zero => simp [he, Log.get]
    | succ j =>
        simp only [Key.entry.injEq, he, Nat.add_right_cancel_iff, Log.get, hget]
        split_ifs <;> rfl
  · intro j x hx
    simp only [hget] at hx
    split_ifs at hx with hj
    · rw [← Option.some.inj hx, he, hj]
    · exact h.indexed j x hx

/-- Writing consecutive entries one by one. -/
theorem set_entries (h : Represents m l) {es : List Entry} {i : ℕ} (hi : i ≤ l.entries.length)
    (he : ∀ j e, es[j]? = some e → e.index = i + j + 1) :
    Represents (replay m (es.map fun e => .set (.entry e.index) (.entry e)))
      { l with entries := l.entries.take i ++ es ++ l.entries.drop (i + es.length) } := by
  induction es using List.reverseRecOn with
  | nil => simpa using h
  | append_singleton es e ih =>
      have hes := ih fun j x hx => he j x (by
        rw [List.getElem?_append_left (List.getElem?_eq_some_iff.mp hx).1, hx])
      have hidx : e.index = i + es.length + 1 := he es.length e (by simp)
      have hlen : (l.entries.take i ++ es).length = i + es.length := by
        rw [List.length_append, List.length_take]
        omega
      have hset := hes.set_entry (e := e) (i := i + es.length)
        (by simp only [List.length_append] at hlen ⊢; omega) hidx
      have hdrop : (l.entries.take i ++ es ++ l.entries.drop (i + es.length)).drop
          (i + es.length + 1) = l.entries.drop (i + es.length + 1) := by
        rw [← List.drop_drop, List.drop_left' hlen, List.drop_drop]
      have hentries : l.entries.take i ++ (es ++ [e]) ++
          l.entries.drop (i + (es ++ [e]).length) =
          l.entries.take i ++ es ++ e :: l.entries.drop (i + es.length + 1) := by
        simp [Nat.add_assoc]
      simp only [List.take_left' hlen, hdrop] at hset
      rw [List.map_append, replay_append, hentries]
      exact hset

/-- Removing entries after the first `n` one by one, up to the end of the log. -/
theorem delete_tail (h : Represents m l) {n : ℕ} (hn : n ≤ l.entries.length) :
    Represents (replay m ((List.range' (n + 1) (l.entries.length - n)).map
      fun i => .delete (.entry i))) { l with entries := l.entries.take n } := by
  have hother : ∀ k : Key, (∀ i, k ≠ .entry i) → (replay m ((List.range' (n + 1)
      (l.entries.length - n)).map fun i => .delete (.entry i))).get k = m.get k := by
    intro k hk
    refine replay_get fun op hop => ?_
    obtain ⟨i, _, rfl⟩ := List.mem_map.mp hop
    exact Ne.symm (hk i)
  constructor
  · rw [hother _ (by simp)]
    exact h.termVote
  · rw [hother _ (by simp)]
    exact h.commitIndex
  · intro j
    rw [replay_deletes_get, h.entries]
    cases j with
    | zero => simp [Log.get]
    | succ j =>
        have hmem : Key.entry (j + 1) ∈ (List.range' (n + 1) (l.entries.length - n)).map Key.entry ↔
            n ≤ j ∧ j < l.entries.length := by
          simp only [List.mem_map, List.mem_range'_1, Key.entry.injEq, exists_eq_right]
          omega
        simp only [hmem, Log.get, List.getElem?_take]
        split_ifs with h₁ h₂ h₂
        · omega
        · rfl
        · rfl
        · rw [List.getElem?_eq_none (by omega)]
  · exact h.indexed.of_initial (List.take_prefix _ _)

end Represents

/-! ## Operations in step -/

/-- On the engine, the stored program returns or fails as the program of the log does
with every supply, and relates results and operations as stated. -/
def Refines {α β : Type} (m : OrderedMap Key Value) (x : LogAction β) (y : Action α)
    (R : α → β → List (Op Key Value) → Prop) : Prop :=
  ∀ s, Yields x m fun r ops =>
    match (y s).result with
    | .ok a => ∃ b, r = .ok b ∧ R a b ops
    | .error c => r = .error c

section Refines
variable {α β : Type} {m : OrderedMap Key Value} {R : α → β → List (Op Key Value) → Prop}

theorem refines_pure {a : α} {b : β} (h : R a b []) : Refines m (pure b) (pure a) R :=
  fun _ => yields_pure ⟨b, rfl, h⟩

theorem refines_panic {message : String} : Refines m (panic message) (panic message) R :=
  fun _ => yields_fail rfl

/-- The same check on both sides. -/
theorem refines_assert {p : Prop} [Decidable p] {message : String} {f : Unit → LogAction β}
    {g : Unit → Action α} (h : p → Refines m (f ()) (g ()) R) :
    Refines m (assert p message >>= f) (assert p message >>= g) R := by
  unfold assert
  by_cases hp : p
  · rw [Program.ensure_bind hp, Program.ensure_bind hp]
    exact h hp
  · rw [Program.ensure_bind_not hp, Program.ensure_bind_not hp]
    exact refines_panic

theorem refines_ite {p : Prop} [Decidable p] {x x' : LogAction β} {y y' : Action α}
    (h : p → Refines m x y R) (h' : ¬ p → Refines m x' y' R) :
    Refines m (if p then x else x') (if p then y else y') R := by
  split_ifs with hp
  · exact h hp
  · exact h' hp

/-- A read of the engine. -/
theorem refines_read {γ : Type} {x : LogAction γ} {c : γ} {f : γ → LogAction β} {y : Action α}
    (hx : Yields x m fun r ops => r = .ok c ∧ ops = []) (h : Refines m (f c) y R) :
    Refines m (x >>= f) y R :=
  fun s => Yields.read hx (h s)

/-- A write of the engine, which the log shows as one event. -/
theorem refines_write {e : Event} {ops : List (Op Key Value)} {x : LogAction Unit} {a : α} {b : β}
    (hx : Yields x m fun r ops' => r = .ok () ∧ ops' = ops) (h : R a b ops) :
    Refines m (x >>= fun _ => pure b) (emit e >>= fun _ => pure a) R :=
  fun _ => hx.then (yields_pure ⟨b, rfl, by rwa [List.append_nil]⟩)

/-- A program that both sides run alike and that only computes. -/
theorem refines_compute {γ : Type} {x : LogAction γ} {y : Action γ} {f : γ → LogAction β}
    {g : γ → Action α} (P : γ → Prop)
    {r : Except Failure γ} (hx : ∀ m, x m = ⟨r, m, []⟩) (hy : ∀ s, y s = ⟨r, s, []⟩)
    (hP : ∀ c, r = .ok c → P c) (h : ∀ c, P c → Refines m (f c) (g c) R) :
    Refines m (x >>= f) (y >>= g) R := by
  intro s
  refine yields_bind ⟨by rw [hx]; rfl, ?_⟩
  have hyg : (y >>= g) s = Program.bind y g s := rfl
  rw [hx, hyg, Program.bind, hy]
  cases r with
  | error c => rfl
  | ok c => exact h c (hP c rfl) s

end Refines

section Operations
variable {m : OrderedMap Key Value} {l : Log} {kept : ℕ} {new : List Entry}

theorem refines_setTermVote (h : Represents m l) (T : ℕ) (v : Option NodeID) :
    Refines m ((StoredLog.of l).setTermVote T v) (l.setTermVote T v) fun l' b ops =>
      b = .of l' ∧ Represents (replay m ops) l' := by
  unfold StoredLog.setTermVote Log.setTermVote
  exact refines_assert fun _ => refines_assert fun _ => refines_assert fun _ =>
    refines_ite (fun _ => refines_pure ⟨rfl, h⟩) fun _ =>
      refines_write yields_set ⟨rfl, h.set_termVote T v⟩

theorem refines_append (h : Represents m l) (c : Option Bytes) :
    Refines m ((StoredLog.of l).append c) (l.append c) fun a b ops =>
      b = (.of a.1, a.2) ∧ Represents (replay m ops) a.1 := by
  have hlast : l.getLastIndex.1 = l.entries.length := by rw [Log.getLastIndex_eq h.indexed]
  unfold StoredLog.append Log.append
  refine refines_assert fun _ => refines_write yields_set ⟨?_, ?_⟩
  · simp [StoredLog.of, Log.getLastIndex]
  · have := h.set_entry (e := ⟨l.getLastIndex.1 + 1, l.term, c⟩) le_rfl (by rw [hlast])
    rwa [List.take_length, List.drop_of_length_le (by omega)] at this

theorem refines_commit (h : Represents m l) (k : ℕ) :
    Refines m ((StoredLog.of l).commit k) (l.commit k) fun l' b ops =>
      b = .of l' ∧ Represents (replay m ops) l' := by
  unfold StoredLog.commit Log.commit
  refine refines_read (h.yields_get k) ?_
  cases l.get k with
  | none => exact refines_panic
  | some e => exact refines_ite (fun _ => refines_panic) fun _ =>
      refines_ite (fun _ => refines_pure ⟨rfl, h⟩) fun _ =>
        refines_write yields_set ⟨rfl, h.set_commitIndex k e.term⟩

/-! ## Splicing -/

/-- The log has an entry of the same index and term. -/
def Log.holds (l : Log) (e : Entry) : Bool := (l.get e.index).any fun old => old.term = e.term

/-- The entries of a splice from the first that the log does not have. -/
def Log.fresh (l : Log) (entries : List Entry) : List Entry := entries.dropWhile l.holds

theorem dropWhile_eq_drop {α : Type} {p : α → Bool} {l : List α} {k : ℕ}
    (hp : ∀ j < k, ∀ x, l[j]? = some x → p x = true) (hn : ∀ x, l[k]? = some x → p x = false) :
    l.dropWhile p = l.drop k := by
  induction l generalizing k with
  | nil => simp
  | cons a l ih =>
      cases k with
      | zero => rw [List.dropWhile_cons_of_neg (by simpa using hn a rfl)]; rfl
      | succ k =>
          rw [List.dropWhile_cons_of_pos (hp 0 (by omega) a rfl), List.drop_succ_cons]
          exact ih (fun j hj x hx => hp (j + 1) (by omega) x (by simpa using hx))
            fun x hx => hn x (by simpa using hx)

/-- Skipping stops at the first entry that differs, whatever the program it is part of. -/
theorem skipPresent_cases (stored entries : List Entry) : ∃ r : Except Failure (List Entry),
    (∀ {σ ε : Type} (s : σ), (Log.skipPresent stored entries : Program σ ε _ _) s = ⟨r, s, []⟩) ∧
    ∀ rest, r = .ok rest → ∃ k, rest = entries.drop k ∧ k ≤ stored.length ∧
      stored.take k = entries.take k ∧
      ∀ a b, stored[k]? = some a → entries[k]? = some b → a.term ≠ b.term := by
  induction stored generalizing entries with
  | nil =>
      refine ⟨.ok entries, fun _ => rfl, fun rest h => ⟨0, ?_⟩⟩
      obtain rfl := Except.ok.inj h
      simp
  | cons x stored ih =>
      cases entries with
      | nil => exact ⟨.error (.panic "index out of bounds"), fun _ => rfl, by simp⟩
      | cons y entries =>
          simp only [Log.skipPresent, assert]
          by_cases hidx : x.index = y.index
          swap
          · simp only [Program.ensure_bind_not hidx]
            exact ⟨.error (.panic "index mismatch"), fun _ => rfl, by simp⟩
          simp only [Program.ensure_bind hidx]
          by_cases hterm : x.term = y.term
          swap
          · simp only [ne_eq, hterm, not_false_eq_true, if_true]
            refine ⟨.ok (y :: entries), fun _ => rfl, fun rest h => ⟨0, ?_⟩⟩
            obtain rfl := Except.ok.inj h
            simpa using hterm
          simp only [ne_eq, hterm, not_true_eq_false, if_false]
          by_cases hcmd : x.command = y.command
          swap
          · simp only [Program.ensure_bind_not hcmd]
            exact ⟨.error (.panic "command mismatch"), fun _ => rfl, by simp⟩
          simp only [Program.ensure_bind hcmd]
          have hxy : x = y := by
            cases x
            cases y
            simp_all
          obtain ⟨r, hrun, hr⟩ := ih entries
          refine ⟨r, hrun, fun rest h => ?_⟩
          obtain ⟨k, rfl, hk, htake, hne⟩ := hr rest h
          exact ⟨k + 1, by simp, by simpa using hk, by simp [htake, hxy],
            fun a b ha hb => hne a b (by simpa using ha) (by simpa using hb)⟩

/-- Entry terms never decrease. -/
def TermsSorted (l : List Entry) : Prop := l.IsChain fun a b => a.term ≤ b.term

/-- The entries of an accepted splice continue its first entry. -/
structure Contiguous (first : Entry) (entries : List Entry) : Prop where
  index : ∀ j e, entries[j]? = some e → e.index = first.index + j
  sorted : TermsSorted entries

theorem contiguous_of_windows {entries : List Entry} {first : Entry}
    (hfirst : entries.head? = some first)
    (hindex : Log.windows (fun a b => a.index + 1 = b.index) entries = true)
    (hterm : Log.windows (fun a b => a.term ≤ b.term) entries = true) :
    Contiguous first entries := by
  refine ⟨fun j => ?_, Log.windows_isChain hterm⟩
  induction j with
  | zero =>
      intro e he
      rw [List.head?_eq_getElem?, he] at hfirst
      rw [Option.some.inj hfirst]
      rfl
  | succ j ih =>
      intro e he
      obtain ⟨x, hx⟩ : ∃ x, entries[j]? = some x :=
        ⟨_, List.getElem?_eq_getElem (by have := (List.getElem?_eq_some_iff.mp he).1; omega)⟩
      have := Log.windows_iff.mp hindex j x e hx he
      have := ih x hx
      omega

/-- What skipping leaves is what the log does not have, and continues what it has. -/
structure Replaces (l : Log) (kept : ℕ) (fresh : List Entry) : Prop where
  kept_le : kept ≤ l.entries.length
  index : ∀ j e, fresh[j]? = some e → e.index = kept + j + 1
  sorted : TermsSorted fresh
  base : ∀ b ∈ (l.entries.take kept).getLast?, ∀ e ∈ fresh.head?, b.term ≤ e.term

theorem scan_getElem? (h : Represents m l) {a b j : ℕ} (ha : 0 < a) :
    (l.scan a b)[j]? = if a + j ≤ b then l.get (a + j) else none := by
  rw [Log.scan_eq h.indexed b ha, List.getElem?_drop, List.getElem?_take]
  obtain ⟨a, rfl⟩ : ∃ c, a = c + 1 := ⟨a - 1, by omega⟩
  simp only [Nat.add_sub_cancel, Nat.add_right_comm a 1 j, Log.get, Nat.add_one_le_iff]

theorem replaces_of_skip (h : Represents m l) {first last : Entry} {entries : List Entry} {k : ℕ}
    (hc : Contiguous first entries) (hlast : entries.getLast? = some last) (hpos : 0 < first.index)
    (hbase : ∀ b, l.get (first.index - 1) = some b → b.term ≤ first.term)
    (htouch : l.get (first.index - 1) = none → first.index = 1)
    (hfirst : entries.head? = some first)
    (hk : k ≤ (l.scan first.index last.index).length)
    (htake : (l.scan first.index last.index).take k = entries.take k)
    (hne : ∀ a b, (l.scan first.index last.index)[k]? = some a → entries[k]? = some b →
      a.term ≠ b.term) :
    entries.drop k = l.fresh entries ∧ Replaces l (first.index - 1 + k) (entries.drop k) := by
  have hlastidx : last.index + 1 = first.index + entries.length := by
    rw [List.getLast?_eq_getElem?] at hlast
    have := hc.index _ _ hlast
    have := (List.getElem?_eq_some_iff.mp hlast).1
    omega
  have hstored : ∀ j, (l.scan first.index last.index)[j]? =
      if first.index + j ≤ last.index then l.get (first.index + j) else none := fun j =>
    scan_getElem? h hpos
  have hsame : ∀ j < k, l.get (first.index + j) = entries[j]? := by
    intro j hj
    have hget := congrArg (fun l => l[j]?) htake
    simp only [List.getElem?_take_of_lt hj, hstored] at hget
    have hlt : j < (l.scan first.index last.index).length := by omega
    have := List.getElem?_eq_getElem hlt
    rw [hstored] at this
    split_ifs at this hget with hle
    exact hget
  have hkept : first.index - 1 + k ≤ l.entries.length := by
    cases k with
    | zero =>
        cases hget : l.get (first.index - 1) with
        | none => have := htouch hget; omega
        | some b =>
            cases hi : first.index - 1 with
            | zero => omega
            | succ i =>
                rw [hi] at hget
                have := (List.getElem?_eq_some_iff.mp (show l.entries[i]? = some b from hget)).1
                omega
    | succ k =>
        have hlt : k < (l.scan first.index last.index).length := by omega
        have hx := hstored k
        rw [List.getElem?_eq_getElem hlt] at hx
        split_ifs at hx
        obtain ⟨i, hi⟩ : ∃ i, first.index + k = i + 1 := ⟨first.index + k - 1, by omega⟩
        rw [hi] at hx
        have := (List.getElem?_eq_some_iff.mp (show l.entries[i]? = some _ from hx.symm)).1
        omega
  refine ⟨(dropWhile_eq_drop (fun j hj e he => ?_) fun e he => ?_).symm, hkept, ?_, ?_, ?_⟩
  · rw [Log.holds, hc.index j e he, hsame j hj, he]
    simp
  · rw [Log.holds, hc.index k e he]
    have hle : first.index + k ≤ last.index := by
      have := (List.getElem?_eq_some_iff.mp he).1
      omega
    cases hget : l.get (first.index + k) with
    | none => rfl
    | some a =>
        have := hne a e (by rw [hstored, if_pos hle, hget]) he
        simpa using this
  · intro j e he
    rw [List.getElem?_drop] at he
    have := hc.index _ e he
    omega
  · exact hc.sorted.drop k
  · intro b hb e he
    rw [List.head?_drop] at he
    have hbget : l.get (first.index - 1 + k) = some b := by
      rw [Option.mem_def, List.getLast?_eq_getElem?, List.length_take] at hb
      cases hn : first.index - 1 + k with
      | zero => rw [hn] at hb; simp at hb
      | succ n =>
          rw [hn] at hb
          rwa [Nat.min_eq_left (by omega), List.getElem?_take_of_lt (by omega)] at hb
    cases k with
    | zero =>
        rw [Nat.add_zero] at hbget
        rw [← List.head?_eq_getElem?, hfirst] at he
        exact Option.some.inj he ▸ hbase b hbget
    | succ k =>
        have hbk : entries[k]? = some b := by
          rw [← hsame k (by omega), ← hbget]
          congr 1
          omega
        obtain ⟨hlt, hbe⟩ := List.getElem?_eq_some_iff.mp hbk
        obtain ⟨hlt', hee⟩ := List.getElem?_eq_some_iff.mp he
        rw [← hbe, ← hee]
        exact List.isChain_iff_getElem.mp hc.sorted k hlt'

/-- The operations of a splice that writes these entries. -/
def spliceOps (l : Log) (fresh : List Entry) : List (Op Key Value) :=
  match fresh.getLast? with
  | none => []
  | some last =>
      (fresh.map fun e => .set (.entry e.index) (.entry e)) ++
        (List.range' (last.index + 1) (l.entries.length - last.index)).map
          fun i => .delete (.entry i)

theorem Replaces.last (hr : Replaces l kept new) {e : Entry} (he : new.getLast? = some e) :
    e.index = kept + new.length := by
  rw [List.getLast?_eq_getElem?] at he
  have := hr.index _ _ he
  have := (List.getElem?_eq_some_iff.mp he).1
  omega

/-- The log after a splice of the entries that it does not have. -/
def Log.spliced (l : Log) (kept : ℕ) (new : List Entry) : Log :=
  { l with entries := l.entries.take kept ++ new }

/-- Once all operations are done, the entries replace the rest of the log. -/
theorem Replaces.represents (hr : Replaces l kept new) (h : Represents m l)
    (hne : new ≠ []) : Represents (replay m (spliceOps l new)) (l.spliced kept new) := by
  obtain ⟨last, hlast⟩ : ∃ e, new.getLast? = some e := ⟨_, List.getLast?_eq_some_getLast hne⟩
  have hidx := hr.last hlast
  have hkept := hr.kept_le
  have hlen : (l.entries.take kept ++ new).length = kept + new.length := by
    rw [List.length_append, List.length_take]
    omega
  have hset := h.set_entries hr.kept_le fun j e he => hr.index j e he
  have hdel := hset.delete_tail (n := last.index) (by simp only [List.length_append] at hlen ⊢; omega)
  have htake : (l.entries.take kept ++ new ++ l.entries.drop (kept + new.length)).take
      last.index = l.entries.take kept ++ new := List.take_left' (by omega)
  have hcount : (l.entries.take kept ++ new ++
      l.entries.drop (kept + new.length)).length - last.index =
        l.entries.length - last.index := by
    simp only [List.length_append, List.length_drop] at hlen ⊢
    omega
  simp only [htake, hcount] at hdel
  rw [spliceOps, hlast, replay_append]
  exact hdel

theorem refines_splice (h : Represents m l) (entries : List Entry) :
    Refines m ((StoredLog.of l).splice entries) (l.splice entries) fun a b ops =>
      b = (.of a.1, a.2) ∧ Represents (replay m ops) a.1 ∧ ops = spliceOps l (l.fresh entries) ∧
        (l.fresh entries ≠ [] → ∃ kept, l.commitIndex ≤ kept ∧
          Replaces l kept (l.fresh entries)) := by
  unfold StoredLog.splice Log.splice
  cases hfirst : entries.head? with
  | none =>
      obtain rfl := List.head?_eq_none_iff.mp hfirst
      exact refines_pure ⟨rfl, h, rfl, fun hne => absurd rfl hne⟩
  | some first =>
  cases hlast : entries.getLast? with
  | none => simp [List.getLast?_eq_none_iff.mp hlast] at hfirst
  | some last =>
  refine refines_assert fun hpos => refines_assert fun hindex => refines_assert fun hterm =>
    refines_assert fun _ => refines_read (h.yields_get _) ?_
  have hc := contiguous_of_windows hfirst hindex hterm
  -- past the checks, both sides skip the same entries and write the others
  have hrest : (∀ b, l.get (first.index - 1) = some b → b.term ≤ first.term) →
      (l.get (first.index - 1) = none → first.index = 1) →
      Refines m (do
        let stored ← StoredLog.scan first.index last.index
        let missing ← Log.skipPresent stored entries
        (StoredLog.of l).writeMissing missing last) (do
        let missing ← Log.skipPresent (l.scan first.index last.index) entries
        l.writeMissing missing last.index) fun a b ops =>
          b = (.of a.1, a.2) ∧ Represents (replay m ops) a.1 ∧ ops = spliceOps l (l.fresh entries) ∧
            (l.fresh entries ≠ [] → ∃ kept, l.commitIndex ≤ kept ∧
              Replaces l kept (l.fresh entries)) := by
    intro hbase htouch
    refine refines_read (h.yields_scan _ _) ?_
    obtain ⟨r, hrun, hskip⟩ := skipPresent_cases (l.scan first.index last.index) entries
    refine refines_compute _ hrun hrun hskip ?_
    rintro _ ⟨k, rfl, hk, htake, hne⟩
    obtain ⟨hfresh, hr⟩ := replaces_of_skip h hc hlast hpos.1 hbase htouch hfirst hk htake hne
    rw [← hfresh]
    cases hhead : (entries.drop k).head? with
    | none =>
        simp only [StoredLog.writeMissing, Log.writeMissing, hhead]
        rw [List.head?_eq_none_iff.mp hhead]
        exact refines_pure ⟨rfl, h, rfl, fun hne => absurd rfl hne⟩
    | some e =>
        have hnil : entries.drop k ≠ [] := fun hnil => by simp [hnil] at hhead
        have he := hr.index 0 e (by rwa [← List.head?_eq_getElem?])
        have hlast' : (entries.drop k).getLast? = some last := by
          rw [List.getLast?_drop, if_neg (by simpa using hnil), hlast]
        simp only [StoredLog.writeMissing, Log.writeMissing, hhead]
        refine refines_assert fun hcommit => fun s => ?_
        have hcommit : l.commitIndex < e.index := hcommit
        have hkept : e.index - 1 = first.index - 1 + k := by omega
        refine (yields_forM fun _ _ => yields_set).then ((yields_forM fun _ _ => yields_delete).then
          (yields_pure ⟨_, rfl, ?_, ?_, ?_, fun _ => ⟨_, by omega, hr⟩⟩))
        · simp [StoredLog.of, Log.getLastIndex, List.getLast?_append, hlast']
        · have := hr.represents h hnil
          rw [spliceOps, hlast'] at this
          rw [hkept]
          simpa [Log.spliced, StoredLog.of, Log.getLastIndex_eq h.indexed] using this
        · rw [spliceOps, hlast']
          simp [StoredLog.of, Log.getLastIndex_eq h.indexed]
  cases hget : l.get (first.index - 1) with
  | none => exact refines_assert fun h1 => hrest (by simp [hget]) fun _ => h1
  | some base =>
      exact refines_assert fun hle => hrest (fun b hb => Option.some.inj (hget.symm.trans hb) ▸ hle)
        (by simp [hget])

end Operations
end ToyDB.Raft
