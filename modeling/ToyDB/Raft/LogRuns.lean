import ToyDB.Effects.Triple
import ToyDB.Encoding.Keys
import ToyDB.Raft.LogCrash

/-!
# Runs of the stored log

A log is opened on an empty engine and then called any number of times, and closed and
opened again in between. The documented invariants of the log hold after every call that
does not panic, and the log in memory is what opening the engine would load.
-/
namespace ToyDB.Raft
open ToyDB.Collections ToyDB.Effects ToyDB.Encoding ToyDB.Storage

/-! ## Keys -/

/-- The key of the model for a stored key. -/
def Key.of : Keycode.LogKey → Key
  | .entry index => .entry index.toNat
  | .termVote => .termVote
  | .commitIndex => .commitIndex

/-- The engine orders encoded keys as the model orders keys. -/
theorem Key.lt_iff_encoded (a b : Keycode.LogKey) :
    Key.of a < Key.of b ↔ cmpList a.serialize b.serialize = .lt := by
  rw [((Keycode.keys_keepOrder.2.1) a b trivial trivial).1]
  change rank (Key.of a) < rank (Key.of b) ↔ _
  cases a <;> cases b <;> simp [Key.of, rank, Prod.Lex.toLex_lt_toLex, Keycode.LogKey.cmp,
    Keycode.LogKey.variant, Keycode.cmpU64, compare_lt_iff_lt]

/-! ## What a call does to the log -/

/-- The log knows the term of its last committed entry. -/
structure Log.Sound (l : Log) : Prop extends Log.Valid l where
  indexed : Indexed l.entries
  commitTerm_eq : l.commitTerm = Consensus.lastTerm (l.entries.take l.commitIndex)

/-- The log keeps its term, its vote in the term and its committed entries. -/
structure Log.Continues (l l' : Log) : Prop where
  term_le : l.term ≤ l'.term
  vote : l'.term = l.term → l.vote ≠ none → l'.vote = l.vote
  commit_le : l.commitIndex ≤ l'.commitIndex
  committed : l'.entries.take l.commitIndex = l.entries.take l.commitIndex

namespace Log
variable {l l' : Log}

theorem Continues.refl (l : Log) : l.Continues l := ⟨le_rfl, fun _ _ => rfl, le_rfl, rfl⟩

theorem Continues.trans {l'' : Log} (h : l.Continues l') (h' : l'.Continues l'') :
    l.Continues l'' where
  term_le := h.term_le.trans h'.term_le
  vote ht hv := by
    have hle := h.term_le
    have hle' := h'.term_le
    have hvote := h.vote (by omega) hv
    rw [h'.vote (by omega) (hvote ▸ hv), hvote]
  commit_le := h.commit_le.trans h'.commit_le
  committed := by
    have h₁ := congrArg (List.take l.commitIndex) h'.committed
    rw [List.take_take, List.take_take, Nat.min_eq_left h.commit_le] at h₁
    rw [h₁, h.committed]

theorem sound_empty : Log.empty.Sound where
  sorted := List.isChain_nil
  term_le := by simp [Log.empty]
  commit_le := Nat.zero_le _
  indexed := Indexed.nil
  commitTerm_eq := rfl

theorem sound_setTermVote (h : l.Sound) {term : ℕ} {vote : Option NodeID} (ht : l.term ≤ term)
    (hv : l.term < term ∨ l.vote = none ∨ vote = l.vote) :
    Log.Sound { l with term := term, vote := vote } ∧
      l.Continues { l with term := term, vote := vote } := by
  constructor
  · exact ⟨⟨h.sorted, fun e he => (h.term_le e he).trans ht, h.commit_le⟩, h.indexed,
      h.commitTerm_eq⟩
  · refine ⟨ht, fun heq hne => ?_, le_rfl, rfl⟩
    obtain hv | hv | hv := hv
    · exact absurd heq (Nat.ne_of_gt hv)
    · exact absurd hv hne
    · exact hv

theorem sound_commit (h : l.Sound) {index : ℕ} {e : Entry} (he : l.get index = some e)
    (hle : l.commitIndex ≤ index) :
    Log.Sound { l with commitIndex := index, commitTerm := e.term } ∧
      l.Continues { l with commitIndex := index, commitTerm := e.term } := by
  obtain ⟨i, rfl⟩ : ∃ i, index = i + 1 := by
    cases index with
    | zero => cases he
    | succ i => exact ⟨i, rfl⟩
  have hget : l.entries[i]? = some e := he
  constructor
  · exact ⟨⟨h.sorted, h.term_le, (List.getElem?_eq_some_iff.mp hget).1⟩, h.indexed,
      (lastTerm_take hget).symm⟩
  · exact ⟨le_rfl, fun _ _ => rfl, hle, rfl⟩

/-- New entries from a position on, none of them committed. -/
theorem sound_spliced (h : l.Sound) {kept : ℕ} {new : List Entry} (hr : Replaces l kept new)
    (hc : l.commitIndex ≤ kept) (hterm : ∀ e ∈ new, e.term ≤ l.term) :
    (l.spliced kept new).Sound ∧ l.Continues (l.spliced kept new) := by
  have hkept := hr.kept_le
  have hcommitted : (l.entries.take kept ++ new).take l.commitIndex =
      l.entries.take l.commitIndex := by
    rw [List.take_append_of_le_length (by rw [List.length_take]; omega), List.take_take,
      Nat.min_eq_left hc]
  have hindexed : Indexed (l.entries.take kept ++ new) := by
    intro j e he
    by_cases hj : j < kept
    · rw [List.getElem?_append_left (by rw [List.length_take]; omega),
        List.getElem?_take_of_lt hj] at he
      exact h.indexed j e he
    · rw [List.getElem?_append_right (by rw [List.length_take]; omega), List.length_take,
        Nat.min_eq_left hkept] at he
      have := hr.index _ e he
      omega
  constructor
  · refine ⟨⟨?_, fun e he => ?_, ?_⟩, hindexed, ?_⟩
    · exact List.isChain_append.mpr ⟨h.sorted.take _, hr.sorted, hr.base⟩
    · obtain he | he := List.mem_append.mp he
      · exact h.term_le e (List.mem_of_mem_take he)
      · exact hterm e he
    · change l.commitIndex ≤ (l.entries.take kept ++ new).length
      rw [List.length_append, List.length_take]
      omega
    · change l.commitTerm = Consensus.lastTerm ((l.entries.take kept ++ new).take l.commitIndex)
      rw [hcommitted]
      exact h.commitTerm_eq
  · exact ⟨le_rfl, fun _ _ => rfl, le_rfl, hcommitted⟩

/-- An appended entry is a splice after the last entry. -/
theorem sound_append (h : l.Sound) (command : Option Bytes) :
    Log.Sound { l with entries := l.entries ++ [⟨l.getLastIndex.1 + 1, l.term, command⟩] } ∧
      l.Continues { l with entries := l.entries ++ [⟨l.getLastIndex.1 + 1, l.term, command⟩] } := by
  have hr : Replaces l l.entries.length [⟨l.getLastIndex.1 + 1, l.term, command⟩] := by
    refine ⟨le_rfl, fun j e he => ?_, List.isChain_singleton _, fun b hb e he => ?_⟩
    · obtain ⟨rfl, rfl⟩ : j = 0 ∧ e = ⟨l.getLastIndex.1 + 1, l.term, command⟩ := by
        cases j with
        | zero => exact ⟨rfl, (Option.some.inj he).symm⟩
        | succ j => cases he
      rw [Log.getLastIndex_eq h.indexed]
    · obtain rfl := Option.some.inj he
      rw [List.take_length] at hb
      exact h.term_le b (List.mem_of_getLast? hb)
  have hspliced := sound_spliced h hr h.commit_le (by simp)
  rwa [spliced, List.take_length] at hspliced

/-! ## What the programs of the log return -/

theorem returns_setTermVote (term : ℕ) (vote : Option NodeID) :
    (l.setTermVote term vote).Returns fun l' => l' = { l with term := term, vote := vote } ∧
      l.term ≤ term ∧ (l.term < term ∨ l.vote = none ∨ vote = l.vote) := by
  unfold setTermVote
  refine Program.returns_ensure fun _ => Program.returns_ensure fun hle =>
    Program.returns_ensure fun hvote => ?_
  split_ifs with heq
  · exact Program.returns_pure ⟨by rw [heq.1, heq.2], hle, hvote⟩
  · exact Program.returns_after fun _ => Program.returns_pure ⟨rfl, hle, hvote⟩

theorem returns_append (command : Option Bytes) : (l.append command).Returns fun a =>
    a.1 = { l with entries := l.entries ++ [⟨l.getLastIndex.1 + 1, l.term, command⟩] } := by
  unfold append
  exact Program.returns_ensure fun _ => Program.returns_after fun _ => Program.returns_pure rfl

theorem returns_commit (index : ℕ) : (l.commit index).Returns fun l' => l' = l ∨
    ∃ e, l.get index = some e ∧ l.commitIndex ≤ e.index ∧
      l' = { l with commitIndex := index, commitTerm := e.term } := by
  unfold commit
  cases hget : l.get index with
  | none => exact Program.returns_fail
  | some e =>
      simp only
      split_ifs with hlt heq
      · exact Program.returns_fail
      · exact Program.returns_pure (Or.inl rfl)
      · exact Program.returns_after fun _ =>
          Program.returns_pure (Or.inr ⟨e, rfl, not_lt.mp hlt, rfl⟩)

/-- An accepted splice ends at or below the current term. -/
theorem returns_splice (entries : List Entry) : (l.splice entries).Returns fun _ =>
    ∀ last ∈ entries.getLast?, last.term ≤ l.term := by
  unfold splice
  cases hlast : entries.getLast? with
  | none => exact Program.returns_of_forall fun _ last hmem => nomatch hmem
  | some last =>
  cases hfirst : entries.head? with
  | none => simp [List.head?_eq_none_iff.mp hfirst] at hlast
  | some first =>
      refine Program.returns_ensure fun _ => Program.returns_ensure fun _ =>
        Program.returns_ensure fun _ => Program.returns_ensure fun hle =>
          Program.returns_of_forall fun _ last' hmem => ?_
      rwa [← Option.some.inj hmem]

end Log

/-! ## Opened logs -/

/-- An engine with the log opened on it. -/
structure OpenLog where
  engine : OrderedMap Key Value
  log : StoredLog

/-- A call of an opened log; reopening closes it and loads it from its engine. -/
inductive LogCall where
  | setTermVote (term : ℕ) (vote : Option NodeID)
  | append (command : Option Bytes)
  | splice (entries : List Entry)
  | commit (index : ℕ)
  | reopen

def StoredLog.call (self : StoredLog) : LogCall → LogAction StoredLog
  | .setTermVote term vote => self.setTermVote term vote
  | .append command => Prod.fst <$> self.append command
  | .splice entries => Prod.fst <$> self.splice entries
  | .commit index => self.commit index
  | .reopen => StoredLog.new

namespace OpenLog

/-- The log of an empty engine. -/
def init : OpenLog := ⟨OrderedMap.empty, ⟨0, none, 0, 0, 0, 0⟩⟩

/-- The state after a call that returns. -/
def step (s : OpenLog) (call : LogCall) : Option OpenLog :=
  match s.log.call call s.engine with
  | ⟨.ok log, engine, _⟩ => some ⟨engine, log⟩
  | _ => none

/-- The state after calls that all return. -/
def run (s : OpenLog) : List LogCall → Option OpenLog
  | [] => some s
  | call :: calls => (s.step call).bind fun s => s.run calls

/-- The documented invariants of the log on its engine. -/
structure Sound (s : OpenLog) : Prop where
  /-- Entries are stored at the indexes from 1 to the last one. -/
  contiguous i : (∃ v, s.engine.get (.entry i) = some v) ↔ 0 < i ∧ i ≤ s.log.lastIndex
  stored i v : s.engine.get (.entry i) = some v → ∃ e, v = .entry e ∧ e.index = i ∧
    e.term ≤ s.log.term
  sorted i j a b : i ≤ j → s.engine.get (.entry i) = some (.entry a) →
    s.engine.get (.entry j) = some (.entry b) → a.term ≤ b.term
  /-- The log in memory is what opening the engine would load. -/
  reload : (StoredLog.new s.engine).result = .ok s.log
  commit_le : s.log.commitIndex ≤ s.log.lastIndex
  commitTerm : s.log.commitIndex = 0 ∧ s.log.commitTerm = 0 ∨
    ∃ e, s.engine.get (.entry s.log.commitIndex) = some (.entry e) ∧ e.term = s.log.commitTerm

/-- What never changes again: the term does not decrease, a vote stays as it is within
its term, and committed entries stay in place. -/
structure Continues (s s' : OpenLog) : Prop where
  term_le : s.log.term ≤ s'.log.term
  vote : s'.log.term = s.log.term → s.log.vote ≠ none → s'.log.vote = s.log.vote
  commit_le : s.log.commitIndex ≤ s'.log.commitIndex
  committed i : i ≤ s.log.commitIndex →
    s'.engine.get (.entry i) = s.engine.get (.entry i)

/-- The opened log stands for a log. -/
structure Holds (s : OpenLog) (l : Log) : Prop where
  engine : Represents s.engine l
  log : s.log = StoredLog.of l
  sound : l.Sound

theorem holds_init : init.Holds Log.empty := ⟨represents_empty, rfl, Log.sound_empty⟩

/-- A new log is what opening an empty engine loads. -/
theorem new_empty : (StoredLog.new OrderedMap.empty).result = .ok init.log :=
  represents_empty.yields_new.2.1

section
variable {s s' : OpenLog} {l l' : Log}

theorem Holds.lastIndex (h : s.Holds l) : s.log.lastIndex = l.entries.length := by
  rw [h.log, StoredLog.of, Log.getLastIndex_eq h.sound.indexed]

theorem Holds.get_iff (h : s.Holds l) {i : ℕ} {v : Value} :
    s.engine.get (.entry i) = some v ↔ ∃ e, l.get i = some e ∧ v = .entry e := by
  rw [h.engine.entries, Option.map_eq_some_iff]
  exact ⟨fun ⟨e, he, hv⟩ => ⟨e, he, hv.symm⟩, fun ⟨e, he, hv⟩ => ⟨e, he, hv.symm⟩⟩

/-- The invariants on the engine are those of the log it stands for. -/
theorem Holds.sound_open (h : s.Holds l) : s.Sound where
  contiguous i := by
    rw [h.lastIndex]
    constructor
    · intro ⟨v, hv⟩
      obtain ⟨e, he, _⟩ := h.get_iff.mp hv
      cases i with
      | zero => cases he
      | succ i => exact ⟨i.succ_pos, (List.getElem?_eq_some_iff.mp he).1⟩
    · intro ⟨hpos, hle⟩
      obtain ⟨i, rfl⟩ : ∃ j, i = j + 1 := ⟨i - 1, by omega⟩
      exact ⟨_, h.get_iff.mpr ⟨_, List.getElem?_eq_getElem hle, rfl⟩⟩
  stored i v hv := by
    obtain ⟨e, he, rfl⟩ := h.get_iff.mp hv
    refine ⟨e, rfl, Log.get_index h.sound.indexed he, ?_⟩
    rw [h.log]
    cases i with
    | zero => cases he
    | succ i => exact h.sound.term_le e (List.mem_of_getElem? he)
  sorted i j a b hij ha hb := by
    obtain ⟨a', ha', heq⟩ := h.get_iff.mp ha
    obtain ⟨b', hb', heq'⟩ := h.get_iff.mp hb
    obtain rfl := Value.entry.inj heq
    obtain rfl := Value.entry.inj heq'
    cases i with
    | zero => cases ha'
    | succ i =>
    cases j with
    | zero => cases hb'
    | succ j =>
        obtain ⟨hi, rfl⟩ := List.getElem?_eq_some_iff.mp ha'
        obtain ⟨hj, rfl⟩ := List.getElem?_eq_some_iff.mp hb'
        have hp : l.entries.Pairwise fun a b => a.term ≤ b.term :=
          List.isChain_iff_pairwise.mp h.sound.sorted
        obtain hlt | heq := Nat.lt_or_eq_of_le (Nat.le_of_succ_le_succ hij)
        · exact List.pairwise_iff_getElem.mp hp i j hi hj hlt
        · subst heq
          exact le_rfl
  reload := by
    rw [h.engine.yields_new.2.1, h.log]
  commit_le := by
    rw [h.lastIndex, h.log]
    exact h.sound.commit_le
  commitTerm := by
    have hle := h.sound.commit_le
    have hterm := h.sound.commitTerm_eq
    rw [h.log]
    change l.commitIndex = 0 ∧ l.commitTerm = 0 ∨ ∃ e, s.engine.get (.entry l.commitIndex) =
      some (.entry e) ∧ e.term = l.commitTerm
    cases hc : l.commitIndex with
    | zero =>
        rw [hc] at hterm
        exact Or.inl ⟨rfl, hterm⟩
    | succ i =>
        rw [hc] at hle hterm
        have hget : l.entries[i]? = some l.entries[i] := List.getElem?_eq_getElem hle
        exact Or.inr ⟨l.entries[i], h.get_iff.mpr ⟨_, hget, rfl⟩,
          by rw [hterm, lastTerm_take hget]⟩

theorem Holds.continues (h : s.Holds l) (h' : s'.Holds l') (hc : l.Continues l') :
    s.Continues s' := by
  refine ⟨?_, ?_, ?_, fun i hi => ?_⟩
  · rw [h.log, h'.log]
    exact hc.term_le
  · rw [h.log, h'.log]
    exact hc.vote
  · rw [h.log, h'.log]
    exact hc.commit_le
  · rw [h.log] at hi
    rw [h.engine.entries, h'.engine.entries]
    cases i with
    | zero => rfl
    | succ i =>
        have hi : i < l.commitIndex := hi
        have hget := congrArg (fun entries => entries[i]?) hc.committed
        simp only [List.getElem?_take_of_lt hi] at hget
        rw [Log.get, Log.get, hget]

/-- A call that refines a call of the log, and returns. -/
theorem Refines.returned {α β : Type} {m : OrderedMap Key Value} {x : LogAction β} {y : Action α}
    {R : α → β → List (Op Key Value) → Prop} {P : α → Prop} (h : Refines m x y R)
    (hy : y.Returns P) {b : β} (hx : (x m).result = .ok b) :
    ∃ a, P a ∧ R a b (x m).events ∧ (x m).state = replay m (x m).events := by
  obtain ⟨hstate, hr⟩ := h []
  cases hres : (y []).result with
  | error c =>
      rw [hres, hx] at hr
      cases hr
  | ok a =>
      rw [hres, hx] at hr
      obtain ⟨b', hb, hr⟩ := hr
      obtain rfl := Except.ok.inj hb
      exact ⟨a, hy.apply hres, hr, hstate⟩

/-- What a program returns before its second component is dropped. -/
theorem fst_returned {α β : Type} {x : LogAction (α × β)} {m : OrderedMap Key Value} {a : α}
    (h : ((Prod.fst <$> x) m).result = .ok a) :
    ∃ b, (x m).result = .ok (a, b) ∧ ((Prod.fst <$> x) m).state = (x m).state := by
  change (Program.bind x (fun p => Program.pure p.1) m).result = .ok a at h
  change ∃ b, _ ∧ (Program.bind x (fun p => Program.pure p.1) m).state = _
  unfold Program.bind at h ⊢
  cases hx : x m with
  | mk r s es =>
      rw [hx] at h
      cases r with
      | error c => cases h
      | ok p =>
          obtain rfl := Except.ok.inj h
          exact ⟨p.2, rfl, rfl⟩

/-- An engine represents one log only. -/
theorem Represents.unique {m : OrderedMap Key Value} (h : Represents m l)
    (h' : Represents m l') : l = l' := by
  have hterm : l.term = l'.term ∧ l.vote = l'.vote := by
    obtain ht | ⟨ht, hz⟩ := h.termVote <;> obtain ht' | ⟨ht', hz'⟩ := h'.termVote <;>
      rw [ht] at ht' <;> simp_all
  have hcommit : l.commitIndex = l'.commitIndex ∧ l.commitTerm = l'.commitTerm := by
    obtain ht | ⟨ht, hz⟩ := h.commitIndex <;> obtain ht' | ⟨ht', hz'⟩ := h'.commitIndex <;>
      rw [ht] at ht' <;> simp_all
  have hentries : l.entries = l'.entries := by
    apply List.ext_getElem?
    intro i
    have hget := (h.entries (i + 1)).symm.trans (h'.entries (i + 1))
    exact Option.map_injective (fun _ _ => Value.entry.inj) hget
  cases l
  cases l'
  simp_all

/-- An accepted splice keeps the invariants. -/
theorem Holds.splice (h : s.Holds l) {entries : List Entry} {r : StoredLog × ℕ}
    (hr : ((StoredLog.of l).splice entries s.engine).result = .ok r) :
    ∃ l', Represents ((StoredLog.of l).splice entries s.engine).state l' ∧ r.1 = .of l' ∧
      l'.Sound ∧ l.Continues l' := by
  obtain ⟨a, hterm, ⟨rfl, hrep, hops, hnew⟩, hstate⟩ :=
    Refines.returned (refines_splice h.engine entries) (Log.returns_splice entries) hr
  refine ⟨a.1, by rwa [hstate], rfl, ?_⟩
  rw [hops] at hrep
  by_cases hnil : l.fresh entries = []
  · have hsame : l = a.1 := Represents.unique h.engine (by rwa [hnil] at hrep)
    rw [← hsame]
    exact ⟨h.sound, Log.Continues.refl l⟩
  obtain ⟨kept, hkept, hreplaces⟩ := hnew hnil
  rw [Represents.unique hrep (hreplaces.represents h.engine hnil)]
  refine Log.sound_spliced h.sound hreplaces hkept fun e he => ?_
  -- the new entries end with the last spliced entry
  obtain ⟨last, hlast⟩ : ∃ e, (l.fresh entries).getLast? = some e :=
    ⟨_, List.getLast?_eq_some_getLast hnil⟩
  have hsuffix : l.fresh entries <:+ entries := List.dropWhile_suffix _
  have hmem : last ∈ entries.getLast? := by
    obtain ⟨skipped, heq⟩ := hsuffix
    rw [← heq, List.getLast?_append, hlast]
    rfl
  have hp : (l.fresh entries).Pairwise fun a b => a.term ≤ b.term :=
    List.isChain_iff_pairwise.mp hreplaces.sorted
  have hle : e.term ≤ last.term := by
    obtain ⟨init, heq⟩ := List.getLast?_eq_some_iff.mp hlast
    rw [heq] at hp he
    obtain he | he := List.mem_append.mp he
    · exact (List.pairwise_append.mp hp).2.2 e he last (List.mem_singleton.mpr rfl)
    · rw [List.mem_singleton.mp he]
  exact hle.trans (hterm last hmem)

/-- Every call that returns keeps the invariants. -/
theorem Holds.call (h : s.Holds l) {c : LogCall} {log : StoredLog}
    (hr : (s.log.call c s.engine).result = .ok log) :
    ∃ l', Represents (s.log.call c s.engine).state l' ∧ log = .of l' ∧ l'.Sound ∧
      l.Continues l' := by
  rw [h.log] at hr ⊢
  cases c with
  | setTermVote term vote =>
      obtain ⟨l', ⟨rfl, hle, hvote⟩, ⟨rfl, hrep⟩, hstate⟩ :=
        Refines.returned (refines_setTermVote h.engine term vote)
          (Log.returns_setTermVote term vote) hr
      exact ⟨_, hstate ▸ hrep, rfl, Log.sound_setTermVote h.sound hle hvote⟩
  | append command =>
      obtain ⟨index, hr, hmap⟩ := fst_returned hr
      obtain ⟨a, ha, ⟨heq, hrep⟩, hstate⟩ := Refines.returned (refines_append h.engine command)
        (Log.returns_append command) hr
      refine ⟨a.1, ?_, (Prod.mk.inj heq).1, ?_⟩
      · change Represents ((Prod.fst <$> (StoredLog.of l).append command) s.engine).state a.1
        rwa [hmap, hstate]
      · rw [ha]
        exact Log.sound_append h.sound command
  | splice entries =>
      obtain ⟨index, hr, hmap⟩ := fst_returned hr
      obtain ⟨l', hrep, heq, hsound⟩ := h.splice hr
      refine ⟨l', ?_, heq, hsound⟩
      change Represents ((Prod.fst <$> (StoredLog.of l).splice entries) s.engine).state l'
      rwa [hmap]
  | commit index =>
      obtain ⟨l', hl', ⟨rfl, hrep⟩, hstate⟩ := Refines.returned (refines_commit h.engine index)
        (Log.returns_commit index) hr
      refine ⟨l', hstate ▸ hrep, rfl, ?_⟩
      obtain rfl | ⟨e, hget, hle, rfl⟩ := hl'
      · exact ⟨h.sound, Log.Continues.refl _⟩
      · rw [Log.get_index h.sound.indexed hget] at hle
        exact Log.sound_commit h.sound hget hle
  | reopen =>
      obtain ⟨hstate, hres, hops⟩ := h.engine.yields_new
      obtain rfl := Except.ok.inj (hres.symm.trans hr)
      refine ⟨l, ?_, rfl, h.sound, Log.Continues.refl l⟩
      change Represents (StoredLog.new s.engine).state l
      rw [hstate, hops]
      exact h.engine

theorem Holds.step (h : s.Holds l) {c : LogCall} (hs : s.step c = some s') :
    ∃ l', s'.Holds l' ∧ l.Continues l' := by
  unfold OpenLog.step at hs
  split at hs
  case h_2 => cases hs
  case h_1 log engine events heq =>
      cases hs
      obtain ⟨l', hrep, hlog, hsound, hc⟩ := h.call (show (s.log.call c s.engine).result = .ok log by rw [heq])
      rw [heq] at hrep
      exact ⟨l', ⟨hrep, hlog, hsound⟩, hc⟩

theorem Holds.run (h : s.Holds l) {calls : List LogCall} (hs : s.run calls = some s') :
    ∃ l', s'.Holds l' ∧ l.Continues l' := by
  induction calls generalizing s l with
  | nil =>
      cases hs
      exact ⟨l, h, Log.Continues.refl l⟩
  | cons c calls ih =>
      obtain ⟨s₁, hs₁, hs⟩ := Option.bind_eq_some_iff.mp hs
      obtain ⟨l₁, h₁, hc⟩ := h.step hs₁
      obtain ⟨l', h', hc'⟩ := ih h₁ hs
      exact ⟨l', h', hc.trans hc'⟩

end

/-- Over whole runs, the log keeps its documented invariants, and whatever follows keeps
its term, its vote in the term and its committed entries. -/
theorem sound_of_run {calls later : List LogCall} {s s' : OpenLog}
    (h : init.run calls = some s) (h' : s.run later = some s') :
    s.Sound ∧ s'.Sound ∧ s.Continues s' := by
  obtain ⟨l, hl, _⟩ := holds_init.run h
  obtain ⟨l', hl', hc⟩ := hl.run h'
  exact ⟨hl.sound_open, hl'.sound_open, hl.continues hl' hc⟩

/-- A vote, two entries of which one is committed, and a splice that replaces the other
one after the log was reopened. -/
theorem sound_of_run_splice : ∃ s s', init.run [.setTermVote 1 (some 2), .append none,
      .append (some [7]), .commit 1] = some s ∧
    s.run [.reopen, .setTermVote 2 none, .splice [⟨2, 2, some [8]⟩, ⟨3, 2, none⟩]] = some s' ∧
    s.Sound ∧ s'.Sound ∧ s.Continues s' := by
  obtain ⟨s, hs⟩ := Option.isSome_iff_exists.mp (show (init.run [.setTermVote 1 (some 2),
    .append none, .append (some [7]), .commit 1]).isSome by decide +kernel)
  obtain ⟨s', hs'⟩ := Option.isSome_iff_exists.mp (show ((init.run [.setTermVote 1 (some 2),
    .append none, .append (some [7]), .commit 1]).bind fun s => s.run [.reopen,
      .setTermVote 2 none, .splice [⟨2, 2, some [8]⟩, ⟨3, 2, none⟩]]).isSome by decide +kernel)
  rw [hs] at hs'
  exact ⟨s, s', hs, hs', sound_of_run hs hs'⟩

end OpenLog
end ToyDB.Raft
