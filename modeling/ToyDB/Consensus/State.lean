import Mathlib.Data.Finset.Card
import Mathlib.Data.List.Infix
import Mathlib.Tactic.Common

/-!
# Leader-based replication of a log, in the abstract

Nodes pass through increasing terms, vote at most once per term, and copy a
prefix of the log of the one node a majority voted for. The state of a node
records its durable state and its own past: the votes it cast with the log it
held then, the terms it led with its log at the election and its log as leader,
the prefixes it acknowledged, and how far it committed. Everything but the
current term and log only grows, so facts about it stay true.

Entries are of an arbitrary type with a term; positions count from zero.
-/
namespace ToyDB.Consensus

/-- Entries that carry the term in which they were proposed. -/
class Stamped (E : Type) where
  term : E → ℕ

export Stamped (term)

variable {N E : Type}

/-- The term of the last entry, zero for the empty log. -/
def lastTerm [Stamped E] (l : List E) : ℕ := (l.getLast?.map term).getD 0

/-- The candidate's log `c` is at least as up to date as the voter's log `v`. -/
def UpToDate [Stamped E] (c v : List E) : Prop :=
  lastTerm v < lastTerm c ∨ lastTerm v = lastTerm c ∧ v.length ≤ c.length

/-- The durable state of one node together with its history. -/
structure Local (N E : Type) where
  term : ℕ
  log : List E
  voted : ℕ → Option N
  voteLog : ℕ → List E
  /-- The log with which the node won the election of a term. -/
  start : ℕ → Option (List E)
  /-- The node's log as leader of a term. -/
  full : ℕ → List E
  /-- The length of the leader's log the node has acknowledged in a term. -/
  acked : ℕ → ℕ
  commitTo : ℕ → ℕ

/-- A node before its first step. -/
def Local.fresh : Local N E where
  term := 0
  log := []
  voted := fun _ => none
  voteLog := fun _ => []
  start := fun _ => none
  full := fun _ => []
  acked := fun _ => 0
  commitTo := fun _ => 0

abbrev State (N E : Type) := N → Local N E

/-- Node `n` won the election of term `T`. -/
def Led (g : State N E) (n : N) (T : ℕ) : Prop := ((g n).start T).isSome

/-- A strict majority of the members. -/
def IsQuorum (members Q : Finset N) : Prop := Q ⊆ members ∧ members.card < 2 * Q.card

theorem IsQuorum.inter {members Q R : Finset N} (hQ : IsQuorum members Q)
    (hR : IsQuorum members R) : ∃ v, v ∈ Q ∧ v ∈ R := by
  classical
  by_contra h
  have hd : Disjoint Q R := Finset.disjoint_left.mpr fun v hv hv' => h ⟨v, hv, hv'⟩
  have hc := Finset.card_le_card (Finset.union_subset hQ.1 hR.1)
  rw [Finset.card_union_of_disjoint hd] at hc
  have h₁ := hQ.2
  have h₂ := hR.2
  omega

/-- Every prefix of the log that ends with an entry of term `T` is a prefix of
the log of the leader of term `T`. -/
def Grounded [Stamped E] (g : State N E) (l : List E) : Prop :=
  ∀ j e, l[j]? = some e → ∃ n, Led g n (term e) ∧ l.take (j + 1) <+: (g n).full (term e)

/-- The log still starts with `p`, or a leader of a term in `(T, hi)` was elected
with a log that does not. -/
def Holds (g : State N E) (T hi : ℕ) (p l : List E) : Prop :=
  p <+: l ∨ ∃ n U s, T < U ∧ U < hi ∧ (g n).start U = some s ∧ ¬ p <+: s

/-- The prefix is part of what some leader of a term up to `T` has committed. -/
def Chosen (g : State N E) (T : ℕ) (p : List E) : Prop :=
  p = [] ∨ ∃ n U, U ≤ T ∧ Led g n U ∧ p <+: ((g n).full U).take ((g n).commitTo U)

section Steps
variable [Stamped E] [DecidableEq N] (members : Finset N)

/-- What node `i` can do. Each step changes the state of node `i` only. -/
inductive Step (i : N) (g : State N E) : State N E → Prop where
  /-- Enter a later term. -/
  | advance (T : ℕ) : (g i).term < T →
      Step i g (Function.update g i { g i with term := T })
  /-- Enter a later term as a candidate, voting for itself. -/
  | campaign (T : ℕ) : (g i).term < T →
      Step i g (Function.update g i { g i with
        term := T
        voted := Function.update (g i).voted T (some i)
        voteLog := Function.update (g i).voteLog T (g i).log })
  /-- Vote for a candidate of the current term with an up-to-date log. -/
  | vote (c : N) : (g i).voted (g i).term = none → (g c).voted (g i).term = some c →
      UpToDate ((g c).voteLog (g i).term) (g i).log →
      Step i g (Function.update g i { g i with
        voted := Function.update (g i).voted (g i).term (some c)
        voteLog := Function.update (g i).voteLog (g i).term (g i).log })
  /-- Become leader with the votes of a quorum. -/
  | elect (Q : Finset N) : IsQuorum members Q →
      (∀ v ∈ Q, (g v).voted (g i).term = some i) → (g i).voted (g i).term = some i →
      (g i).log = (g i).voteLog (g i).term → (g i).start (g i).term = none →
      Step i g (Function.update g i { g i with
        start := Function.update (g i).start (g i).term (some (g i).log)
        full := Function.update (g i).full (g i).term (g i).log })
  /-- Append an entry of the current term as leader. -/
  | append (e : E) : Led g i (g i).term → term e = (g i).term →
      Step i g (Function.update g i { g i with
        log := (g i).log ++ [e]
        full := Function.update (g i).full (g i).term ((g i).log ++ [e]) })
  /-- Replace the log by a prefix of the leader's log, keeping what agrees with it. -/
  | accept (n : N) (l : List E) : Led g n (g i).term → l <+: (g n).full (g i).term →
      (∀ p, p <+: (g i).log → p <+: (g n).full (g i).term → p <+: l) →
      Step i g (Function.update g i { g i with log := l })
  /-- Acknowledge a prefix of the leader's log. -/
  | ack (n : N) (k : ℕ) : Led g n (g i).term → k ≤ ((g n).full (g i).term).length →
      ((g n).full (g i).term).take k <+: (g i).log →
      Step i g (Function.update g i { g i with
        acked := Function.update (g i).acked (g i).term (max ((g i).acked (g i).term) k) })
  /-- Commit, as leader, up to an entry of the current term that a quorum has
  acknowledged. -/
  | commit (k : ℕ) (e : E) (Q : Finset N) : Led g i (g i).term → IsQuorum members Q →
      (∀ v ∈ Q, k < (g v).acked (g i).term) →
      ((g i).full (g i).term)[k]? = some e → term e = (g i).term →
      (g i).commitTo (g i).term ≤ k + 1 →
      Step i g (Function.update g i { g i with
        commitTo := Function.update (g i).commitTo (g i).term (k + 1) })

end Steps

/-! ## What only grows -/

theorem getElem?_of_initial {p l : List E} (h : p <+: l) {j : ℕ} {e : E} (he : p[j]? = some e) :
    l[j]? = some e := by
  obtain ⟨t, rfl⟩ := h
  rw [List.getElem?_append_left (List.getElem?_eq_some_iff.mp he).1, he]

/-- The history of a node is continued. -/
structure Local.Grows (x y : Local N E) : Prop where
  term : x.term ≤ y.term
  voted : ∀ {T c}, x.voted T = some c → y.voted T = some c
  voteLog : ∀ {T c}, x.voted T = some c → y.voteLog T = x.voteLog T
  start : ∀ {T s}, x.start T = some s → y.start T = some s
  full : ∀ {T}, (x.start T).isSome → x.full T <+: y.full T
  acked : ∀ T, x.acked T ≤ y.acked T
  commitTo : ∀ T, x.commitTo T ≤ y.commitTo T

theorem Local.Grows.refl (x : Local N E) : x.Grows x where
  term := le_rfl
  voted h := h
  voteLog _ := rfl
  start h := h
  full _ := List.prefix_rfl
  acked _ := le_rfl
  commitTo _ := le_rfl

/-- The histories of `g` are continued in `g'`. -/
def Grows (g g' : State N E) : Prop := ∀ n, (g n).Grows (g' n)

theorem Grows.refl (g : State N E) : Grows g g := fun n => .refl (g n)

theorem Grows.led {g g' : State N E} (h : Grows g g') {n : N} {T : ℕ} (hl : Led g n T) :
    Led g' n T := by
  obtain ⟨s, hs⟩ := Option.isSome_iff_exists.mp hl
  exact Option.isSome_iff_exists.mpr ⟨s, (h n).start hs⟩

theorem Grows.trans {g g' g'' : State N E} (h : Grows g g') (h' : Grows g' g'') :
    Grows g g'' := fun n => {
  term := (h n).term.trans (h' n).term
  voted := fun hc => (h' n).voted ((h n).voted hc)
  voteLog := fun hc => ((h' n).voteLog ((h n).voted hc)).trans ((h n).voteLog hc)
  start := fun hs => (h' n).start ((h n).start hs)
  full := fun hl => ((h n).full hl).trans ((h' n).full (h.led hl))
  acked := fun T => ((h n).acked T).trans ((h' n).acked T)
  commitTo := fun T => ((h n).commitTo T).trans ((h' n).commitTo T) }

theorem Grows.update [DecidableEq N] {g : State N E} {i : N} {x : Local N E}
    (h : (g i).Grows x) : Grows g (Function.update g i x) := by
  intro n
  by_cases hn : n = i
  · subst hn; simpa using h
  · simpa [Function.update_of_ne hn] using Local.Grows.refl (g n)

theorem Grounded.grows [Stamped E] {g g' : State N E} (h : Grows g g') {l : List E}
    (hl : Grounded g l) : Grounded g' l := by
  intro j e he
  obtain ⟨n, hn, hp⟩ := hl j e he
  exact ⟨n, h.led hn, hp.trans ((h n).full hn)⟩

theorem Grounded.initial [Stamped E] {g : State N E} {l p : List E} (hl : Grounded g l)
    (hp : p <+: l) : Grounded g p := by
  intro j e he
  obtain ⟨n, hn, hf⟩ := hl j e (getElem?_of_initial hp he)
  exact ⟨n, hn, ((hp.take (j + 1))).trans hf⟩

theorem Holds.grows {g g' : State N E} (h : Grows g g') {T hi : ℕ} {p l : List E}
    (hl : Holds g T hi p l) : Holds g' T hi p l := by
  rcases hl with hl | ⟨n, U, s, h₁, h₂, h₃, h₄⟩
  · exact Or.inl hl
  · exact Or.inr ⟨n, U, s, h₁, h₂, (h n).start h₃, h₄⟩

theorem Holds.mono {g : State N E} {T hi hi' : ℕ} {p l : List E} (hl : Holds g T hi p l)
    (h : hi ≤ hi') : Holds g T hi' p l := by
  rcases hl with hl | ⟨n, U, s, h₁, h₂, h₃, h₄⟩
  · exact Or.inl hl
  · exact Or.inr ⟨n, U, s, h₁, h₂.trans_le h, h₃, h₄⟩

theorem Chosen.grows {g g' : State N E} (h : Grows g g') {T T' : ℕ} {p : List E}
    (hp : Chosen g T p) (hT : T ≤ T') : Chosen g' T' p := by
  rcases hp with rfl | ⟨n, U, hU, hl, hp⟩
  · exact Or.inl rfl
  · refine Or.inr ⟨n, U, hU.trans hT, h.led hl, hp.trans ?_⟩
    exact (((h n).full hl).take _).trans (List.take_prefix_take_left ((h n).commitTo U))

theorem Chosen.initial {g : State N E} {T : ℕ} {p q : List E} (h : Chosen g T q) (hp : p <+: q) :
    Chosen g T p := by
  rcases h with rfl | ⟨n, U, hU, hl, hq⟩
  · exact Or.inl (List.prefix_nil.mp hp)
  · exact Or.inr ⟨n, U, hU, hl, hp.trans hq⟩

end ToyDB.Consensus
