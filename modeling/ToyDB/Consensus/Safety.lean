import ToyDB.Consensus.State

/-!
# Safety of leader-based replication

One invariant holds in every state the steps can reach. Its core says what
happened to an acknowledged prefix: either the node still holds it, or a leader
of a later term was elected with a log that lacks it. By induction on terms the
second case never arises for a prefix that a quorum acknowledged, so every later
leader starts with it.
-/
namespace ToyDB.Consensus
variable {N E : Type} [Stamped E] {members : Finset N}

/-- At the time node `v` voted in term `T` it held what it had acknowledged, or a
leader of an earlier term lacked it. -/
def Kept (g : State N E) (v : N) (T : ℕ) : Prop :=
  ∀ U m k, U < T → Led g m U → k ≤ (g v).acked U →
    Holds g U T (((g m).full U).take k) ((g v).voteLog T)

structure Inv (members : Finset N) (g : State N E) : Prop where
  voted_le : ∀ {n T c}, (g n).voted T = some c → 0 < T ∧ T ≤ (g n).term
  vote_cand : ∀ {n T c}, (g n).voted T = some c →
    (g c).voted T = some c ∧ UpToDate ((g c).voteLog T) ((g n).voteLog T)
  cand_lt : ∀ {c T}, (g c).voted T = some c → ∀ e ∈ (g c).voteLog T, term e < T
  vote_grounded : ∀ {n T c}, (g n).voted T = some c → Grounded g ((g n).voteLog T)
  start_vote : ∀ {n T s}, (g n).start T = some s →
    (g n).voted T = some n ∧ s = (g n).voteLog T
  start_quorum : ∀ {n T s}, (g n).start T = some s →
    ∃ Q, IsQuorum members Q ∧ ∀ v ∈ Q, (g v).voted T = some n ∧ Kept g v T
  full_start : ∀ {n T s}, (g n).start T = some s →
    ∃ own, (g n).full T = s ++ own ∧ ∀ e ∈ own, term e = T
  full_grounded : ∀ {n T}, Led g n T → Grounded g ((g n).full T)
  lead_log : ∀ {n}, Led g n (g n).term → (g n).log = (g n).full (g n).term
  log_grounded : ∀ n, Grounded g (g n).log
  log_le : ∀ n, ∀ e ∈ (g n).log, term e ≤ (g n).term
  acked_le : ∀ {n T}, 0 < (g n).acked T →
    T ≤ (g n).term ∧ ∃ m, Led g m T ∧ (g n).acked T ≤ ((g m).full T).length
  log_holds : ∀ {n m T k}, Led g m T → k ≤ (g n).acked T →
    Holds g T ((g n).term + 1) (((g m).full T).take k) (g n).log
  vote_holds : ∀ {n c U m T k}, (g n).voted U = some c → T < U → Led g m T →
    k ≤ (g n).acked T → Holds g T (U + 1) (((g m).full T).take k) ((g n).voteLog U)
  commit_quorum : ∀ {n T}, 0 < (g n).commitTo T → Led g n T ∧ ∃ e Q, IsQuorum members Q ∧
    (∀ v ∈ Q, (g n).commitTo T ≤ (g v).acked T) ∧
    ((g n).full T)[(g n).commitTo T - 1]? = some e ∧ term e = T

theorem inv_init : Inv members (fun _ => Local.fresh : State N E) := by
  constructor <;> simp [Local.fresh, Led, Grounded]

/-! ## Consequences of the invariant in one state -/

section State
variable {g : State N E} (h : Inv members g)
include h

/-- Two candidates with a quorum of votes in one term are the same node. -/
theorem Inv.unique_winner {Q : Finset N} (hQ : IsQuorum members Q) {i n : N} {T : ℕ}
    (hv : ∀ v ∈ Q, (g v).voted T = some i) (hn : Led g n T) : n = i := by
  obtain ⟨s, hs⟩ := Option.isSome_iff_exists.mp hn
  obtain ⟨R, hR, hr⟩ := h.start_quorum hs
  obtain ⟨v, hvQ, hvR⟩ := hQ.inter hR
  have h₁ := hv v hvQ
  rw [(hr v hvR).1] at h₁
  exact Option.some.inj h₁

/-- Election safety: a term has at most one leader. -/
theorem Inv.unique_leader {n m : N} {T : ℕ} (hn : Led g n T) (hm : Led g m T) : n = m := by
  obtain ⟨s, hs⟩ := Option.isSome_iff_exists.mp hm
  obtain ⟨Q, hQ, hq⟩ := h.start_quorum hs
  exact h.unique_winner hQ (fun v hv => (hq v hv).1) hn

theorem Inv.led_le {n : N} {T : ℕ} (hn : Led g n T) : 0 < T ∧ T ≤ (g n).term := by
  obtain ⟨s, hs⟩ := Option.isSome_iff_exists.mp hn
  exact h.voted_le (h.start_vote hs).1

theorem Inv.start_lt {n : N} {T : ℕ} {s : List E} (hs : (g n).start T = some s) :
    ∀ e ∈ s, term e < T := by
  obtain ⟨hv, rfl⟩ := h.start_vote hs
  exact h.cand_lt hv

theorem Inv.full_le {n : N} {T : ℕ} (hn : Led g n T) : ∀ e ∈ (g n).full T, term e ≤ T := by
  obtain ⟨s, hs⟩ := Option.isSome_iff_exists.mp hn
  obtain ⟨own, hf, ho⟩ := h.full_start hs
  intro e he
  rw [hf, List.mem_append] at he
  rcases he with he | he
  · exact (h.start_lt hs e he).le
  · exact (ho e he).le

theorem Inv.start_initial {n : N} {T : ℕ} {s : List E} (hs : (g n).start T = some s) :
    s <+: (g n).full T := by
  obtain ⟨own, hf, _⟩ := h.full_start hs
  exact ⟨own, hf.symm⟩

/-- A position with an entry of the leader's own term is past the start of its log. -/
theorem Inv.start_length {n : N} {T j : ℕ} {s : List E} {e : E}
    (hs : (g n).start T = some s) (he : ((g n).full T)[j]? = some e) (ht : term e = T) :
    s.length ≤ j := by
  by_contra hj
  obtain ⟨own, hf, _⟩ := h.full_start hs
  rw [hf, List.getElem?_append_left (by omega)] at he
  have := h.start_lt hs e (List.mem_of_getElem? he)
  omega

/-- Log matching: grounded logs that agree on a position's term agree up to it. -/
theorem Inv.matching {l l' : List E} (hl : Grounded g l) (hl' : Grounded g l') {j : ℕ} {e e' : E}
    (he : l[j]? = some e) (he' : l'[j]? = some e') (ht : term e = term e') :
    l.take (j + 1) = l'.take (j + 1) := by
  obtain ⟨n, hn, hp⟩ := hl j e he
  obtain ⟨m, hm, hp'⟩ := hl' j e' he'
  obtain rfl := h.unique_leader hn (ht ▸ hm)
  rw [← ht] at hp'
  have hlen : (l.take (j + 1)).length = (l'.take (j + 1)).length := by
    have := (List.getElem?_eq_some_iff.mp he).1
    have := (List.getElem?_eq_some_iff.mp he').1
    simp only [List.length_take]
    omega
  exact (List.prefix_of_prefix_length_le hp hp' hlen.le).eq_of_length hlen

/-- A grounded log agrees with the leader's log up to an entry of the leader's term. -/
theorem Inv.prefix_full {l : List E} (hl : Grounded g l) {n : N} {T j : ℕ} {e : E}
    (hn : Led g n T) (he : l[j]? = some e) (ht : term e = T) :
    l.take (j + 1) <+: (g n).full T := by
  obtain ⟨m, hm, hp⟩ := hl j e he
  obtain rfl := h.unique_leader hn (ht ▸ hm)
  exact ht ▸ hp

/-- Terms never decrease along a grounded log. -/
theorem Inv.terms_sorted {l : List E} (hl : Grounded g l) {i j : ℕ} {e e' : E}
    (he : l[i]? = some e) (he' : l[j]? = some e') (hij : i ≤ j) : term e ≤ term e' := by
  obtain ⟨n, hn, hp⟩ := hl j e' he'
  apply h.full_le hn
  apply List.mem_of_getElem? (i := i)
  exact getElem?_of_initial hp (by rw [List.getElem?_take_of_lt (by omega), he])

theorem Inv.le_lastTerm {l : List E} (hl : Grounded g l) {i : ℕ} {e : E} (he : l[i]? = some e) :
    term e ≤ lastTerm l := by
  have hi := (List.getElem?_eq_some_iff.mp he).1
  have hlast : l[l.length - 1]? = some (l.getLast (List.ne_nil_of_length_pos (by omega))) := by
    rw [← List.getLast?_eq_getElem?, List.getLast?_eq_some_getLast]
  have := h.terms_sorted hl he hlast (by omega)
  rwa [lastTerm, List.getLast?_eq_getElem?, hlast]

end State

theorem Grounded.concat {g : State N E} {l : List E} {e : E} {n : N} (hl : Grounded g l)
    (hn : Led g n (term e)) (hp : l ++ [e] <+: (g n).full (term e)) : Grounded g (l ++ [e]) := by
  intro j x hx
  rcases Nat.lt_or_ge j l.length with hj | hj
  · rw [List.getElem?_append_left hj] at hx
    rw [List.take_append_of_le_length hj]
    exact hl j x hx
  · obtain rfl : j = l.length := by
      have := (List.getElem?_eq_some_iff.mp hx).1
      simp only [List.length_append, List.length_singleton] at this
      omega
    obtain rfl : e = x := by simpa using hx
    exact ⟨n, hn, by rwa [List.take_of_length_le (by simp)]⟩

/-- The last entry of a nonempty log realises its last term. -/
theorem exists_last {l : List E} (hl : l ≠ []) :
    ∃ e, l[l.length - 1]? = some e ∧ term e = lastTerm l :=
  ⟨l.getLast hl, by rw [← List.getLast?_eq_getElem?, List.getLast?_eq_some_getLast],
    by simp [lastTerm, List.getLast?_eq_some_getLast hl]⟩

/-- An up-to-date candidate log carries a prefix on from the voter's log, provided
that leaders of the terms in between carried it. -/
theorem Inv.carry {g : State N E} (h : Inv members g) {c v p : List E} (hc : Grounded g c)
    (hv : Grounded g v) (hu : UpToDate c v) {T hi j : ℕ} {e : E} (hpe : p[j]? = some e)
    (hpt : term e = T) (hp : p <+: v) (hlt : ∀ x ∈ c, term x < hi)
    (ih : ∀ U n s, T < U → U < hi → (g n).start U = some s → p <+: s) : p <+: c := by
  have hT : T ≤ lastTerm v := hpt ▸ h.le_lastTerm hv (getElem?_of_initial hp hpe)
  have hv0 : v ≠ [] := by
    rintro rfl
    rw [List.prefix_nil.mp hp] at hpe
    simp at hpe
  have hc0 : c ≠ [] := by
    rintro rfl
    rcases hu with hu | ⟨_, hu⟩
    · simp [lastTerm] at hu
    · exact hv0 (List.length_eq_zero_iff.mp (by simpa using hu))
  obtain ⟨x, hx, hxt⟩ := exists_last hc0
  have hcl : c.take (c.length - 1 + 1) = c := by
    rw [Nat.sub_add_cancel (List.length_pos_of_ne_nil hc0), List.take_length]
  obtain ⟨n, hn, hcf⟩ := hc _ x hx
  rw [hcl] at hcf
  rcases hu with hu | ⟨hu, hlen⟩
  · -- the candidate's last entry comes from a leader elected after term `T`
    obtain ⟨s, hs⟩ := Option.isSome_iff_exists.mp hn
    have hps : p <+: s :=
      ih (term x) n s (by omega) (hlt x (List.mem_of_getElem? hx)) hs
    have hsl := h.start_length hs (getElem?_of_initial hcf hx) rfl
    have hsc : s <+: c := List.prefix_of_prefix_length_le (h.start_initial hs) hcf (by omega)
    exact hps.trans hsc
  · -- both logs end with entries of one leader, so the longer contains the shorter
    obtain ⟨y, hy, hyt⟩ := exists_last hv0
    have hvf := h.prefix_full hv hn hy (by rw [hyt, hxt, hu])
    rw [Nat.sub_add_cancel (List.length_pos_of_ne_nil hv0), List.take_length] at hvf
    exact hp.trans (List.prefix_of_prefix_length_le hvf hcf hlen)

/-- Leader completeness: what a quorum acknowledged up to an entry of the term is
the beginning of the log of every leader elected later. -/
theorem Inv.complete {g : State N E} (h : Inv members g) {n : N} {T k : ℕ} {e : E} {Q : Finset N}
    (hn : Led g n T) (hQ : IsQuorum members Q) (hack : ∀ v ∈ Q, k + 1 ≤ (g v).acked T)
    (he : ((g n).full T)[k]? = some e) (ht : term e = T) :
    ∀ U m s, T < U → (g m).start U = some s → ((g n).full T).take (k + 1) <+: s := by
  intro U
  induction U using Nat.strong_induction_on with
  | _ U ih =>
      intro m s hTU hs
      obtain ⟨R, hR, hr⟩ := h.start_quorum hs
      obtain ⟨v, hvQ, hvR⟩ := hQ.inter hR
      obtain ⟨hvote, hkept⟩ := hr v hvR
      have hp : ((g n).full T).take (k + 1) <+: (g v).voteLog U := by
        rcases hkept T n (k + 1) hTU hn (hack v hvQ) with hp | ⟨m', U', s', h₁, h₂, h₃, h₄⟩
        · exact hp
        · exact absurd (ih U' h₂ m' s' h₁ h₃) h₄
      obtain ⟨hm, rfl⟩ := h.start_vote hs
      exact h.carry (h.vote_grounded hm) (h.vote_grounded hvote) (h.vote_cand hvote).2
        (j := k) (by rw [List.getElem?_take_of_lt (by omega), he]) ht hp (h.cand_lt hm)
        (fun U' m' s' h₁ h₂ h₃ => ih U' h₂ m' s' h₁ h₃)

/-- What the leader of a term committed is part of the log with which every later
leader starts. -/
theorem Inv.committed_start {g : State N E} (h : Inv members g) {V U : ℕ} {p s : List E} {n m : N}
    (hn : Led g n V) (hp : p <+: ((g n).full V).take ((g n).commitTo V)) (hVU : V < U)
    (hs : (g m).start U = some s) : p <+: s := by
  rcases Nat.eq_zero_or_pos ((g n).commitTo V) with h0 | h0
  · rw [h0, List.take_zero, List.prefix_nil] at hp
    exact hp ▸ List.nil_prefix
  obtain ⟨_, e, Q, hQ, hack, he, ht⟩ := h.commit_quorum h0
  have hc := h.complete hn hQ (k := (g n).commitTo V - 1)
    (fun v hv => by have := hack v hv; omega) he ht U m s hVU hs
  rw [Nat.sub_add_cancel h0] at hc
  exact hp.trans hc

/-- A chosen prefix is part of the log of every leader from then on. -/
theorem Inv.chosen_initial {g : State N E} (h : Inv members g) {T U : ℕ} {p : List E} {m : N}
    (hp : Chosen g T p) (hm : Led g m U) (hTU : T ≤ U) : p <+: (g m).full U := by
  rcases hp with rfl | ⟨n, V, hV, hn, hp⟩
  · exact List.nil_prefix
  rcases Nat.lt_or_ge V U with hlt | hge
  · obtain ⟨s, hs⟩ := Option.isSome_iff_exists.mp hm
    exact (h.committed_start hn hp hlt hs).trans (h.start_initial hs)
  · obtain rfl : V = U := by omega
    obtain rfl := h.unique_leader hn hm
    exact hp.trans (List.take_prefix _ _)

/-- Any two chosen prefixes agree: one is a prefix of the other. -/
theorem Inv.chosen_agree {g : State N E} (h : Inv members g) {T U : ℕ} {p q : List E}
    (hp : Chosen g T p) (hq : Chosen g U q) : p <+: q ∨ q <+: p := by
  wlog hTU : T ≤ U generalizing T U p q with hsym
  · exact (hsym hq hp (by omega)).symm
  rcases hq with rfl | ⟨n, V, hV, hn, hq⟩
  · exact Or.inr List.nil_prefix
  have hqf := hq.trans (List.take_prefix _ _)
  rcases hp with rfl | ⟨m, W, hW, hm, hp⟩
  · exact Or.inl List.nil_prefix
  rcases Nat.le_total W V with hWV | hVW
  · have hpf := h.chosen_initial (Or.inr ⟨m, W, le_rfl, hm, hp⟩) hn hWV
    exact List.prefix_or_prefix_of_prefix hpf hqf
  · have hpf := hp.trans (List.take_prefix _ _)
    exact List.prefix_or_prefix_of_prefix hpf
      (h.chosen_initial (Or.inr ⟨n, V, le_rfl, hn, hq⟩) hm hVW)

end ToyDB.Consensus
