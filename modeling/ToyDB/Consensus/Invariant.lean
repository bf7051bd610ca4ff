import ToyDB.Consensus.Safety

/-!
# The steps preserve the safety invariant

`Change` says once what a step of a node can do to its state; each clause of the
invariant is then preserved by one argument that does not look at the steps.
-/
namespace ToyDB.Consensus
variable {N E : Type} [Stamped E] [DecidableEq N] {members : Finset N}

/-- What a step of node `i` may change, and under which conditions. -/
structure Change (members : Finset N) (i : N) (g g' : State N E) : Prop where
  grows : Grows g g'
  other : ∀ n, n ≠ i → g' n = g n
  vote : ∀ {T c}, (g' i).voted T = some c → (g i).voted T = some c ∨
    (g' i).term = T ∧ (g' i).voteLog T = (g i).log ∧ (g' i).log = (g i).log ∧
      (g' i).acked = (g i).acked ∧ (g' i).start = (g i).start ∧
      (c = i ∧ (g i).term < T ∨
        c ≠ i ∧ (g i).term = T ∧ (g c).voted T = some c ∧ UpToDate ((g c).voteLog T) (g i).log)
  start : ∀ {T s}, (g' i).start T = some s → (g i).start T = some s ∨
    (g i).term = T ∧ s = (g i).log ∧ s = (g i).voteLog T ∧ (g' i).full T = s ∧
      (g i).voted T = some i ∧ (g i).start T = none ∧ (g' i).voteLog = (g i).voteLog ∧
      (g' i).acked = (g i).acked ∧
      ∃ Q, IsQuorum members Q ∧ ∀ v ∈ Q, (g v).voted T = some i
  full : ∀ {T}, Led g i T → (g' i).full T = (g i).full T ∨
    ∃ e, term e = T ∧ (g' i).full T = (g i).full T ++ [e]
  log : (g' i).log = (g i).log ∨ (g' i).term = (g i).term ∧ (g' i).voted = (g i).voted ∧
    ∃ n, Led g n (g i).term ∧ (g' i).log <+: (g' n).full (g i).term ∧
      ∀ p, p <+: (g i).log → p <+: (g' n).full (g i).term → p <+: (g' i).log
  lead_log : Led g' i (g' i).term → (g' i).log = (g' i).full (g' i).term
  acked : ∀ T, (g' i).acked T = (g i).acked T ∨ (g i).term = T ∧ (g' i).log = (g i).log ∧
    (g' i).voted = (g i).voted ∧ ∃ n, Led g n T ∧ (g' i).acked T ≤ ((g n).full T).length ∧
      ((g n).full T).take ((g' i).acked T) <+: (g i).log
  commit : ∀ T, (g' i).commitTo T = (g i).commitTo T ∨ Led g i T ∧ (g' i).full = (g i).full ∧
    ∃ e Q, IsQuorum members Q ∧ (∀ v ∈ Q, (g' i).commitTo T ≤ (g v).acked T) ∧
      ((g i).full T)[(g' i).commitTo T - 1]? = some e ∧ term e = T

theorem Step.change {g g' : State N E} {i : N} (h : Inv members g) (hs : Step members i g g') :
    Change members i g g' := by
  have hother : ∀ n, n ≠ i → ∀ x, Function.update g i x n = g n :=
    fun n hn x => Function.update_of_ne hn x g
  cases hs with
  | advance T hT =>
      have hled : ¬ Led g i T := fun hl => by have := (h.led_le hl).2; omega
      constructor
      case grows => exact .update { Local.Grows.refl (g i) with term := hT.le }
      case other => exact fun n hn => hother n hn _
      case lead_log =>
        intro hl
        exact absurd (by simpa [Led] using hl) hled
      all_goals simp +contextual
  | campaign T hT =>
      have hled : ¬ Led g i T := fun hl => by have := (h.led_le hl).2; omega
      have hne : ∀ {U c}, (g i).voted U = some c → U ≠ T := fun hv => by
        have := (h.voted_le hv).2
        omega
      constructor
      case grows =>
        exact .update { Local.Grows.refl (g i) with
          term := hT.le
          voted := fun hv => by simpa [Function.update_of_ne (hne hv)] using hv
          voteLog := fun hv => by simp [Function.update_of_ne (hne hv)] }
      case other => exact fun n hn => hother n hn _
      case vote =>
        intro U c hv
        by_cases hU : U = T
        · subst hU
          obtain rfl : i = c := by simpa using hv
          exact Or.inr ⟨by simp, by simp, by simp, by simp, by simp, Or.inl ⟨rfl, hT⟩⟩
        · exact Or.inl (by simpa [Function.update_of_ne hU] using hv)
      case lead_log =>
        intro hl
        exact absurd (by simpa [Led] using hl) hled
      all_goals simp +contextual
  | vote c hn hc hu =>
      have hne : ∀ {U d}, (g i).voted U = some d → U ≠ (g i).term := by
        rintro U d hv rfl
        simp [hn] at hv
      constructor
      case grows =>
        exact .update { Local.Grows.refl (g i) with
          voted := fun hv => by simpa [Function.update_of_ne (hne hv)] using hv
          voteLog := fun hv => by simp [Function.update_of_ne (hne hv)] }
      case other => exact fun n hn => hother n hn _
      case vote =>
        intro U d hv
        by_cases hU : U = (g i).term
        · subst hU
          obtain rfl : c = d := by simpa using hv
          refine Or.inr ⟨by simp, by simp, by simp, by simp, by simp, Or.inr ⟨?_, rfl, hc, hu⟩⟩
          rintro rfl
          simp [hn] at hc
        · exact Or.inl (by simpa [Function.update_of_ne hU] using hv)
      case lead_log =>
        intro hl
        simpa using h.lead_log (n := i) (by simpa [Led] using hl)
      all_goals simp +contextual
  | elect Q hQ hq hv hl hst =>
      have hne : ∀ {U s}, (g i).start U = some s → U ≠ (g i).term := by
        rintro U s hs rfl
        simp [hst] at hs
      constructor
      case grows =>
        exact .update { Local.Grows.refl (g i) with
          start := fun hs => by simpa [Function.update_of_ne (hne hs)] using hs
          full := fun hs => by
            obtain ⟨s, hs⟩ := Option.isSome_iff_exists.mp hs
            simp [Function.update_of_ne (hne hs)] }
      case other => exact fun n hn => hother n hn _
      case start =>
        intro U s hs
        by_cases hU : U = (g i).term
        · subst hU
          obtain rfl : (g i).log = s := by simpa using hs
          exact Or.inr ⟨rfl, rfl, hl, by simp, hv, hst, by simp, by simp, Q, hQ, hq⟩
        · exact Or.inl (by simpa [Function.update_of_ne hU] using hs)
      case full =>
        intro U hU
        obtain ⟨s, hs⟩ := Option.isSome_iff_exists.mp hU
        simp [Function.update_of_ne (hne hs)]
      all_goals simp +contextual
  | append e hl ht =>
      have hlog := h.lead_log hl
      constructor
      case grows =>
        refine .update { Local.Grows.refl (g i) with full := fun {U} _ => ?_ }
        by_cases hU : U = (g i).term
        · subst hU; simp [hlog]
        · simp [Function.update_of_ne hU]
      case other => exact fun n hn => hother n hn _
      case full =>
        intro U _
        by_cases hU : U = (g i).term
        · subst hU; exact Or.inr ⟨e, ht, by simp [hlog]⟩
        · simp [Function.update_of_ne hU]
      case log =>
        exact Or.inr ⟨by simp, by simp, i, hl, by simp, fun p _ hp => by simpa using hp⟩
      all_goals simp +contextual
  | accept n l hn hl hk =>
      constructor
      case grows => exact .update { Local.Grows.refl (g i) with }
      case other => exact fun n hn => hother n hn _
      case log =>
        have hfull : ∀ T, (Function.update g i { g i with log := l } n).full T = (g n).full T := by
          intro T
          by_cases hni : n = i
          · subst hni; simp
          · rw [hother n hni]
        exact Or.inr ⟨by simp, by simp, n, hn, by simpa [hfull] using hl, by simpa [hfull] using hk⟩
      case lead_log =>
        intro hi
        have hi : Led g i (g i).term := by simpa [Led] using hi
        obtain rfl := h.unique_leader hn hi
        have hlog := h.lead_log hi
        have hle := (hk _ (by rw [hlog]) List.prefix_rfl).length_le
        simpa using hl.eq_of_length_le hle
      all_goals simp +contextual
  | ack n k hn hk hp =>
      constructor
      case grows =>
        refine .update { Local.Grows.refl (g i) with acked := fun U => ?_ }
        by_cases hU : U = (g i).term
        · subst hU; simp
        · simp [Function.update_of_ne hU]
      case other => exact fun n hn => hother n hn _
      case lead_log =>
        intro hl
        simpa using h.lead_log (n := i) (by simpa [Led] using hl)
      case acked =>
        intro U
        by_cases hU : U = (g i).term
        · subst hU
          rcases Nat.le_total k ((g i).acked (g i).term) with hle | hle
          · exact Or.inl (by simp [hle])
          · exact Or.inr ⟨rfl, by simp, by simp, n, hn, by simpa [hle] using hk,
              by simpa [hle] using hp⟩
        · simp [Function.update_of_ne hU]
      all_goals simp +contextual
  | commit k e Q hl hQ hack he ht hk =>
      constructor
      case grows =>
        refine .update { Local.Grows.refl (g i) with commitTo := fun U => ?_ }
        by_cases hU : U = (g i).term
        · subst hU; simpa using hk
        · simp [Function.update_of_ne hU]
      case other => exact fun n hn => hother n hn _
      case lead_log =>
        intro hi
        simpa using h.lead_log (n := i) (by simpa [Led] using hi)
      case commit =>
        intro U
        by_cases hU : U = (g i).term
        · subst hU
          exact Or.inr ⟨hl, by simp, e, Q, hQ, by simpa [Nat.succ_le_iff] using hack,
            by simpa using he, ht⟩
        · simp [Function.update_of_ne hU]
      all_goals simp +contextual

namespace Change
variable {g g' : State N E} {i : N} (h : Inv members g) (hc : Change members i g g')
include hc

/-- A vote is old, or the acting node has just cast it. -/
theorem vote_cases {n c : N} {T : ℕ} (hv : (g' n).voted T = some c) :
    (g n).voted T = some c ∧ (g' n).voteLog T = (g n).voteLog T ∨
      n = i ∧ (g' i).term = T ∧ (g' i).voteLog T = (g i).log ∧ (g' i).log = (g i).log ∧
        (g' i).acked = (g i).acked ∧ (g' i).start = (g i).start ∧ (c = i ∧ (g i).term < T ∨
          c ≠ i ∧ (g i).term = T ∧ (g c).voted T = some c ∧
            UpToDate ((g c).voteLog T) (g i).log) := by
  by_cases hn : n = i
  · subst hn
    rcases hc.vote hv with hold | hnew
    · exact Or.inl ⟨hold, (hc.grows n).voteLog hold⟩
    · exact Or.inr ⟨rfl, hnew⟩
  · rw [hc.other n hn] at hv ⊢
    exact Or.inl ⟨hv, rfl⟩

/-- An election is old, or the acting node has just won it. -/
theorem start_cases {n : N} {T : ℕ} {s : List E} (hs : (g' n).start T = some s) :
    (g n).start T = some s ∨ n = i ∧ (g i).term = T ∧ s = (g i).log ∧ s = (g i).voteLog T ∧
      (g' i).full T = s ∧ (g i).voted T = some i ∧ (g i).start T = none ∧
      (g' i).voteLog = (g i).voteLog ∧ (g' i).acked = (g i).acked ∧
      ∃ Q, IsQuorum members Q ∧ ∀ v ∈ Q, (g v).voted T = some i := by
  by_cases hn : n = i
  · subst hn
    exact (hc.start hs).imp id fun hnew => ⟨rfl, hnew⟩
  · rw [hc.other n hn] at hs
    exact Or.inl hs

theorem full_cases {n : N} {T : ℕ} (hn : Led g n T) : (g' n).full T = (g n).full T ∨
    ∃ e, term e = T ∧ (g' n).full T = (g n).full T ++ [e] := by
  by_cases hi : n = i
  · subst hi; exact hc.full hn
  · exact Or.inl (by rw [hc.other n hi])

include h

theorem led_cases {n : N} {T : ℕ} (hn : Led g' n T) :
    Led g n T ∨ n = i ∧ ∀ m, ¬ Led g m T := by
  obtain ⟨s, hs⟩ := Option.isSome_iff_exists.mp hn
  rcases hc.start_cases hs with hold | ⟨rfl, _, _, _, _, _, hnone, _, _, Q, hQ, hq⟩
  · exact Or.inl (Option.isSome_iff_exists.mpr ⟨s, hold⟩)
  · refine Or.inr ⟨rfl, fun m hm => ?_⟩
    obtain rfl := h.unique_winner hQ hq hm
    simp [Led, hnone] at hm

/-- An acknowledged prefix was acknowledged before, or the acting node has just
acknowledged a prefix that its log still has. -/
theorem acked_cases {v m : N} {T k : ℕ} (hm : Led g' m T) (hk : k ≤ (g' v).acked T)
    (hpos : 0 < k) : Led g m T ∧ ((g' m).full T).take k = ((g m).full T).take k ∧
      (k ≤ (g v).acked T ∨ v = i ∧ (g i).term = T ∧ (g' i).log = (g i).log ∧
        (g' i).voted = (g i).voted ∧ ((g m).full T).take k <+: (g i).log) := by
  -- the prefix lies inside the log of a leader that already led in `g`
  have hwhole : ∀ n, Led g n T → k ≤ ((g n).full T).length →
      Led g m T ∧ ((g' m).full T).take k = ((g m).full T).take k ∧ m = n := by
    intro n hn hlen
    rcases hc.led_cases h hm with hold | ⟨_, hno⟩
    · obtain rfl := h.unique_leader hold hn
      obtain ⟨t, ht⟩ := (hc.grows m).full hold
      exact ⟨hold, by rw [← ht, List.take_append_of_le_length hlen], rfl⟩
    · exact absurd hn (hno n)
  have hsame : k ≤ (g v).acked T →
      Led g m T ∧ ((g' m).full T).take k = ((g m).full T).take k := by
    intro hk'
    obtain ⟨_, n, hn, hlen⟩ := h.acked_le (by omega : 0 < (g v).acked T)
    obtain ⟨h₁, h₂, _⟩ := hwhole n hn (by omega)
    exact ⟨h₁, h₂⟩
  by_cases hv : v = i
  · subst hv
    rcases hc.acked T with heq | ⟨hT, hlog, hvoted, n, hn, hlen, hp⟩
    · have hk' := heq ▸ hk
      exact ⟨(hsame hk').1, (hsame hk').2, Or.inl hk'⟩
    · obtain ⟨h₁, h₂, rfl⟩ := hwhole n hn (by omega)
      exact ⟨h₁, h₂, Or.inr ⟨rfl, hT, hlog, hvoted,
        (List.take_prefix_take_left hk).trans hp⟩⟩
  · rw [hc.other v hv] at hk
    exact ⟨(hsame hk).1, (hsame hk).2, Or.inl hk⟩

theorem voted_le {n c : N} {T : ℕ} (hv : (g' n).voted T = some c) : 0 < T ∧ T ≤ (g' n).term := by
  rcases hc.vote_cases hv with ⟨hold, _⟩ | ⟨rfl, hT, _, _, _, _, hnew⟩
  · have := h.voted_le hold
    exact ⟨this.1, this.2.trans (hc.grows n).term⟩
  · rcases hnew with ⟨_, hlt⟩ | ⟨_, _, hcv, _⟩
    · omega
    · exact ⟨(h.voted_le hcv).1, hT.ge⟩

theorem vote_cand {n c : N} {T : ℕ} (hv : (g' n).voted T = some c) :
    (g' c).voted T = some c ∧ UpToDate ((g' c).voteLog T) ((g' n).voteLog T) := by
  rcases hc.vote_cases hv with ⟨hold, hlog⟩ | ⟨rfl, _, hlog, _, _, _, hnew⟩
  · obtain ⟨h₁, h₂⟩ := h.vote_cand hold
    rw [hlog, (hc.grows c).voteLog h₁]
    exact ⟨(hc.grows c).voted h₁, h₂⟩
  · rcases hnew with ⟨rfl, _⟩ | ⟨_, _, hcv, hu⟩
    · exact ⟨hv, Or.inr ⟨rfl, le_rfl⟩⟩
    · rw [hlog, (hc.grows c).voteLog hcv]
      exact ⟨(hc.grows c).voted hcv, hu⟩

theorem cand_lt {c : N} {T : ℕ} (hv : (g' c).voted T = some c) :
    ∀ e ∈ (g' c).voteLog T, term e < T := by
  rcases hc.vote_cases hv with ⟨hold, hlog⟩ | ⟨rfl, _, hlog, _, _, _, hnew⟩
  · rw [hlog]
    exact h.cand_lt hold
  · rw [hlog]
    intro e he
    have := h.log_le c e he
    rcases hnew with ⟨_, hlt⟩ | ⟨hne, _⟩
    · omega
    · exact absurd rfl hne

theorem vote_grounded {n c : N} {T : ℕ} (hv : (g' n).voted T = some c) :
    Grounded g' ((g' n).voteLog T) := by
  rcases hc.vote_cases hv with ⟨hold, hlog⟩ | ⟨rfl, _, hlog, _⟩
  · rw [hlog]
    exact (h.vote_grounded hold).grows hc.grows
  · rw [hlog]
    exact (h.log_grounded n).grows hc.grows

theorem start_vote {n : N} {T : ℕ} {s : List E} (hs : (g' n).start T = some s) :
    (g' n).voted T = some n ∧ s = (g' n).voteLog T := by
  rcases hc.start_cases hs with hold | ⟨rfl, _, _, hl, _, hv, _, hvl, _⟩
  · obtain ⟨hv, rfl⟩ := h.start_vote hold
    exact ⟨(hc.grows n).voted hv, ((hc.grows n).voteLog hv).symm⟩
  · exact ⟨(hc.grows n).voted hv, by rw [hvl, hl]⟩

/-- What a voter had kept when it voted stays kept: it acknowledges nothing in
earlier terms any more. -/
theorem kept {v c : N} {T : ℕ} (hv : (g v).voted T = some c) (hk : Kept g v T) : Kept g' v T := by
  intro U m k hU hm hack
  rcases Nat.eq_zero_or_pos k with rfl | hpos
  · exact Or.inl (by simp)
  obtain ⟨hm', hfull, hcase⟩ := hc.acked_cases h hm hack hpos
  rw [hfull, (hc.grows v).voteLog hv]
  rcases hcase with hold | ⟨rfl, hT, _⟩
  · exact (hk U m k hU hm' hold).grows hc.grows
  · have := (h.voted_le hv).2
    omega

theorem start_quorum {n : N} {T : ℕ} {s : List E} (hs : (g' n).start T = some s) :
    ∃ Q, IsQuorum members Q ∧ ∀ v ∈ Q, (g' v).voted T = some n ∧ Kept g' v T := by
  rcases hc.start_cases hs with hold | ⟨rfl, _, _, _, _, _, hnone, _, _, Q, hQ, hq⟩
  · obtain ⟨Q, hQ, hq⟩ := h.start_quorum hold
    exact ⟨Q, hQ, fun v hv => ⟨(hc.grows v).voted (hq v hv).1, hc.kept h (hq v hv).1 (hq v hv).2⟩⟩
  · refine ⟨Q, hQ, fun v hv => ⟨(hc.grows v).voted (hq v hv), hc.kept h (hq v hv) ?_⟩⟩
    -- a leader of this very term is ruled out, so the bad case is about an earlier one
    intro U m k hU hm hk
    rcases h.vote_holds (hq v hv) hU hm hk with hp | ⟨m', U', s', h₁, h₂, h₃, h₄⟩
    · exact Or.inl hp
    · refine Or.inr ⟨m', U', s', h₁, ?_, h₃, h₄⟩
      rcases Nat.lt_or_ge U' T with hlt | hge
      · exact hlt
      · obtain rfl : U' = T := by omega
        obtain rfl := h.unique_winner hQ hq (Option.isSome_iff_exists.mpr ⟨s', h₃⟩)
        simp [hnone] at h₃

theorem full_start {n : N} {T : ℕ} {s : List E} (hs : (g' n).start T = some s) :
    ∃ own, (g' n).full T = s ++ own ∧ ∀ e ∈ own, term e = T := by
  rcases hc.start_cases hs with hold | ⟨rfl, _, _, _, hf, _⟩
  · obtain ⟨own, hf, ho⟩ := h.full_start hold
    rcases hc.full_cases (Option.isSome_iff_exists.mpr ⟨s, hold⟩) with heq | ⟨e, he, heq⟩
    · exact ⟨own, heq.trans hf, ho⟩
    · refine ⟨own ++ [e], by rw [heq, hf, List.append_assoc], fun x hx => ?_⟩
      rcases List.mem_append.mp hx with hx | hx
      · exact ho x hx
      · rwa [List.mem_singleton.mp hx]
  · exact ⟨[], by simp [hf], by simp⟩

theorem full_grounded {n : N} {T : ℕ} (hn : Led g' n T) : Grounded g' ((g' n).full T) := by
  obtain ⟨s, hs⟩ := Option.isSome_iff_exists.mp hn
  rcases hc.start_cases hs with hold | ⟨rfl, _, hl, _, hf, _⟩
  · have hn' : Led g n T := Option.isSome_iff_exists.mpr ⟨s, hold⟩
    have hgr := (h.full_grounded hn').grows hc.grows
    rcases hc.full_cases hn' with heq | ⟨e, he, heq⟩
    · rwa [heq]
    · rw [heq]
      exact hgr.concat (he ▸ hn) (by rw [he, heq])
  · rw [hf, hl]
    exact (h.log_grounded n).grows hc.grows

theorem full_le {n : N} {T : ℕ} (hn : Led g n T) : ∀ e ∈ (g' n).full T, term e ≤ T := by
  intro e he
  rcases hc.full_cases hn with heq | ⟨x, hx, heq⟩
  · exact h.full_le hn e (heq ▸ he)
  · rw [heq, List.mem_append, List.mem_singleton] at he
    rcases he with he | rfl
    · exact h.full_le hn e he
    · exact hx.le

theorem lead_log' {n : N} (hn : Led g' n (g' n).term) : (g' n).log = (g' n).full (g' n).term := by
  by_cases hi : n = i
  · subst hi; exact hc.lead_log hn
  · rw [Led, hc.other n hi] at hn
    rw [hc.other n hi]
    exact h.lead_log hn

theorem log_grounded (n : N) : Grounded g' (g' n).log := by
  by_cases hi : n = i
  · subst hi
    rcases hc.log with heq | ⟨_, _, m, hm, hp, _⟩
    · rw [heq]
      exact (h.log_grounded n).grows hc.grows
    · exact (hc.full_grounded h (hc.grows.led hm)).initial hp
  · rw [hc.other n hi]
    exact (h.log_grounded n).grows hc.grows

theorem log_le (n : N) : ∀ e ∈ (g' n).log, term e ≤ (g' n).term := by
  intro e he
  by_cases hi : n = i
  · subst hi
    rcases hc.log with heq | ⟨hT, _, m, hm, hp, _⟩
    · exact (h.log_le n e (heq ▸ he)).trans (hc.grows n).term
    · exact hT ▸ hc.full_le h hm e (hp.subset he)
  · rw [hc.other n hi] at he ⊢
    exact h.log_le n e he

theorem acked_le {n : N} {T : ℕ} (hpos : 0 < (g' n).acked T) :
    T ≤ (g' n).term ∧ ∃ m, Led g' m T ∧ (g' n).acked T ≤ ((g' m).full T).length := by
  have hold : (g' n).acked T = (g n).acked T →
      T ≤ (g' n).term ∧ ∃ m, Led g' m T ∧ (g' n).acked T ≤ ((g' m).full T).length := by
    intro heq
    obtain ⟨hT, m, hm, hlen⟩ := h.acked_le (heq ▸ hpos)
    exact ⟨hT.trans (hc.grows n).term, m, hc.grows.led hm,
      heq ▸ hlen.trans ((hc.grows m).full hm).length_le⟩
  by_cases hi : n = i
  · subst hi
    rcases hc.acked T with heq | ⟨hT, _, _, m, hm, hlen, _⟩
    · exact hold heq
    · exact ⟨hT ▸ (hc.grows n).term, m, hc.grows.led hm,
        hlen.trans ((hc.grows m).full hm).length_le⟩
  · exact hold (by rw [hc.other n hi])

theorem log_holds {n m : N} {T k : ℕ} (hm : Led g' m T) (hk : k ≤ (g' n).acked T) :
    Holds g' T ((g' n).term + 1) (((g' m).full T).take k) (g' n).log := by
  rcases Nat.eq_zero_or_pos k with rfl | hpos
  · exact Or.inl (by simp)
  obtain ⟨hm', hfull, hcase⟩ := hc.acked_cases h hm hk hpos
  rw [hfull]
  rcases hcase with hold | ⟨rfl, hT, hlog, _, hp⟩
  swap
  · exact Or.inl (by rwa [hlog])
  have hmono := Nat.succ_le_succ (hc.grows n).term
  have hh := ((h.log_holds hm' hold).grows hc.grows).mono hmono
  by_cases hi : n = i
  swap
  · rwa [hc.other n hi] at hh ⊢
  subst hi
  rcases hc.log with heq | ⟨hterm, _, l, hl, _, hkeep⟩
  · rwa [heq]
  rcases hh with hp | hbad
  swap
  · exact Or.inr hbad
  have hfl := (hc.grows l).full hl
  obtain ⟨hTle, _⟩ := h.acked_le (by omega : 0 < (g n).acked T)
  rcases Nat.eq_or_lt_of_le hTle with heq | hlt
  · subst heq
    obtain rfl := h.unique_leader hl hm'
    exact Or.inl (hkeep _ hp ((List.take_prefix _ _).trans hfl))
  · obtain ⟨s, hs⟩ := Option.isSome_iff_exists.mp hl
    by_cases hps : ((g m).full T).take k <+: s
    · exact Or.inl (hkeep _ hp ((hps.trans (h.start_initial hs)).trans hfl))
    · exact Or.inr ⟨l, (g n).term, s, hlt, by omega, (hc.grows l).start hs, hps⟩

theorem vote_holds {n c m : N} {U T k : ℕ} (hv : (g' n).voted U = some c) (hTU : T < U)
    (hm : Led g' m T) (hk : k ≤ (g' n).acked T) :
    Holds g' T (U + 1) (((g' m).full T).take k) ((g' n).voteLog U) := by
  rcases Nat.eq_zero_or_pos k with rfl | hpos
  · exact Or.inl (by simp)
  obtain ⟨hm', hfull, hcase⟩ := hc.acked_cases h hm hk hpos
  rw [hfull]
  rcases hc.vote_cases hv with ⟨hold, hlog⟩ | ⟨rfl, hU, hlog, _, hacked, _, hnew⟩
  · rw [hlog]
    rcases hcase with hack | ⟨rfl, hT, _⟩
    · exact (h.vote_holds hold hTU hm' hack).grows hc.grows
    · have := (h.voted_le hold).2
      omega
  · rw [hlog]
    have hle : (g n).term ≤ U := by rcases hnew with ⟨_, hlt⟩ | ⟨_, heq, _⟩ <;> omega
    exact ((h.log_holds hm' (hacked ▸ hk)).grows hc.grows).mono (by omega)

theorem commit_quorum {n : N} {T : ℕ} (hpos : 0 < (g' n).commitTo T) : Led g' n T ∧
    ∃ e Q, IsQuorum members Q ∧ (∀ v ∈ Q, (g' n).commitTo T ≤ (g' v).acked T) ∧
      ((g' n).full T)[(g' n).commitTo T - 1]? = some e ∧ term e = T := by
  have hold : (g' n).commitTo T = (g n).commitTo T → Led g' n T ∧
      ∃ e Q, IsQuorum members Q ∧ (∀ v ∈ Q, (g' n).commitTo T ≤ (g' v).acked T) ∧
        ((g' n).full T)[(g' n).commitTo T - 1]? = some e ∧ term e = T := by
    intro heq
    rw [heq] at hpos ⊢
    obtain ⟨hl, e, Q, hQ, hack, he, ht⟩ := h.commit_quorum hpos
    exact ⟨hc.grows.led hl, e, Q, hQ, fun v hv => (hack v hv).trans ((hc.grows v).acked T),
      getElem?_of_initial ((hc.grows n).full hl) he, ht⟩
  by_cases hi : n = i
  · subst hi
    rcases hc.commit T with heq | ⟨hl, hfull, e, Q, hQ, hack, he, ht⟩
    · exact hold heq
    · exact ⟨hc.grows.led hl, e, Q, hQ,
        fun v hv => (hack v hv).trans ((hc.grows v).acked T), by rwa [hfull], ht⟩
  · exact hold (by rw [hc.other n hi])

theorem inv : Inv members g' where
  voted_le := hc.voted_le h
  vote_cand := hc.vote_cand h
  cand_lt := hc.cand_lt h
  vote_grounded := hc.vote_grounded h
  start_vote := hc.start_vote h
  start_quorum := hc.start_quorum h
  full_start := hc.full_start h
  full_grounded := hc.full_grounded h
  lead_log := hc.lead_log' h
  log_grounded := hc.log_grounded h
  log_le := hc.log_le h
  acked_le := hc.acked_le h
  log_holds := hc.log_holds h
  vote_holds := hc.vote_holds h
  commit_quorum := hc.commit_quorum h

end Change

/-- Every step preserves the safety invariant. -/
theorem Inv.step {g g' : State N E} {i : N} (h : Inv members g) (hs : Step members i g g') :
    Inv members g' :=
  (hs.change h).inv h

end ToyDB.Consensus
