import ToyDB.Sql.Types.Predicate

/-!
# Conjunctive normal form

The conjuncts of a normal form mean what the expression means. Each of the two rewrites
makes a single pass from the top, so a form that a rewrite leaves behind where it has
already been stays: negations that a double negation uncovers, and conjunctions that come
up from below a disjunction. The expressions without such forms are counted out here.
-/
namespace ToyDB.Sql
namespace Expression
variable {fn : Builtins} {e e' l l' r r' x y : Expression} {v : Value}

/-! ## Conjunctions of conjuncts -/

theorem refines_and_assoc : Refines fn (and e (and l r)) (and (and e l) r) := by
  intro row v h
  obtain ⟨s, t, hs, ht, rfl⟩ := evaluate_and.mp h
  obtain ⟨t₁, t₂, h₁, h₂, hv⟩ := evaluate_and.mp ht
  obtain rfl := Value.ofTruth_injective hv
  exact evaluate_and.mpr ⟨_, _, evaluate_and.mpr ⟨s, t₁, hs, h₁, rfl⟩, h₂, by rw [inf_assoc]⟩

/-- The conjuncts can be added one by one. -/
theorem refines_foldl_conjuncts (e : Expression) :
    ∀ a, Refines fn (and a e) (e.conjuncts.foldl and a) := by
  induction e using conjuncts_induction with
  | hand l r hl hr =>
      intro a
      rw [conjuncts, List.foldl_append]
      exact refines_and_assoc.trans (((hl a).binary .and (.refl r)).trans (hr _))
  | hatom e he =>
      intro a
      rw [he]
      exact .refl _

theorem andVec_append {es es' : List Expression} (h : andVec es = some e) :
    andVec (es ++ es') = some (es'.foldl and e) := by
  cases es with
  | nil => cases h
  | cons x es =>
      obtain rfl := Option.some.inj h
      rw [List.cons_append, andVec, List.foldl_append]

theorem refines_andVec_conjuncts (e : Expression) :
    ∃ e', andVec e.conjuncts = some e' ∧ Refines fn e e' := by
  induction e using conjuncts_induction with
  | hand l r hl hr =>
      obtain ⟨l', hl', hrefines⟩ := hl
      refine ⟨_, andVec_append hl', ?_⟩
      exact (hrefines.binary .and (.refl r)).trans (refines_foldl_conjuncts r l')
  | hatom e he => exact ⟨e, by rw [he]; rfl, .refl e⟩

/-- Where an expression has a value, the conjunction of its conjuncts has the same one. -/
theorem evaluate_andVec_intoCnfVec (fn : Builtins) (e : Expression) (row : Row) (v : Value)
    (h : e.evaluate fn (some row) = .ok v) :
    ∃ e', andVec e.intoCnfVec = some e' ∧ e'.evaluate fn (some row) = .ok v := by
  obtain ⟨e', he', hrefines⟩ := refines_andVec_conjuncts e.intoCnf
  exact ⟨e', he', hrefines _ _ (refines_intoCnf e _ _ h)⟩

/-- `NOT (TRUE AND NULL)`. -/
theorem evaluate_andVec_intoCnfVec_unknown :
    ∃ e', andVec (not (and (constant (.boolean true)) (constant .null))).intoCnfVec = some e' ∧
      e'.evaluate Builtins.unused (some []) = .ok .null :=
  evaluate_andVec_intoCnfVec Builtins.unused _ [] .null rfl

/-! ## Normal forms -/

/-- A conjunction, disjunction or negation. -/
def isLogical : Expression → Bool
  | and _ _ | or _ _ | not _ => true
  | _ => false

/-- There is no conjunction among the logical operators at the top. -/
def withoutAnd : Expression → Bool
  | and _ _ => false
  | or l r => l.withoutAnd && r.withoutAnd
  | not x => x.withoutAnd
  | _ => true

/-- Among the logical operators at the top, no conjunction is below a disjunction. -/
def andsOutside : Expression → Bool
  | and l r => l.andsOutside && r.andsOutside
  | or l r => l.withoutAnd && r.withoutAnd
  | not x => x.andsOutside
  | _ => true

/-- No negation is applied to a logical operator. -/
def notsInside : Expression → Bool
  | not x => !x.isLogical && x.notsInside
  | binary _ l r => l.notsInside && r.notsInside
  | unary _ x => x.notsInside
  | is x _ => x.notsInside
  | _ => true

/-- Conjunctive normal form. -/
def IsCnf (e : Expression) : Prop := e.andsOutside = true ∧ e.notsInside = true

/-- A single pass removes this many negations from an expression that is not logical. -/
def vanish (n : ℕ) : Bool := n ≤ 3 || n = 5

/-- Below this many negations, all negations get to where they belong in a single pass: at
most two on a conjunction or disjunction, one of which moves on to its operands, and none,
one, two, three or five on anything else. -/
def notsSettle : ℕ → Expression → Bool
  | n, not x => x.notsSettle (n + 1)
  | n, and l r => n ≤ 2 && (l.notsSettle (n % 2) && r.notsSettle (n % 2))
  | n, or l r => n ≤ 2 && (l.notsSettle (n % 2) && r.notsSettle (n % 2))
  | n, binary _ l r => vanish n && (l.notsSettle 0 && r.notsSettle 0)
  | n, unary _ x => vanish n && x.notsSettle 0
  | n, is x _ => vanish n && x.notsSettle 0
  | n, _ => vanish n

/-- No conjunction is below this many nested disjunctions, where a conjunction below an odd
number of negations counts as a disjunction and conversely. -/
def shallow : ℕ → Bool → Expression → Bool
  | n, negated, not x => x.shallow n !negated
  | n, false, and l r => n ≠ 0 && (l.shallow n false && r.shallow n false)
  | n, true, and l r => l.shallow (n - 1) true && r.shallow (n - 1) true
  | n, false, or l r => l.shallow (n - 1) false && r.shallow (n - 1) false
  | n, true, or l r => n ≠ 0 && (l.shallow n true && r.shallow n true)
  | _, _, _ => true

/-! ## Negations -/

theorem intoNnf_eq (e : Expression) : e.intoNnf = e.pushNot.mapOperands intoNnf := by
  unfold intoNnf
  obtain ⟨m, hm⟩ : ∃ m, e.size = m + 1 := ⟨e.size - 1, by have := size_pos e; omega⟩
  rw [hm, transform]
  refine mapOperands_congr fun x hx => transform_levels size_pos size_pushNot ?_ le_rfl
  have := size_pushNot e x hx
  omega

@[simp] theorem isLogical_mapOperands (f : Expression → Expression) (e : Expression) :
    (e.mapOperands f).isLogical = e.isLogical := by
  cases e with
  | binary op l r => cases op <;> rfl
  | unary op x => cases op <;> rfl
  | _ => rfl

/-- Only a negation of a logical operator is rewritten. -/
theorem pushNot_eq (h : e.isLogical = false) : e.pushNot = e ∧ (not e).pushNot = not e := by
  cases e with
  | binary op l r => cases op <;> first | exact ⟨rfl, rfl⟩ | cases h
  | unary op x => cases op <;> first | exact ⟨rfl, rfl⟩ | cases h
  | _ => exact ⟨rfl, rfl⟩

/-- The expression under this many negations. -/
def nots : ℕ → Expression → Expression
  | 0, e => e
  | n + 1, e => not (nots n e)

theorem nots_not (n : ℕ) (e : Expression) : nots n (not e) = nots (n + 1) e := by
  induction n with
  | zero => rfl
  | succ n ih =>
      rw [nots, ih]
      rfl

/-- Two negations go, a third one stays, and the pass goes on below it. -/
theorem intoNnf_nots (n : ℕ) (e : Expression) :
    (nots (n + 3) e).intoNnf = not (nots n e).intoNnf := by
  rw [intoNnf_eq]
  rfl

/-- An expression that is not logical, below negations. -/
theorem intoNnf_nots_of_not_logical (h : e.isLogical = false) :
    (nots 0 e).intoNnf = e.mapOperands intoNnf ∧
      (nots 1 e).intoNnf = not (e.mapOperands intoNnf) ∧
      (nots 2 e).intoNnf = e.mapOperands intoNnf := by
  have h₀ : e.intoNnf = e.mapOperands intoNnf := by rw [intoNnf_eq, (pushNot_eq h).1]
  refine ⟨h₀, ?_, ?_⟩
  · rw [nots, nots, intoNnf_eq, (pushNot_eq h).2, mapOperands, h₀]
  · rw [nots, nots, nots, intoNnf_eq, pushNot]

theorem notsInside_nots (h : e.isLogical = false) (n : ℕ) :
    (nots n e).intoNnf.notsInside = (vanish n && (e.mapOperands intoNnf).notsInside) := by
  obtain ⟨h₀, h₁, h₂⟩ := intoNnf_nots_of_not_logical h
  match n with
  | 0 => simp [h₀, vanish]
  | 1 => simp [h₁, vanish, notsInside, h]
  | 2 => simp [h₂, vanish]
  | 3 => simp [intoNnf_nots, h₀, vanish, notsInside, h]
  | 4 => simp [intoNnf_nots, h₁, vanish, notsInside, isLogical]
  | 5 => simp [intoNnf_nots, h₂, vanish, notsInside, h]
  | n + 6 => simp [intoNnf_nots, vanish, notsInside, isLogical]

/-- A conjunction or disjunction below negations. -/
theorem intoNnf_nots_and (l r : Expression) :
    (nots 0 (and l r)).intoNnf = and (nots 0 l).intoNnf (nots 0 r).intoNnf ∧
      (nots 1 (and l r)).intoNnf = or (nots 1 l).intoNnf (nots 1 r).intoNnf ∧
      (nots 2 (and l r)).intoNnf = and (nots 0 l).intoNnf (nots 0 r).intoNnf := by
  refine ⟨?_, ?_, ?_⟩ <;>
  · rw [intoNnf_eq]
    rfl

theorem intoNnf_nots_or (l r : Expression) :
    (nots 0 (or l r)).intoNnf = or (nots 0 l).intoNnf (nots 0 r).intoNnf ∧
      (nots 1 (or l r)).intoNnf = and (nots 1 l).intoNnf (nots 1 r).intoNnf ∧
      (nots 2 (or l r)).intoNnf = or (nots 0 l).intoNnf (nots 0 r).intoNnf := by
  refine ⟨?_, ?_, ?_⟩ <;>
  · rw [intoNnf_eq]
    rfl

/-- A third negation stays on what the first two leave of a conjunction or disjunction. -/
theorem not_notsInside_nots (h : ∀ n, (nots n e).intoNnf.isLogical = true) (n : ℕ) :
    (nots (n + 3) e).intoNnf.notsInside = false := by
  rw [intoNnf_nots, notsInside, h]
  rfl

theorem isLogical_nots_and (l r : Expression) (n : ℕ) :
    (nots n (and l r)).intoNnf.isLogical = true ∧ (nots n (or l r)).intoNnf.isLogical = true := by
  match n with
  | 0 => rw [(intoNnf_nots_and l r).1, (intoNnf_nots_or l r).1]; exact ⟨rfl, rfl⟩
  | 1 => rw [(intoNnf_nots_and l r).2.1, (intoNnf_nots_or l r).2.1]; exact ⟨rfl, rfl⟩
  | 2 => rw [(intoNnf_nots_and l r).2.2, (intoNnf_nots_or l r).2.2]; exact ⟨rfl, rfl⟩
  | n + 3 => rw [intoNnf_nots, intoNnf_nots]; exact ⟨rfl, rfl⟩

/-- The negations that one pass settles. -/
theorem notsInside_intoNnf (e : Expression) :
    ∀ n, (nots n e).intoNnf.notsInside = e.notsSettle n := by
  induction e with
  | constant | column => exact fun n => (notsInside_nots rfl n).trans (Bool.and_true _)
  | binary op l r hl hr =>
      cases op
      case and =>
        intro n
        match n with
        | 0 => simp [(intoNnf_nots_and l r).1, notsInside, hl, hr, notsSettle]
        | 1 => simp [(intoNnf_nots_and l r).2.1, notsInside, hl, hr, notsSettle]
        | 2 => simp [(intoNnf_nots_and l r).2.2, notsInside, hl, hr, notsSettle]
        | n + 3 =>
            rw [not_notsInside_nots fun n => (isLogical_nots_and l r n).1]
            simp [notsSettle]
      case or =>
        intro n
        match n with
        | 0 => simp [(intoNnf_nots_or l r).1, notsInside, hl, hr, notsSettle]
        | 1 => simp [(intoNnf_nots_or l r).2.1, notsInside, hl, hr, notsSettle]
        | 2 => simp [(intoNnf_nots_or l r).2.2, notsInside, hl, hr, notsSettle]
        | n + 3 =>
            rw [not_notsInside_nots fun n => (isLogical_nots_and l r n).2]
            simp [notsSettle]
      all_goals
        intro n
        rw [notsInside_nots rfl]
        exact congrArg _ (congrArg₂ _ (hl 0) (hr 0))
  | unary op x hx =>
      cases op
      case not =>
        intro n
        rw [nots_not, hx]
        rfl
      all_goals
        intro n
        rw [notsInside_nots rfl]
        exact congrArg _ (hx 0)
  | is x value hx =>
      intro n
      rw [notsInside_nots rfl]
      exact congrArg _ (hx 0)

/-! ## Conjunctions below disjunctions -/

theorem shallow_of_not_logical (h : e.isLogical = false) (n : ℕ) (negated : Bool) :
    e.shallow n negated = true := by
  cases e with
  | binary op l r => cases op <;> first | (cases negated <;> rfl) | cases h
  | unary op x => cases op <;> first | (cases negated <;> rfl) | cases h
  | _ => cases negated <;> rfl

/-- Where all negations are settled, moving them inward changes no depth. -/
theorem shallow_intoNnf (e : Expression) : ∀ n, e.notsSettle n = true → ∀ (b : ℕ) (negated : Bool),
    (nots n e).intoNnf.shallow b negated = e.shallow b (negated ^^ n.bodd) := by
  have hatom : ∀ {e : Expression} {n : ℕ}, e.isLogical = false → vanish n = true →
      ∀ (b : ℕ) (negated : Bool),
        (nots n e).intoNnf.shallow b negated = e.shallow b (negated ^^ n.bodd) := by
    intro e n h hn b negated
    obtain ⟨h₀, h₁, h₂⟩ := intoNnf_nots_of_not_logical h
    have hm : ∀ negated, (e.mapOperands intoNnf).shallow b negated = true :=
      shallow_of_not_logical (by rw [isLogical_mapOperands, h]) b
    rw [shallow_of_not_logical h]
    match n with
    | 0 => rw [h₀, hm]
    | 1 => rw [h₁, shallow, hm]
    | 2 => rw [h₂, hm]
    | 3 => rw [intoNnf_nots, h₀, shallow, hm]
    | 4 => cases hn
    | 5 => rw [intoNnf_nots, h₂, shallow, hm]
    | n + 6 => simp [vanish] at hn
  induction e with
  | constant | column => exact fun n hn => hatom rfl hn
  | binary op l r hl hr =>
      cases op
      case and =>
        intro n hn b negated
        simp only [notsSettle, Bool.and_eq_true, decide_eq_true_eq] at hn
        obtain ⟨hle, hnl, hnr⟩ := hn
        match n with
        | 0 => cases negated <;> simp [(intoNnf_nots_and l r).1, shallow, hl 0 hnl, hr 0 hnr]
        | 1 => cases negated <;> simp [(intoNnf_nots_and l r).2.1, shallow, hl 1 hnl, hr 1 hnr]
        | 2 => cases negated <;> simp [(intoNnf_nots_and l r).2.2, shallow, hl 0 hnl, hr 0 hnr]
        | n + 3 => omega
      case or =>
        intro n hn b negated
        simp only [notsSettle, Bool.and_eq_true, decide_eq_true_eq] at hn
        obtain ⟨hle, hnl, hnr⟩ := hn
        match n with
        | 0 => cases negated <;> simp [(intoNnf_nots_or l r).1, shallow, hl 0 hnl, hr 0 hnr]
        | 1 => cases negated <;> simp [(intoNnf_nots_or l r).2.1, shallow, hl 1 hnl, hr 1 hnr]
        | 2 => cases negated <;> simp [(intoNnf_nots_or l r).2.2, shallow, hl 0 hnl, hr 0 hnr]
        | n + 3 => omega
      all_goals exact fun n hn => hatom rfl (Bool.and_elim_left hn)
  | unary op x hx =>
      cases op
      case not =>
        intro n hn b negated
        rw [nots_not, hx (n + 1) hn, Nat.bodd_succ, shallow]
        cases negated <;> simp
      all_goals exact fun n hn => hatom rfl (Bool.and_elim_left hn)
  | is x value hx => exact fun n hn => hatom rfl (Bool.and_elim_left hn)

/-! ## Distribution -/

/-- Moves disjunctions below conjunctions. -/
def distributeAll (e : Expression) : Expression := e.transform distribute e.weight

theorem distributeAll_eq (e : Expression) :
    e.distributeAll = e.distribute.mapOperands distributeAll := by
  unfold distributeAll
  obtain ⟨m, hm⟩ : ∃ m, e.weight = m + 1 := ⟨e.weight - 1, by have := two_le_weight e; omega⟩
  rw [hm, transform]
  refine mapOperands_congr fun x hx =>
    transform_levels (fun e => (by omega : 0 < 2).trans_le (two_le_weight e)) weight_distribute
      ?_ le_rfl
  have := weight_distribute e x hx
  omega

/-- Induction along the pass that distributes. -/
theorem distribute_induction {P : Expression → Prop}
    (h : ∀ e, (∀ x ∈ e.distribute.operands, P x) → P e) (e : Expression) : P e := by
  induction hn : e.weight using Nat.strong_induction_on generalizing e with
  | _ n ih => exact h e fun x hx => ih x.weight (hn ▸ weight_distribute e x hx) x rfl

/-- Distributing keeps what stands at the top, except that conjunctions come up. -/
theorem distributeAll_top (e : Expression) :
    e.distributeAll.isLogical = e.isLogical ∧ e.distributeAll.withoutAnd = e.withoutAnd ∧
      e.distributeAll.notsInside = e.notsInside := by
  induction e using distribute_induction with
  | h e ih =>
      rw [distributeAll_eq]
      unfold distribute at ih ⊢
      split at ih
      · rename_i a b r
        simp only [operands, List.forall_mem_cons, List.not_mem_nil, false_imp_iff, implies_true,
          and_true] at ih
        simp only [mapOperands, isLogical, withoutAnd, notsInside, ih.1.2.2, ih.2.2.2, true_and,
          Bool.false_and]
        cases a.notsInside <;> cases b.notsInside <;> cases r.notsInside <;> rfl
      · rename_i l a b _
        simp only [operands, List.forall_mem_cons, List.not_mem_nil, false_imp_iff, implies_true,
          and_true] at ih
        simp only [mapOperands, isLogical, withoutAnd, notsInside, ih.1.2.2, ih.2.2.2, true_and,
          Bool.and_false]
        cases a.notsInside <;> cases b.notsInside <;> cases l.notsInside <;> rfl
      · cases e with
        | constant | column => exact ⟨rfl, rfl, rfl⟩
        | binary op l r =>
            have hl := ih l (by simp [operands])
            have hr := ih r (by simp [operands])
            cases op <;> simp [mapOperands, isLogical, withoutAnd, notsInside, hl, hr]
        | unary op x =>
            obtain ⟨hlogical, hand, hnots⟩ := ih x (by simp [operands])
            cases op
            case not =>
              refine ⟨rfl, hand, ?_⟩
              simp only [mapOperands, notsInside, hlogical, hnots]
            all_goals exact ⟨rfl, rfl, hnots⟩
        | is x value =>
            have hx := ih x (by simp [operands])
            simp [mapOperands, isLogical, withoutAnd, notsInside, hx]

theorem top_of_not_logical (h : e.isLogical = false) :
    e.withoutAnd = true ∧ e.andsOutside = true := by
  cases e with
  | binary op l r => cases op <;> first | exact ⟨rfl, rfl⟩ | cases h
  | unary op x => cases op <;> first | exact ⟨rfl, rfl⟩ | cases h
  | _ => exact ⟨rfl, rfl⟩

/-- With all negations inside, the depth is that of the expression as it stands. -/
theorem shallow_zero (h : e.notsInside = true) : e.shallow 0 false = e.withoutAnd := by
  induction e with
  | constant | column | is => rfl
  | binary op l r hl hr =>
      cases op
      case or =>
        simp only [notsInside, Bool.and_eq_true] at h
        simp only [shallow, withoutAnd, hl h.1, hr h.2]
      all_goals rfl
  | unary op x hx =>
      cases op
      case not =>
        simp only [notsInside, Bool.and_eq_true, Bool.not_eq_true'] at h
        rw [shallow, shallow_of_not_logical h.1, withoutAnd, (top_of_not_logical h.1).1]
      all_goals rfl

/-- What is not a conjunction is below one disjunction as it is at the top. -/
theorem shallow_one (h : e.notsInside = true) (hand : ∀ l r, e ≠ and l r) :
    e.shallow 1 false = e.withoutAnd := by
  cases e with
  | constant | column | is => rfl
  | binary op l r =>
      cases op
      case and => exact absurd rfl (hand l r)
      case or =>
        simp only [notsInside, Bool.and_eq_true] at h
        simp only [shallow, withoutAnd, Nat.sub_self, shallow_zero h.1, shallow_zero h.2]
      all_goals rfl
  | unary op x =>
      cases op
      case not =>
        simp only [notsInside, Bool.and_eq_true, Bool.not_eq_true'] at h
        rw [shallow, shallow_of_not_logical h.1, withoutAnd, (top_of_not_logical h.1).1]
      all_goals rfl

/-- Conjunctions come up through one disjunction. -/
theorem andsOutside_distributeAll (e : Expression) (h : e.notsInside = true) :
    e.distributeAll.andsOutside = e.shallow 2 false := by
  induction e using distribute_induction with
  | h e ih =>
      rw [distributeAll_eq]
      unfold distribute at ih ⊢
      split at ih
      · rename_i a b r
        simp only [notsInside, Bool.and_eq_true] at h
        obtain ⟨⟨ha, hb⟩, hr⟩ := h
        have hl := ih (or a r) (by simp [operands]) (by simp [notsInside, ha, hr])
        have hr := ih (or b r) (by simp [operands]) (by simp [notsInside, hb, hr])
        simp only [mapOperands, andsOutside, hl, hr, shallow]
        cases a.shallow 1 false <;> cases b.shallow 1 false <;> cases r.shallow 1 false <;> rfl
      · rename_i l a b _
        simp only [notsInside, Bool.and_eq_true] at h
        obtain ⟨hl, ha, hb⟩ := h
        have h₁ := ih (or l a) (by simp [operands]) (by simp [notsInside, ha, hl])
        have h₂ := ih (or l b) (by simp [operands]) (by simp [notsInside, hb, hl])
        simp only [mapOperands, andsOutside, h₁, h₂, shallow]
        cases a.shallow 1 false <;> cases b.shallow 1 false <;> cases l.shallow 1 false <;> rfl
      · rename_i hleft hright
        cases e with
        | constant | column | is => rfl
        | binary op l r =>
            simp only [notsInside, Bool.and_eq_true] at h
            cases op
            case and =>
              have hl := ih l (by simp [operands]) h.1
              have hr := ih r (by simp [operands]) h.2
              simp only [mapOperands, andsOutside, hl, hr, shallow]
              rfl
            case or =>
              simp only [mapOperands, andsOutside, (distributeAll_top _).2.1, shallow]
              rw [shallow_one h.1 fun a b hab => hleft a b r (by rw [hab]),
                shallow_one h.2 fun a b hab => hright l a b (by rw [hab])]
            all_goals rfl
        | unary op x =>
            cases op
            case not =>
              simp only [notsInside, Bool.and_eq_true, Bool.not_eq_true'] at h
              have hx : x.distributeAll.isLogical = false := by rw [(distributeAll_top x).1, h.1]
              rw [mapOperands, andsOutside, (top_of_not_logical hx).2, shallow,
                shallow_of_not_logical h.1]
            all_goals rfl

/-- The normal form is conjunctive if and only if one pass settles all negations and, with
these moved inward, no conjunction is below two nested disjunctions. -/
theorem intoCnf_isCnf_iff (e : Expression) :
    e.intoCnf.IsCnf ↔ e.notsSettle 0 = true ∧ e.shallow 2 false = true := by
  have hnots : e.intoNnf.notsInside = e.notsSettle 0 := notsInside_intoNnf e 0
  have hcnf : e.intoCnf.notsInside = e.notsSettle 0 :=
    ((distributeAll_top e.intoNnf).2.2).trans hnots
  unfold IsCnf
  rw [hcnf, and_comm]
  refine and_congr_right fun h => ?_
  have hands : e.intoCnf.andsOutside = e.intoNnf.shallow 2 false :=
    andsOutside_distributeAll e.intoNnf (hnots.trans h)
  have hdepth : e.intoNnf.shallow 2 false = e.shallow 2 false := shallow_intoNnf e 0 h 2 false
  rw [hands, hdepth]

/-- `(a AND b) OR c OR d`. -/
theorem not_isCnf_intoCnf :
    ¬ (or (or (and (column 0) (column 1)) (column 2)) (column 3)).intoCnf.IsCnf := by
  unfold IsCnf
  decide +kernel

end Expression
end ToyDB.Sql
