import ToyDB.Sql.Types.Expression

/-!
# Rewriting expressions

Where an expression has a value, its normal form has the same one. The converse fails,
since dropping a double negation also drops a check that its operand is a truth value.
-/
namespace ToyDB.Sql
open ToyDB.Logic

namespace Expression
variable {fn : Builtins} {e e' l l' r r' x y z : Expression} {row : Option Row} {v : Value}

/-! ## Evaluation of logical operators -/

theorem evaluate_binary {op : BinaryOperator} : (binary op l r).evaluate fn row = .ok v ↔
    ∃ a b, l.evaluate fn row = .ok a ∧ r.evaluate fn row = .ok b ∧ op.apply fn a b = .ok v := by
  rw [evaluate, bind_eq_ok]
  simp only [bind_eq_ok]
  constructor
  · rintro ⟨a, ha, b, hb, h⟩
    exact ⟨a, b, ha, hb, h⟩
  · rintro ⟨a, b, ha, hb, h⟩
    exact ⟨a, ha, b, hb, h⟩

theorem evaluate_unary {op : UnaryOperator} : (unary op x).evaluate fn row = .ok v ↔
    ∃ a, x.evaluate fn row = .ok a ∧ op.apply fn a = .ok v := by
  rw [evaluate, bind_eq_ok]

theorem evaluate_and : (and l r).evaluate fn row = .ok v ↔ ∃ s t,
    l.evaluate fn row = .ok (.ofTruth s) ∧ r.evaluate fn row = .ok (.ofTruth t) ∧
      v = .ofTruth (s ⊓ t) := by
  rw [evaluate_binary]
  constructor
  · rintro ⟨a, b, ha, hb, h⟩
    obtain ⟨s, t, rfl, rfl, rfl⟩ := Value.and_eq_ok.mp h
    exact ⟨s, t, ha, hb, rfl⟩
  · rintro ⟨s, t, ha, hb, rfl⟩
    exact ⟨_, _, ha, hb, Value.and_eq_ok.mpr ⟨s, t, rfl, rfl, rfl⟩⟩

theorem evaluate_or : (or l r).evaluate fn row = .ok v ↔ ∃ s t,
    l.evaluate fn row = .ok (.ofTruth s) ∧ r.evaluate fn row = .ok (.ofTruth t) ∧
      v = .ofTruth (s ⊔ t) := by
  rw [evaluate_binary]
  constructor
  · rintro ⟨a, b, ha, hb, h⟩
    obtain ⟨s, t, rfl, rfl, rfl⟩ := Value.or_eq_ok.mp h
    exact ⟨s, t, ha, hb, rfl⟩
  · rintro ⟨s, t, ha, hb, rfl⟩
    exact ⟨_, _, ha, hb, Value.or_eq_ok.mpr ⟨s, t, rfl, rfl, rfl⟩⟩

theorem evaluate_not : (not x).evaluate fn row = .ok v ↔ ∃ s,
    x.evaluate fn row = .ok (.ofTruth s) ∧ v = .ofTruth s.not := by
  rw [evaluate_unary]
  constructor
  · rintro ⟨a, ha, h⟩
    obtain ⟨s, rfl, rfl⟩ := Value.not_eq_ok.mp h
    exact ⟨s, ha, rfl⟩
  · rintro ⟨s, ha, rfl⟩
    exact ⟨_, ha, Value.not_eq_ok.mpr ⟨s, rfl, rfl⟩⟩

/-! ## Refinement -/

/-- Where the first expression has a value, the second one has the same. -/
def Refines (fn : Builtins) (e e' : Expression) : Prop :=
  ∀ row v, e.evaluate fn row = .ok v → e'.evaluate fn row = .ok v

theorem Refines.refl (e : Expression) : Refines fn e e := fun _ _ h => h

theorem Refines.trans {e'' : Expression} (h : Refines fn e e') (h' : Refines fn e' e'') :
    Refines fn e e'' := fun row v he => h' row v (h row v he)

theorem Refines.binary (op : BinaryOperator) (hl : Refines fn l l') (hr : Refines fn r r') :
    Refines fn (.binary op l r) (.binary op l' r') := by
  intro row v h
  obtain ⟨a, b, ha, hb, hv⟩ := evaluate_binary.mp h
  exact evaluate_binary.mpr ⟨a, b, hl row a ha, hr row b hb, hv⟩

theorem Refines.unary (op : UnaryOperator) (hx : Refines fn x y) :
    Refines fn (.unary op x) (.unary op y) := by
  intro row v h
  obtain ⟨a, ha, hv⟩ := evaluate_unary.mp h
  exact evaluate_unary.mpr ⟨a, hx row a ha, hv⟩

/-- A test has a value only if its operand has one, and then only depends on that. -/
theorem evaluate_is {value : Value} (h : (is x value).evaluate fn row = .ok v) :
    ∃ a, x.evaluate fn row = .ok a ∧
      ∀ y, y.evaluate fn row = .ok a → (is y value).evaluate fn row = .ok v := by
  cases value with
  | null =>
      obtain ⟨a, ha, hv⟩ := bind_eq_ok.mp h
      exact ⟨a, ha, fun y hy => bind_eq_ok.mpr ⟨a, hy, hv⟩⟩
  | float g =>
      simp only [evaluate] at h
      split_ifs at h with hg
      · obtain ⟨a, ha, hv⟩ := bind_eq_ok.mp h
        refine ⟨a, ha, fun y hy => ?_⟩
        simp only [evaluate, if_pos hg]
        exact bind_eq_ok.mpr ⟨a, hy, hv⟩
      · cases h
  | boolean | integer | string => cases h

theorem Refines.is (value : Value) (hx : Refines fn x y) :
    Refines fn (.is x value) (.is y value) := by
  intro row v h
  obtain ⟨a, ha, hv⟩ := evaluate_is h
  exact hv y (hx row a ha)

theorem refines_mapOperands {f : Expression → Expression} (h : ∀ e, Refines fn e (f e))
    (e : Expression) : Refines fn e (e.mapOperands f) := by
  cases e with
  | constant | column => exact .refl _
  | binary op l r => exact (h l).binary op (h r)
  | unary op x => exact (h x).unary op
  | is x value => exact (h x).is value

/-- A rewrite whose steps refine refines, however deep it descends. -/
theorem refines_transform {before : Expression → Expression} (h : ∀ e, Refines fn e (before e))
    (levels : ℕ) (e : Expression) : Refines fn e (e.transform before levels) := by
  induction levels generalizing e with
  | zero => exact .refl e
  | succ levels ih => exact (h e).trans (refines_mapOperands ih _)

/-- De Morgan's laws and double negation. -/
theorem refines_pushNot (e : Expression) : Refines fn e e.pushNot := by
  intro row v he
  unfold pushNot
  split
  · obtain ⟨s, hs, rfl⟩ := evaluate_not.mp he
    obtain ⟨t, u, ht, hu, hv⟩ := evaluate_and.mp hs
    obtain rfl := Value.ofTruth_injective hv
    exact evaluate_or.mpr ⟨_, _, evaluate_not.mpr ⟨t, ht, rfl⟩, evaluate_not.mpr ⟨u, hu, rfl⟩,
      by rw [Truth.not_inf]⟩
  · obtain ⟨s, hs, rfl⟩ := evaluate_not.mp he
    obtain ⟨t, u, ht, hu, hv⟩ := evaluate_or.mp hs
    obtain rfl := Value.ofTruth_injective hv
    exact evaluate_and.mpr ⟨_, _, evaluate_not.mpr ⟨t, ht, rfl⟩, evaluate_not.mpr ⟨u, hu, rfl⟩,
      by rw [Truth.not_sup]⟩
  · obtain ⟨s, hs, rfl⟩ := evaluate_not.mp he
    obtain ⟨t, ht, hv⟩ := evaluate_not.mp hs
    obtain rfl := Value.ofTruth_injective hv
    rw [Truth.not_not]
    exact ht
  · exact he

/-- Disjunction distributes over conjunction on both sides. -/
theorem refines_distribute (e : Expression) : Refines fn e e.distribute := by
  intro row v he
  unfold distribute
  split
  · obtain ⟨s, t, hs, ht, rfl⟩ := evaluate_or.mp he
    obtain ⟨s₁, s₂, h₁, h₂, hv⟩ := evaluate_and.mp hs
    obtain rfl := Value.ofTruth_injective hv
    exact evaluate_and.mpr ⟨_, _, evaluate_or.mpr ⟨s₁, t, h₁, ht, rfl⟩,
      evaluate_or.mpr ⟨s₂, t, h₂, ht, rfl⟩, by rw [sup_inf_right]⟩
  · obtain ⟨s, t, hs, ht, rfl⟩ := evaluate_or.mp he
    obtain ⟨t₁, t₂, h₁, h₂, hv⟩ := evaluate_and.mp ht
    obtain rfl := Value.ofTruth_injective hv
    exact evaluate_and.mpr ⟨_, _, evaluate_or.mpr ⟨s, t₁, hs, h₁, rfl⟩,
      evaluate_or.mpr ⟨s, t₂, hs, h₂, rfl⟩, by rw [sup_inf_left]⟩
  · exact he

theorem refines_intoCnf (e : Expression) : Refines fn e e.intoCnf :=
  (refines_transform refines_pushNot _ e).trans (refines_transform refines_distribute _ _)

/-! ## Enough levels -/

def operands : Expression → List Expression
  | binary _ lhs rhs => [lhs, rhs]
  | unary _ expr => [expr]
  | is expr _ => [expr]
  | _ => []

theorem mapOperands_congr {f g : Expression → Expression} {e : Expression}
    (h : ∀ x ∈ e.operands, f x = g x) : e.mapOperands f = e.mapOperands g := by
  cases e with
  | constant | column => rfl
  | binary op l r => simp only [mapOperands, h l (by simp [operands]), h r (by simp [operands])]
  | unary op x => simp only [mapOperands, h x (by simp [operands])]
  | is x value => simp only [mapOperands, h x (by simp [operands])]

/-- A bound that decreases at every level bounds the levels of a rewrite. -/
theorem transform_levels {before : Expression → Expression} {rank : Expression → ℕ}
    (hpos : ∀ e, 0 < rank e) (hlt : ∀ e, ∀ x ∈ (before e).operands, rank x < rank e) {m n : ℕ} :
    ∀ {e : Expression}, rank e ≤ m → rank e ≤ n → e.transform before m = e.transform before n := by
  induction m generalizing n with
  | zero =>
      intro e hm _
      exact absurd (hpos e) (by omega)
  | succ m ih =>
      intro e hm hn
      obtain ⟨n, rfl⟩ : ∃ k, n = k + 1 := ⟨n - 1, by have := hpos e; omega⟩
      refine mapOperands_congr fun x hx => ih ?_ ?_
      · have := hlt e x hx
        omega
      · have := hlt e x hx
        omega

theorem size_pos (e : Expression) : 0 < e.size := by cases e <;> simp [size]

theorem two_le_weight (e : Expression) : 2 ≤ e.weight := by
  induction e with
  | constant | column => exact le_rfl
  | binary op l r hl hr =>
      cases op
      case or =>
        have := Nat.mul_le_mul hl hr
        change 2 ≤ l.weight * r.weight
        omega
      all_goals
        change 2 ≤ l.weight + r.weight + 1
        omega
  | unary op x hx =>
      change 2 ≤ x.weight + 1
      omega
  | is x value hx =>
      change 2 ≤ x.weight + 1
      omega

theorem size_lt_of_mem_operands (e : Expression) : ∀ x ∈ e.operands, x.size < e.size := by
  intro x hx
  cases e <;> simp only [operands, List.mem_cons, List.not_mem_nil, or_false] at hx
  case binary op l r =>
    obtain rfl | rfl := hx
    · simp only [size]; omega
    · simp only [size]; omega
  case unary => subst hx; simp only [size]; omega
  case is => subst hx; simp only [size]; omega

theorem size_pushNot (e : Expression) : ∀ x ∈ e.pushNot.operands, x.size < e.size := by
  unfold pushNot
  split
  · intro x hx
    simp only [operands, List.mem_cons, List.not_mem_nil, or_false] at hx
    obtain rfl | rfl := hx
    · simp only [size]; omega
    · simp only [size]; omega
  · intro x hx
    simp only [operands, List.mem_cons, List.not_mem_nil, or_false] at hx
    obtain rfl | rfl := hx
    · simp only [size]; omega
    · simp only [size]; omega
  · intro x hx
    have := size_lt_of_mem_operands _ x hx
    simp only [size]
    omega
  · exact size_lt_of_mem_operands _

theorem weight_lt_of_mem_operands (e : Expression) : ∀ x ∈ e.operands, x.weight < e.weight := by
  intro x hx
  cases e <;> simp only [operands, List.mem_cons, List.not_mem_nil, or_false] at hx
  case binary op l r =>
    have hl := two_le_weight l
    have hr := two_le_weight r
    cases op
    case or =>
      change x.weight < l.weight * r.weight
      obtain rfl | rfl := hx
      · have := Nat.mul_le_mul_left x.weight hr
        omega
      · have := Nat.mul_le_mul_right x.weight hl
        omega
    all_goals
      change x.weight < l.weight + r.weight + 1
      obtain rfl | rfl := hx <;> omega
  case unary op y =>
    subst hx
    exact Nat.lt_succ_self _
  case is y value =>
    subst hx
    exact Nat.lt_succ_self _

theorem weight_distribute (e : Expression) : ∀ x ∈ e.distribute.operands, x.weight < e.weight := by
  unfold distribute
  split
  · rename_i l r rhs
    have hz := two_le_weight rhs
    intro x hx
    simp only [operands, List.mem_cons, List.not_mem_nil, or_false] at hx
    change x.weight < (l.weight + r.weight + 1) * rhs.weight
    obtain rfl | rfl := hx
    · exact Nat.mul_lt_mul_of_pos_right (by omega) (by omega)
    · exact Nat.mul_lt_mul_of_pos_right (by omega) (by omega)
  · rename_i lhs l r _
    have hz := two_le_weight lhs
    intro x hx
    simp only [operands, List.mem_cons, List.not_mem_nil, or_false] at hx
    change x.weight < lhs.weight * (l.weight + r.weight + 1)
    obtain rfl | rfl := hx
    · exact Nat.mul_lt_mul_of_pos_left (by omega) (by omega)
    · exact Nat.mul_lt_mul_of_pos_left (by omega) (by omega)
  · exact weight_lt_of_mem_operands _

theorem intoNnf_and (l r : Expression) : (and l r).intoNnf = and l.intoNnf r.intoNnf := by
  have h : ∀ e n, size e ≤ n → e.transform pushNot n = e.intoNnf := fun e n hn =>
    transform_levels size_pos size_pushNot hn le_rfl
  change and (l.transform pushNot (l.size + r.size)) (r.transform pushNot (l.size + r.size)) = _
  rw [h l _ (by omega), h r _ (by omega)]

/-- Converting a conjunction converts its operands. -/
theorem intoCnf_and (l r : Expression) : (and l r).intoCnf = and l.intoCnf r.intoCnf := by
  have h : ∀ e n, weight e ≤ n → e.transform distribute n = e.transform distribute e.weight :=
    fun e n hn => transform_levels (fun e => (by omega : 0 < 2).trans_le (two_le_weight e))
      weight_distribute hn le_rfl
  unfold intoCnf
  rw [intoNnf_and]
  change and (l.intoNnf.transform distribute (l.intoNnf.weight + r.intoNnf.weight))
    (r.intoNnf.transform distribute (l.intoNnf.weight + r.intoNnf.weight)) = _
  rw [h l.intoNnf _ (by omega), h r.intoNnf _ (by omega)]

end Expression
end ToyDB.Sql
