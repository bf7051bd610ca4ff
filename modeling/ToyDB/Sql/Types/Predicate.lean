import ToyDB.Sql.Types.NormalForm

/-!
# Predicates on rows

A predicate holds of a row if it is true there, which it is just if all its conjuncts are.
Renaming the columns of a predicate is evaluating it on another row, and its normal form
refers to no other columns.
-/
namespace ToyDB.Sql
open ToyDB.Logic

namespace Expression
variable {fn : Builtins} {e l r : Expression} {row : Row}

def Holds (fn : Builtins) (e : Expression) (row : Row) : Prop :=
  e.evaluate fn (some row) = .ok (.boolean true)

instance : Decidable (e.Holds fn row) :=
  inferInstanceAs (Decidable (_ = (Except.ok (Value.boolean true) : Except Failure Value)))

/-- The expression is a truth value on the row. -/
def Defined (fn : Builtins) (e : Expression) (row : Row) : Prop :=
  ∃ t, e.evaluate fn (some row) = .ok (.ofTruth t)

theorem holds_and : (and l r).Holds fn row ↔ l.Holds fn row ∧ r.Holds fn row := by
  unfold Holds
  rw [evaluate_and]
  constructor
  · rintro ⟨s, t, hs, ht, hv⟩
    have h : Truth.true = s ⊓ t := Value.ofTruth_injective hv
    obtain ⟨rfl, rfl⟩ := Truth.inf_eq_true.mp h.symm
    exact ⟨hs, ht⟩
  · intro h
    exact ⟨.true, .true, h.1, h.2, rfl⟩

/-- A predicate that is not a conjunction is its only conjunct. -/
theorem conjuncts_induction {P : Expression → Prop} (hand : ∀ l r, P l → P r → P (and l r))
    (hatom : ∀ e, e.conjuncts = [e] → P e) (e : Expression) : P e := by
  induction e with
  | constant | column | unary | is => exact hatom _ rfl
  | binary op l r hl hr =>
      cases op
      case and => exact hand l r hl hr
      all_goals exact hatom _ rfl

theorem holds_iff_conjuncts : e.Holds fn row ↔ ∀ c ∈ e.conjuncts, c.Holds fn row := by
  induction e using conjuncts_induction with
  | hand l r hl hr =>
      rw [holds_and, hl, hr]
      simp only [conjuncts, List.mem_append, or_imp, forall_and]
  | hatom e he => simp [he]

/-! ## Normal forms and conjunctions -/

theorem Holds.refines {e' : Expression} (h : e.Holds fn row) (hr : Refines fn e e') :
    e'.Holds fn row := hr _ _ h

theorem conjuncts_foldl_and (es : List Expression) (e : Expression) :
    (es.foldl and e).conjuncts = e.conjuncts ++ es.flatMap conjuncts := by
  induction es generalizing e with
  | nil => simp
  | cons e' es ih => rw [List.foldl_cons, ih, conjuncts, List.flatMap_cons, List.append_assoc]

theorem conjuncts_andVec {es : List Expression} (h : andVec es = some e) :
    e.conjuncts = es.flatMap conjuncts := by
  cases es with
  | nil => cases h
  | cons e' es =>
      obtain rfl := Option.some.inj h
      rw [conjuncts_foldl_and, List.flatMap_cons]

theorem andVec_eq_none {es : List Expression} : andVec es = none ↔ es = [] := by
  cases es <;> simp [andVec]

/-! ## Columns -/

/-- The columns that an expression refers to. -/
def columns : Expression → List ℕ
  | column index => [index]
  | binary _ lhs rhs => lhs.columns ++ rhs.columns
  | unary _ expr => expr.columns
  | is expr _ => expr.columns
  | constant _ => []

theorem contains_isColumn {p : ℕ → Bool} : e.contains (isColumn p) = e.columns.any p := by
  have h : e.walk (fun x => !isColumn p x) = !e.columns.any p := by
    induction e with
    | constant v => rfl
    | column i => simp [walk, isColumn, columns]
    | binary op l r hl hr =>
        rw [walk, hl, hr, columns, List.any_append, Bool.not_or]
        rfl
    | unary op x hx =>
        rw [walk, hx]
        rfl
    | is x v hx =>
        rw [walk, hx]
        rfl
  rw [contains, h, Bool.not_not]

/-- Renames columns. -/
def mapColumns (f : ℕ → ℕ) : Expression → Expression
  | column index => column (f index)
  | binary op lhs rhs => binary op (lhs.mapColumns f) (rhs.mapColumns f)
  | unary op expr => unary op (expr.mapColumns f)
  | is expr value => is (expr.mapColumns f) value
  | constant value => constant value

theorem transform_onColumn {f : ℕ → ℕ} {levels : ℕ} (h : e.size ≤ levels) :
    e.transform (onColumn f) levels = e.mapColumns f := by
  induction e generalizing levels with
  | constant v => cases levels <;> rfl
  | column i =>
      obtain ⟨n, rfl⟩ : ∃ n, levels = n + 1 := ⟨levels - 1, by simp only [size] at h; omega⟩
      rfl
  | binary op l r hl hr =>
      simp only [size] at h
      obtain ⟨n, rfl⟩ : ∃ n, levels = n + 1 := ⟨levels - 1, by omega⟩
      change binary op (l.transform _ n) (r.transform _ n) = _
      rw [hl (by omega), hr (by omega), mapColumns]
  | unary op x hx =>
      simp only [size] at h
      obtain ⟨n, rfl⟩ : ∃ n, levels = n + 1 := ⟨levels - 1, by omega⟩
      change unary op (x.transform _ n) = _
      rw [hx (by omega), mapColumns]
  | is x v hx =>
      simp only [size] at h
      obtain ⟨n, rfl⟩ : ∃ n, levels = n + 1 := ⟨levels - 1, by omega⟩
      change is (x.transform _ n) v = _
      rw [hx (by omega), mapColumns]

theorem replaceColumn_eq (e : Expression) (source target : ℕ) :
    e.replaceColumn source target = e.mapColumns fun i => if i = source then target else i :=
  transform_onColumn le_rfl

theorem shiftColumn_eq (e : Expression) (diff : ℤ) :
    e.shiftColumn diff = e.mapColumns fun i => (i + diff).toNat :=
  transform_onColumn le_rfl

theorem columns_mapColumns (f : ℕ → ℕ) (e : Expression) :
    (e.mapColumns f).columns = e.columns.map f := by
  induction e with
  | constant | column => rfl
  | binary op l r hl hr => simp [mapColumns, columns, hl, hr]
  | unary op x hx => simpa [mapColumns, columns] using hx
  | is x v hx => simpa [mapColumns, columns] using hx

theorem columns_conjuncts {c : Expression} (hc : c ∈ e.conjuncts) {i : ℕ} (hi : i ∈ c.columns) :
    i ∈ e.columns := by
  induction e using conjuncts_induction with
  | hand l r hl hr =>
      simp only [conjuncts, List.mem_append] at hc
      simp only [columns, List.mem_append]
      exact hc.imp hl hr
  | hatom e he =>
      rw [he, List.mem_singleton] at hc
      exact hc ▸ hi

/-- Rewrites that only move operands around refer to no new columns. -/
theorem columns_transform {before : Expression → Expression}
    (h : ∀ e, ∀ i ∈ (before e).columns, i ∈ e.columns) (levels : ℕ) (e : Expression) :
    ∀ i ∈ (e.transform before levels).columns, i ∈ e.columns := by
  induction levels generalizing e with
  | zero => exact fun i hi => hi
  | succ levels ih =>
      intro i hi
      refine h e i ?_
      change i ∈ ((before e).mapOperands _).columns at hi
      cases hb : before e with
      | constant v => rw [hb] at hi; exact hi
      | column j => rw [hb] at hi; exact hi
      | binary op l r =>
          rw [hb] at hi
          simp only [mapOperands, columns, List.mem_append] at hi ⊢
          exact hi.imp (ih l i) (ih r i)
      | unary op x => rw [hb] at hi; exact ih x i hi
      | is x v => rw [hb] at hi; exact ih x i hi

theorem columns_intoCnf (e : Expression) : ∀ i ∈ e.intoCnf.columns, i ∈ e.columns := by
  have hnot : ∀ e : Expression, ∀ i ∈ e.pushNot.columns, i ∈ e.columns := by
    intro e i hi
    unfold pushNot at hi
    split at hi <;> simpa [columns] using hi
  have hdist : ∀ e : Expression, ∀ i ∈ e.distribute.columns, i ∈ e.columns := by
    intro e i hi
    unfold distribute at hi
    split at hi
    · simp only [columns, List.mem_append] at hi ⊢
      tauto
    · simp only [columns, List.mem_append] at hi ⊢
      tauto
    · exact hi
  intro i hi
  exact columns_transform hnot _ _ i (columns_transform hdist _ _ i hi)

theorem columns_intoCnfVec {c : Expression} (hc : c ∈ e.intoCnfVec) {i : ℕ} (hi : i ∈ c.columns) :
    i ∈ e.columns := columns_intoCnf e i (columns_conjuncts hc hi)

end Expression
end ToyDB.Sql
