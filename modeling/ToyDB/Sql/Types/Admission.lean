import ToyDB.Sql.Types.Conjunctive

/-!
# Predicates up to normal form

A normal form can have a value where the predicate has none, and the normal form of a
normal form need not be the same. A predicate admits a row if some repeated normal form of
it holds, so that it admits the same rows as its normal form does.
-/
namespace ToyDB.Sql.Expression
variable {fn : Builtins} {e l r : Expression} {row row' : Row} {es : List Expression}

/-- The predicate, or a repeated normal form of it, holds of the row. -/
def Admits (fn : Builtins) (e : Expression) (row : Row) : Prop :=
  ∃ n, (intoCnf^[n] e).Holds fn row

theorem refines_iterate (e : Expression) (n : ℕ) : Refines fn e (intoCnf^[n] e) := by
  induction n generalizing e with
  | zero => exact .refl e
  | succ n ih => exact (refines_intoCnf e).trans (ih e.intoCnf)

theorem holds_iterate_of_le {m n : ℕ} (h : (intoCnf^[m] e).Holds fn row) (hle : m ≤ n) :
    (intoCnf^[n] e).Holds fn row := by
  obtain ⟨k, rfl⟩ := Nat.exists_eq_add_of_le' hle
  rw [Function.iterate_add_apply]
  exact h.refines (refines_iterate _ k)

theorem Holds.admits (h : e.Holds fn row) : e.Admits fn row := ⟨0, h⟩

theorem iterate_and (n : ℕ) (l r : Expression) :
    intoCnf^[n] (and l r) = and (intoCnf^[n] l) (intoCnf^[n] r) := by
  induction n generalizing l r with
  | zero => rfl
  | succ n ih =>
      simp only [Function.iterate_succ_apply]
      rw [intoCnf_and, ih]

theorem admits_and : (and l r).Admits fn row ↔ l.Admits fn row ∧ r.Admits fn row := by
  constructor
  · rintro ⟨n, hn⟩
    rw [iterate_and, holds_and] at hn
    exact ⟨⟨n, hn.1⟩, ⟨n, hn.2⟩⟩
  · rintro ⟨⟨m, hm⟩, ⟨n, hn⟩⟩
    refine ⟨max m n, ?_⟩
    rw [iterate_and, holds_and]
    exact ⟨holds_iterate_of_le hm (le_max_left m n), holds_iterate_of_le hn (le_max_right m n)⟩

theorem admits_iff_conjuncts : e.Admits fn row ↔ ∀ c ∈ e.conjuncts, c.Admits fn row := by
  induction e using conjuncts_induction with
  | hand l r hl hr =>
      rw [admits_and, hl, hr]
      simp only [conjuncts, List.mem_append, or_imp, forall_and]
  | hatom e he => simp [he]

theorem admits_andVec (h : andVec es = some e) :
    e.Admits fn row ↔ ∀ c ∈ es, c.Admits fn row := by
  have hconjuncts : (∀ c ∈ es.flatMap conjuncts, c.Admits fn row) ↔ ∀ c ∈ es, c.Admits fn row := by
    simp only [List.mem_flatMap, forall_exists_index, and_imp]
    rw [forall_comm]
    refine forall_congr' fun c => ?_
    rw [admits_iff_conjuncts]
    exact ⟨fun hc hmem c' hc' => hc c' hmem hc', fun hc c' hmem hc' => hc hmem c' hc'⟩
  rw [admits_iff_conjuncts, conjuncts_andVec h, hconjuncts]

/-! ## Columns -/

section MapColumns
variable {f : ℕ → ℕ}

end MapColumns

end ToyDB.Sql.Expression
