import Mathlib.Order.Lattice
import Mathlib.Tactic.Common

/-!
# Three-valued logic

Kleene's truth values as a chain with false at the bottom and true at the top:
conjunction is the infimum and disjunction the supremum, so they distribute over each
other, and negation is an involution that exchanges them.
-/
namespace ToyDB.Logic

inductive Truth where
  | false
  | unknown
  | true
  deriving DecidableEq, Repr

namespace Truth

def rank : Truth → ℕ
  | false => 0
  | unknown => 1
  | true => 2

theorem rank_injective : Function.Injective rank := by
  intro s t h
  cases s <;> cases t <;> first | rfl | cases h

instance : LinearOrder Truth := LinearOrder.lift' rank rank_injective

def not : Truth → Truth
  | false => true
  | unknown => unknown
  | true => false

def ofBool : Bool → Truth
  | .false => false
  | .true => true

@[simp] theorem not_not (s : Truth) : s.not.not = s := by cases s <;> rfl

theorem not_inf (s t : Truth) : (s ⊓ t).not = s.not ⊔ t.not := by
  cases s <;> cases t <;> decide

theorem not_sup (s t : Truth) : (s ⊔ t).not = s.not ⊓ t.not := by
  cases s <;> cases t <;> decide

theorem inf_eq_true {s t : Truth} : s ⊓ t = true ↔ s = true ∧ t = true := by
  cases s <;> cases t <;> decide

end Truth
end ToyDB.Logic
