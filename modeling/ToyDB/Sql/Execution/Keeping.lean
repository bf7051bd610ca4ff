import ToyDB.Sql.Execution.Executor
import ToyDB.Sql.Types.Predicate

/-!
# Kept rows

Filters and joins keep the rows of which a predicate holds, where it is a truth value on
all rows that it meets. Errors are passed on. Rows that a join drops can be dropped from its
sources, and the other way around.
-/
namespace ToyDB.Sql
open ToyDB.Collections ToyDB.Mvcc

/-- The rows of an iterator. -/
def Yielded (result : Except Failure Rows) (row : Row) : Prop :=
  ∃ rows, result = .ok rows ∧ .ok row ∈ rows

/-- Joined rows of two iterators. -/
def Paired (left right : Except Failure Rows) (row : Row) : Prop :=
  ∃ a b, Yielded left a ∧ Yielded right b ∧ row = a ++ b

/-- The kept rows; errors are passed on. -/
def Rows.keep (keep : Row → Bool) (rows : Rows) : Rows :=
  List.filter (fun item => item.toOption.all keep) rows

/-- The kept joined rows for one left row. -/
def joinKept (keep : Row → Bool) (right : Rows) (left : Row) : Rows :=
  right.filterMap fun item =>
    match item with
    | .error e => some (.error e)
    | .ok row => if keep (left ++ row) then some (.ok (left ++ row)) else none

/-- What a left item contributes to a join. -/
def joinItem (keep : Row → Bool) (right : Rows) (rightColumns : ℕ) (outer : Bool) :
    Except Failure Row → Rows
  | .error e => [.error e]
  | .ok row =>
      let joined := joinKept keep right row
      if outer && !joined.any Except.isOk then
        joined ++ [.ok (row ++ List.replicate rightColumns .null)]
      else joined

/-- A nested-loop join that keeps some of the joined rows. -/
def joinWith (keep : Row → Bool) (left right : Rows) (rightColumns : ℕ) (outer : Bool) : Rows :=
  left.flatMap (joinItem keep right rightColumns outer)

/-- The join of two iterators. -/
def joinResult (keep : Row → Bool) (left right : Except Failure Rows) (rightColumns : ℕ)
    (outer : Bool) : Except Failure Rows := do
  let leftRows ← left
  let rightRows ← right
  return joinWith keep leftRows rightRows rightColumns outer

section Keep
variable {keep keep' : Row → Bool} {rows left right : Rows} {columns : ℕ} {outer : Bool}

theorem mem_keep {row : Row} : .ok row ∈ Rows.keep keep rows ↔ .ok row ∈ rows ∧ keep row = true := by
  simp [Rows.keep, Except.toOption]

theorem error_mem_keep {e : Failure} : .error e ∈ Rows.keep keep rows ↔ .error e ∈ rows := by
  simp [Rows.keep, Except.toOption]

theorem keep_true (h : ∀ row, .ok row ∈ rows → keep row = true) : Rows.keep keep rows = rows := by
  refine List.filter_eq_self.mpr fun item hitem => ?_
  cases item with
  | error e => rfl
  | ok row => exact h row hitem

end Keep

section Results
variable {keep keep' : Row → Bool} {result left right : Except Failure Rows} {row : Row}
  {columns : ℕ} {outer : Bool}

theorem yielded_map_keep :
    Yielded (result.map (Rows.keep keep)) row ↔ Yielded result row ∧ keep row = true := by
  cases result with
  | error e => simp [Yielded, Except.map]
  | ok rows => simp [Yielded, Except.map, mem_keep]

theorem map_keep_true (h : ∀ row, Yielded result row → keep row = true) :
    result.map (Rows.keep keep) = result := by
  cases result with
  | error e => rfl
  | ok rows => exact congrArg Except.ok (keep_true fun row hr => h row ⟨rows, rfl, hr⟩)

end Results
end ToyDB.Sql
