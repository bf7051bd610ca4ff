import ToyDB.Sql.Execution.Executor

/-!
# Agreement up to the first error

A plan that is rewritten may skip evaluations, and with them errors. Two sequences of rows
agree if they are the same up to the first error of the first one, after which anything
may follow. The operators of the executor keep agreement, except that OFFSET may skip the
error that excuses what follows.
-/
namespace ToyDB.Sql
open ToyDB.Collections

namespace Rows

inductive Agree : Rows → Rows → Prop
  | nil : Agree [] []
  | row (row : Row) {rows rows' : Rows} (h : Agree rows rows') :
      Agree (.ok row :: rows) (.ok row :: rows')
  | error (e : Failure) (rows rows' : Rows) : Agree (.error e :: rows) rows'

variable {rows rows' rows'' : Rows}

theorem Agree.refl (rows : Rows) : rows.Agree rows := by
  induction rows with
  | nil => exact .nil
  | cons item rows ih =>
      cases item with
      | ok row => exact .row row ih
      | error e => exact .error e rows _

theorem Agree.trans (h : rows.Agree rows') (h' : rows'.Agree rows'') : rows.Agree rows'' := by
  induction h generalizing rows'' with
  | nil => exact h'
  | row row _ ih =>
      cases h' with
      | row _ h' => exact .row row (ih h')
  | error e rows rows' => exact .error e rows rows''

/-- Without errors, agreement is equality. -/
theorem Agree.eq_of_ok {list : List Row} (h : Agree (list.map .ok) rows) :
    rows = list.map .ok := by
  induction list generalizing rows with
  | nil =>
      cases h
      rfl
  | cons row list ih =>
      cases h with
      | row _ h => rw [List.map_cons, ih h]

theorem Agree.append {last last' : Rows} (h : rows.Agree rows') (hlast : last.Agree last') :
    Agree (rows ++ last) (rows' ++ last') := by
  induction h with
  | nil => exact hlast
  | row row _ ih => exact .row row ih
  | error e rows rows' => exact .error e _ _

/-- No row comes before the first error. -/
def Rowless (rows : Rows) : Prop := ∀ row, rows.head? ≠ some (.ok row)

theorem agree_nil_iff : rows.Agree [] ↔ rows.Rowless := by
  constructor
  · intro h row
    cases h with
    | nil => simp
    | error => simp
  · intro h
    cases rows with
    | nil => exact .nil
    | cons item rows =>
        cases item with
        | ok row => exact absurd rfl (h row)
        | error e => exact .error e rows []

theorem rowless_append {last : Rows} (h : rows.Rowless) (hlast : last.Rowless) :
    Rowless (rows ++ last) :=
  agree_nil_iff.mp ((agree_nil_iff.mpr h).append (agree_nil_iff.mpr hlast))

/-! ## Operators -/

/-- Rows that are made from each item; errors are passed on. -/
theorem Agree.flatMap {f g : Except Failure Row → Rows} (h : rows.Agree rows')
    (hrow : ∀ row, (f (.ok row)).Agree (g (.ok row)))
    (herror : ∀ e, ∃ e' rest, f (.error e) = .error e' :: rest) :
    Agree (rows.flatMap f) (rows'.flatMap g) := by
  induction h with
  | nil => exact .nil
  | row row _ ih =>
      rw [List.flatMap_cons, List.flatMap_cons]
      exact (hrow row).append ih
  | error e rows rows' =>
      obtain ⟨e', rest, he⟩ := herror e
      rw [List.flatMap_cons, he]
      exact .error e' _ _

theorem Agree.filterMap {f : Except Failure Row → Option (Except Failure Row)}
    (h : rows.Agree rows') (herror : ∀ e, ∃ e', f (.error e) = some (.error e')) :
    Agree (rows.filterMap f) (rows'.filterMap f) := by
  have hflat : ∀ rows : Rows, rows.filterMap f = rows.flatMap fun item => (f item).toList := by
    intro rows
    induction rows with
    | nil => rfl
    | cons item rows ih =>
        rw [List.filterMap_cons, List.flatMap_cons, ← ih]
        cases f item <;> rfl
  rw [hflat, hflat]
  refine h.flatMap (fun row => .refl _) ?_
  intro e
  obtain ⟨e', he⟩ := herror e
  exact ⟨e', [], by rw [he]; rfl⟩

theorem Agree.filter (h : rows.Agree rows') (fn : Builtins) (predicate : Expression) :
    Agree (rows.filter fn predicate) (rows'.filter fn predicate) :=
  h.filterMap fun e => ⟨e, rfl⟩

theorem Agree.mapRows (h : rows.Agree rows') (f : Row → Except Failure Row) :
    Agree (rows.mapRows f) (rows'.mapRows f) := by
  have hmap : ∀ rows : Rows, rows.mapRows f = rows.filterMap fun item => some (item.bind f) :=
    fun rows => congrFun List.filterMap_eq_map'.symm rows
  rw [hmap, hmap]
  exact h.filterMap fun e => ⟨e, rfl⟩

theorem Agree.take (h : rows.Agree rows') (n : ℕ) : Agree (rows.take n) (rows'.take n) := by
  induction h generalizing n with
  | nil => exact .refl _
  | row row _ ih =>
      cases n with
      | zero => exact .nil
      | succ n => exact .row row (ih n)
  | error e rows rows' =>
      cases n with
      | zero => exact .nil
      | succ n => exact .error e _ _

/-- Skipping rows keeps agreement if no error is skipped. -/
theorem Agree.drop (h : rows.Agree rows') {n : ℕ}
    (hskips : ∀ item ∈ rows.take n, item.isOk = true) : Agree (rows.drop n) (rows'.drop n) := by
  induction h generalizing n with
  | nil => exact .refl _
  | row row h ih =>
      cases n with
      | zero => exact .row row h
      | succ n =>
          apply ih
          intro item hitem
          exact hskips item (List.mem_cons_of_mem _ hitem)
  | error e rows rows' =>
      cases n with
      | zero => exact .error e rows rows'
      | succ n => exact absurd (hskips _ List.mem_cons_self) (by simp [Except.isOk, Except.toBool])

/-- After an error, anything may follow. -/
theorem Agree.append_of_error (h : rows.Agree rows') {e : Failure} (he : .error e ∈ rows)
    (last last' : Rows) : Agree (rows ++ last) (rows' ++ last') := by
  induction h with
  | nil => cases he
  | row row _ ih => exact .row row (ih (by simpa using he))
  | error e rows rows' => exact .error e _ _

theorem ok_or_error (rows : Rows) :
    (∃ list : List Row, rows = list.map .ok) ∨ ∃ e, .error e ∈ rows := by
  induction rows with
  | nil => exact .inl ⟨[], rfl⟩
  | cons item rows ih =>
      cases item with
      | error e => exact .inr ⟨e, List.mem_cons_self⟩
      | ok row =>
          obtain ⟨list, rfl⟩ | ⟨e, he⟩ := ih
          · exact .inl ⟨row :: list, rfl⟩
          · exact .inr ⟨e, List.mem_cons_of_mem _ he⟩

theorem Agree.joinRow (h : rows.Agree rows') (fn : Builtins) (predicate : Option Expression)
    (left : Row) : Agree (joinRow fn predicate rows left) (joinRow fn predicate rows' left) :=
  h.filterMap fun e => ⟨e, rfl⟩

theorem Agree.nestedLoopJoin {right right' : Rows} (h : rows.Agree rows')
    (hright : right.Agree right') (fn : Builtins) (columns : ℕ) (predicate : Option Expression)
    (outer : Bool) : Agree (nestedLoopJoin fn rows right columns predicate outer)
      (nestedLoopJoin fn rows' right' columns predicate outer) := by
  refine h.flatMap ?_ fun e => ⟨e, [], rfl⟩
  intro row
  have hjoined := hright.joinRow fn predicate row
  dsimp only
  obtain ⟨list, hlist⟩ | ⟨e, he⟩ := ok_or_error (Sql.joinRow fn predicate right row)
  · rw [hlist] at hjoined
    rw [hlist, hjoined.eq_of_ok]
    exact .refl _
  · have happend := hjoined.append_of_error he
    split_ifs
    · exact happend _ _
    · simpa using happend _ []
    · simpa using happend [] _
    · exact hjoined

theorem Rowless.joinRow {right : Rows} (h : right.Rowless) (fn : Builtins)
    (predicate : Option Expression) (left : Row) : (joinRow fn predicate right left).Rowless :=
  agree_nil_iff.mp ((agree_nil_iff.mpr h).joinRow fn predicate left)

/-- An inner join yields no row if no left row is joined. -/
theorem rowless_nestedLoopJoin {left right : Rows} {fn : Builtins}
    {predicate : Option Expression} (h : ∀ row, (Sql.joinRow fn predicate right row).Rowless)
    (columns : ℕ) : (Sql.nestedLoopJoin fn left right columns predicate false).Rowless := by
  induction left with
  | nil => simp [Rowless, Sql.nestedLoopJoin]
  | cons item left ih =>
      cases item with
      | error e => simp [Rowless, Sql.nestedLoopJoin]
      | ok row => exact rowless_append (h row) ih

theorem Agree.hashJoin (h : rows.Agree rows') (leftColumn : ℕ) (hashed : List (Value × Row))
    (columns : ℕ) (outer : Bool) : Agree (hashJoin rows leftColumn hashed columns outer)
      (hashJoin rows' leftColumn hashed columns outer) :=
  h.flatMap (fun _ => .refl _) fun e => ⟨e, [], rfl⟩

end Rows

/-! ## Results -/

/-- The results of plan nodes agree: if the first one can be executed, so can the second one,
with rows that agree. -/
def Agrees (result result' : Except Failure Rows) : Prop :=
  ∀ rows, result = .ok rows → ∃ rows', result' = .ok rows' ∧ rows.Agree rows'

variable {result result' result'' : Except Failure Rows}

theorem Agrees.refl (result : Except Failure Rows) : Agrees result result :=
  fun rows h => ⟨rows, h, .refl rows⟩

theorem Agrees.trans (h : Agrees result result') (h' : Agrees result' result'') :
    Agrees result result'' := by
  intro rows hrows
  obtain ⟨rows', hrows', hagree⟩ := h rows hrows
  obtain ⟨rows'', hrows'', hagree'⟩ := h' rows' hrows'
  exact ⟨rows'', hrows'', hagree.trans hagree'⟩

/-- A result without errors is kept. -/
theorem Agrees.eq_of_ok {list : List Row} (h : Agrees (.ok (list.map .ok)) result) :
    result = .ok (list.map .ok) := by
  obtain ⟨rows, hresult, hrows⟩ := h _ rfl
  rw [hresult, hrows.eq_of_ok]

/-- What is computed from rows that agree. -/
theorem Agrees.bind (h : Agrees result result') {f g : Rows → Except Failure Rows}
    (hf : ∀ rows rows', result = .ok rows → rows.Agree rows' → Agrees (f rows) (g rows')) :
    Agrees (result >>= f) (result' >>= g) := by
  intro items hitems
  cases hresult : result with
  | error e =>
      rw [hresult] at hitems
      cases hitems
  | ok rows =>
      obtain ⟨rows', hresult', hrows⟩ := h rows hresult
      rw [hresult] at hitems
      rw [hresult']
      exact hf rows rows' hresult hrows items hitems

theorem Agrees.pure {rows rows' : Rows} (h : rows.Agree rows') :
    Agrees (pure rows) (pure rows') := by
  intro items hitems
  cases hitems
  exact ⟨rows', rfl, h⟩

/-- What yields no row agrees with nothing. -/
theorem Agrees.nothing (h : Agrees result result')
    (hrowless : ∀ rows, result' = .ok rows → rows.Rowless) : Agrees result (.ok []) := by
  intro rows hrows
  obtain ⟨rows', hrows', hagree⟩ := h rows hrows
  exact ⟨[], rfl, hagree.trans (Rows.agree_nil_iff.mpr (hrowless rows' hrows'))⟩

/-- What fails on any error is computed from the same rows. -/
theorem agrees_of_strict {f : Rows → Except Failure Rows} {rows rows' : Rows}
    (h : rows.Agree rows') (hf : ∀ e, .error e ∈ rows → ∀ items, f rows ≠ .ok items) :
    Agrees (f rows) (f rows') := by
  obtain ⟨list, rfl⟩ | ⟨e, he⟩ := rows.ok_or_error
  · rw [h.eq_of_ok]
    exact .refl _
  · intro items hitems
    exact absurd hitems (hf e he items)

end ToyDB.Sql
