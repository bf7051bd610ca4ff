import ToyDB.Sql.Execution.Executor

/-!
# Joiners

The two iterators that join row sources, call by call, and the sequences that they yield.
A hash join finds the right rows whose join value is stored like the left one; a nested
loop evaluates the equality of the columns on every pair of rows. They agree unless an
integer meets an equal float.
-/
namespace ToyDB.Sql
open ToyDB.Collections

/-- Calling an iterator until it ends yields the items. -/
inductive Yields {σ : Type} (next : σ → Except Failure (Option Row) × σ) : σ → Rows → Prop where
  | done {s s' : σ} : next s = (.ok none, s') → Yields next s []
  | row {s s' : σ} {row : Row} {rows : Rows} :
      next s = (.ok (some row), s') → Yields next s' rows → Yields next s (.ok row :: rows)
  | error {s s' : σ} {e : Failure} {rows : Rows} :
      next s = (.error e, s') → Yields next s' rows → Yields next s (.error e :: rows)

/-- Like `row` and `error`, for any item. -/
theorem Yields.item {σ : Type} {next : σ → Except Failure (Option Row) × σ} {s s' : σ}
    {item : Except Failure Row} {rows : Rows} (h : next s = (item.map some, s'))
    (h' : Yields next s' rows) : Yields next s (item :: rows) := by
  cases item with
  | error e => exact .error h h'
  | ok row => exact .row h h'

theorem Yields.unique {σ : Type} {next : σ → Except Failure (Option Row) × σ} {s : σ}
    {rows rows' : Rows} (h : Yields next s rows) (h' : Yields next s rows') : rows = rows' := by
  induction h generalizing rows' with
  | done hnext =>
      cases h' with
      | done => rfl
      | row hnext' _ => simp [hnext] at hnext'
      | error hnext' _ => simp [hnext] at hnext'
  | row hnext _ ih =>
      cases h' with
      | done hnext' => simp [hnext] at hnext'
      | row hnext' hrows =>
          obtain ⟨⟨⟩, rfl⟩ := Prod.mk.inj (hnext.symm.trans hnext')
          rw [ih hrows]
      | error hnext' _ => simp [hnext] at hnext'
  | error hnext _ ih =>
      cases h' with
      | done hnext' => simp [hnext] at hnext'
      | row hnext' _ => simp [hnext] at hnext'
      | error hnext' hrows =>
          obtain ⟨⟨⟩, rfl⟩ := Prod.mk.inj (hnext.symm.trans hnext')
          rw [ih hrows]

/-- The left row extended by NULLs. -/
def Row.withNulls (row : Row) (columns : ℕ) : Row := row ++ List.replicate columns .null

/-! ## The nested loop -/

structure NestedLoopJoiner where
  left : Rows
  right : Rows
  rightOriginal : Rows
  rightColumns : ℕ
  rightMatched : Bool
  predicate : Option Expression
  outer : Bool

namespace NestedLoopJoiner

def new (left right : Rows) (rightColumns : ℕ) (predicate : Option Expression) (outer : Bool) :
    NestedLoopJoiner :=
  ⟨left, right, right, rightColumns, false, predicate, outer⟩

/-- The next match of a left row among the right rows, and the right rows after it. -/
def nextMatch (fn : Builtins) (predicate : Option Expression) (left : Row) :
    Rows → Except Failure (Option Row) × Rows
  | [] => (.ok none, [])
  | .error e :: right => (.error e, right)
  | .ok row :: right =>
      match predicate with
      | none => (.ok (some (left ++ row)), right)
      | some predicate =>
          match predicate.selects fn "join predicate" (left ++ row) with
          | .ok true => (.ok (some (left ++ row)), right)
          | .ok false => nextMatch fn (some predicate) left right
          | .error e => (.error e, right)

/-- `tryNext`, by recursion on the left rows of the joiner. -/
def nextFrom (fn : Builtins) : Rows → NestedLoopJoiner →
    Except Failure (Option Row) × NestedLoopJoiner
  | [], self => (.ok none, { self with left := [] })
  | .error e :: left, self => (.error e, { self with left := left })
  | .ok row :: left, self =>
      match nextMatch fn self.predicate row self.right with
      | (.error e, right) => (.error e, { self with left := .ok row :: left, right := right })
      | (.ok (some joined), right) =>
          (.ok (some joined),
            { self with left := .ok row :: left, right := right, rightMatched := true })
      | (.ok none, right) =>
          if !self.rightMatched && self.outer then
            (.ok (some (row.withNulls self.rightColumns)),
              { self with left := .ok row :: left, right := right, rightMatched := true })
          else nextFrom fn left
            { self with left := left, right := self.rightOriginal, rightMatched := false }

def tryNext (fn : Builtins) (self : NestedLoopJoiner) :
    Except Failure (Option Row) × NestedLoopJoiner :=
  nextFrom fn self.left self

variable {fn : Builtins} {predicate : Option Expression} {left : Row} {right : Rows}

theorem nextMatch_none (h : joinRow fn predicate right left = []) :
    nextMatch fn predicate left right = (.ok none, []) := by
  induction right with
  | nil => rfl
  | cons item right ih =>
      cases item with
      | error e => simp [joinRow] at h
      | ok row =>
          cases predicate with
          | none => simp [joinRow] at h
          | some p =>
              unfold joinRow at h
              rw [List.filterMap_cons] at h
              unfold nextMatch
              cases hp : p.selects fn "join predicate" (left ++ row) with
              | error e => simp [hp] at h
              | ok b =>
                  cases b with
                  | true => simp [hp] at h
                  | false =>
                      simp only [hp] at h ⊢
                      exact ih h

theorem nextMatch_item {item : Except Failure Row} {rows : Rows}
    (h : joinRow fn predicate right left = item :: rows) :
    ∃ right', nextMatch fn predicate left right = (item.map some, right') ∧
      joinRow fn predicate right' left = rows := by
  induction right with
  | nil => simp [joinRow] at h
  | cons first right ih =>
      unfold joinRow at h
      rw [List.filterMap_cons] at h
      cases first with
      | error e =>
          obtain ⟨rfl, rfl⟩ := List.cons.inj h
          exact ⟨right, rfl, rfl⟩
      | ok row =>
          cases predicate with
          | none =>
              obtain ⟨rfl, rfl⟩ := List.cons.inj h
              exact ⟨right, rfl, rfl⟩
          | some p =>
              unfold nextMatch
              cases hp : p.selects fn "join predicate" (left ++ row) with
              | error e =>
                  simp only [hp] at h ⊢
                  obtain ⟨rfl, rfl⟩ := List.cons.inj h
                  exact ⟨right, rfl, rfl⟩
              | ok b =>
                  simp only [hp] at h ⊢
                  cases b with
                  | true =>
                      obtain ⟨rfl, rfl⟩ := List.cons.inj h
                      exact ⟨right, rfl, rfl⟩
                  | false => exact ih h

/-- The NULLs of a left row without a match, unless a match has been seen. -/
def unmatched (self : NestedLoopJoiner) (row : Row) (joined : Rows) : Rows :=
  if !self.rightMatched && self.outer && !joined.any Except.isOk
  then [.ok (row.withNulls self.rightColumns)] else []

/-- What is left to yield: the rest of the first left row, and the other left rows. -/
def remaining (fn : Builtins) (self : NestedLoopJoiner) : Rows :=
  match self.left with
  | [] => []
  | .error e :: left => .error e ::
      nestedLoopJoin fn left self.rightOriginal self.rightColumns self.predicate self.outer
  | .ok row :: left =>
      let joined := joinRow fn self.predicate self.right row
      joined ++ (self.unmatched row joined ++
        nestedLoopJoin fn left self.rightOriginal self.rightColumns self.predicate self.outer)

/-- A left row is started afresh. -/
def Fresh (self : NestedLoopJoiner) : Prop :=
  self.right = self.rightOriginal ∧ self.rightMatched = false

/-- Between two left rows the right source is at its start. -/
def Proper (self : NestedLoopJoiner) : Prop :=
  (∃ row left, self.left = .ok row :: left) ∨ self.Fresh

theorem remaining_fresh {self : NestedLoopJoiner} (h : self.Fresh) : self.remaining fn =
    nestedLoopJoin fn self.left self.rightOriginal self.rightColumns self.predicate self.outer := by
  obtain ⟨hright, hmatched⟩ := h
  unfold remaining nestedLoopJoin
  cases self.left with
  | nil => rfl
  | cons item left =>
      cases item with
      | error e => rfl
      | ok row =>
          rw [List.flatMap_cons, hright]
          dsimp only
          unfold unmatched Row.withNulls
          rw [hmatched, ← List.append_assoc]
          simp only [Bool.not_false, Bool.true_and]
          split_ifs
          · rfl
          · rw [List.append_nil]

/-- A call yields the first of the remaining items. -/
theorem tryNext_spec (fn : Builtins) (left : Rows) : ∀ (self : NestedLoopJoiner), self.left = left →
    self.Proper →
    match self.remaining fn with
    | [] => ∃ s', self.tryNext fn = (.ok none, s')
    | item :: rows => ∃ s', self.tryNext fn = (item.map some, s') ∧ s'.Proper ∧
        s'.remaining fn = rows := by
  induction left with
  | nil =>
      intro self hleft _
      unfold remaining tryNext
      rw [hleft]
      exact ⟨_, rfl⟩
  | cons item left ih =>
      intro self hleft hproper
      cases item with
      | error e =>
          have hfresh : self.Fresh := by
            obtain ⟨row, rest, hrow⟩ | hfresh := hproper
            · rw [hrow] at hleft
              cases hleft
            · exact hfresh
          unfold remaining tryNext
          rw [hleft]
          exact ⟨_, rfl, .inr hfresh, @remaining_fresh fn { self with left := left } hfresh⟩
      | ok row =>
          have hnext : self.tryNext fn = nextFrom fn (.ok row :: left) self := by
            rw [tryNext, hleft]
          unfold nextFrom at hnext
          unfold remaining
          rw [hleft]
          dsimp only
          cases hjoin : joinRow fn self.predicate self.right row with
          | nil =>
              rw [nextMatch_none hjoin] at hnext
              dsimp only at hnext
              unfold unmatched
              by_cases houter : (!self.rightMatched && self.outer) = true
              · rw [if_pos houter] at hnext
                rw [houter]
                refine ⟨_, hnext, .inl ⟨row, left, rfl⟩, ?_⟩
                simp [joinRow]
              · -- the next left row
                have hself := ih { self with
                  left := left, right := self.rightOriginal, rightMatched := false } rfl
                  (.inr ⟨rfl, rfl⟩)
                rw [remaining_fresh ⟨rfl, rfl⟩] at hself
                rw [if_neg houter] at hnext
                simp only [houter, Bool.false_and, List.nil_append, Bool.false_eq_true, if_false,
                  hnext]
                exact hself
          | cons item rows =>
              obtain ⟨right', hmatch, hrows⟩ := nextMatch_item hjoin
              rw [hmatch] at hnext
              cases item with
              | error e =>
                  refine ⟨_, hnext, .inl ⟨row, left, rfl⟩, ?_⟩
                  unfold unmatched
                  dsimp only
                  rw [hrows]
                  rfl
              | ok joined =>
                  refine ⟨_, hnext, .inl ⟨row, left, rfl⟩, ?_⟩
                  unfold unmatched
                  dsimp only
                  rw [hrows]
                  simp [Except.isOk, Except.toBool]

/-- The nested loop yields its rows in order. -/
theorem yields_remaining (rows : Rows) : ∀ self : NestedLoopJoiner, self.Proper →
    self.remaining fn = rows → Yields (tryNext fn) self rows := by
  induction rows with
  | nil =>
      intro self hproper hrows
      have hspec := tryNext_spec fn self.left self rfl hproper
      rw [hrows] at hspec
      obtain ⟨s', hnext⟩ := hspec
      exact .done hnext
  | cons item rows ih =>
      intro self hproper hrows
      have hspec := tryNext_spec fn self.left self rfl hproper
      rw [hrows] at hspec
      obtain ⟨s', hnext, hproper', hrows'⟩ := hspec
      exact .item hnext (ih s' hproper' hrows')

theorem yields_new (fn : Builtins) (left right : Rows) (rightColumns : ℕ)
    (predicate : Option Expression) (outer : Bool) :
    Yields (tryNext fn) (new left right rightColumns predicate outer)
      (nestedLoopJoin fn left right rightColumns predicate outer) :=
  yields_remaining _ _ (.inr ⟨rfl, rfl⟩) (remaining_fresh ⟨rfl, rfl⟩)

/-- The next item, if any. -/
def next (fn : Builtins) (self : NestedLoopJoiner) :
    Option (Except Failure Row) × NestedLoopJoiner :=
  match self.tryNext fn with
  | (.ok none, self) => (none, self)
  | (.ok (some row), self) => (some (.ok row), self)
  | (.error e, self) => (some (.error e), self)

/-- What the first calls return. -/
def calls (fn : Builtins) : ℕ → NestedLoopJoiner → List (Option (Except Failure Row))
  | 0, _ => []
  | n + 1, self => (self.next fn).1 :: calls fn n (self.next fn).2

theorem next_of_item {self s' : NestedLoopJoiner} {item : Except Failure Row}
    (h : self.tryNext fn = (item.map some, s')) : self.next fn = (some item, s') := by
  unfold next
  rw [h]
  cases item <;> rfl

theorem nextFrom_none (left : Rows) : ∀ self s' : NestedLoopJoiner,
    nextFrom fn left self = (.ok none, s') → s'.left = [] := by
  induction left with
  | nil =>
      intro self s' h
      obtain rfl := (Prod.mk.inj h).2
      rfl
  | cons item left ih =>
      intro self s' h
      cases item with
      | error e =>
          unfold nextFrom at h
          cases h
      | ok row =>
          unfold nextFrom at h
          cases hmatch : nextMatch fn self.predicate row self.right with
          | mk found right =>
              rw [hmatch] at h
              cases found with
              | error e => cases h
              | ok found =>
                  cases found with
                  | some joined => cases h
                  | none =>
                      dsimp only at h
                      by_cases houter : (!self.rightMatched && self.outer) = true
                      · rw [if_pos houter] at h
                        cases h
                      · rw [if_neg houter] at h
                        exact ih _ s' h

/-- After the end there are no more items. -/
theorem calls_done (n : ℕ) : ∀ self : NestedLoopJoiner, self.left = [] →
    calls fn n self = List.replicate n none := by
  induction n with
  | zero => exact fun _ _ => rfl
  | succ n ih =>
      intro self hleft
      have hnext : self.next fn = (none, { self with left := [] }) := by
        unfold next tryNext
        rw [hleft]
        rfl
      rw [calls, hnext, ih _ rfl]
      rfl

theorem calls_remaining (n : ℕ) : ∀ self : NestedLoopJoiner, self.Proper →
    calls fn n self = ((self.remaining fn).map some ++ List.replicate n none).take n := by
  induction n with
  | zero => exact fun _ _ => rfl
  | succ n ih =>
      intro self hproper
      have hspec := tryNext_spec fn self.left self rfl hproper
      cases hrows : self.remaining fn with
      | nil =>
          rw [hrows] at hspec
          obtain ⟨s', hnext⟩ := hspec
          have hnone : self.next fn = (none, s') := by
            unfold next
            rw [hnext]
          rw [calls, hnone, calls_done n s' (nextFrom_none _ _ _ hnext)]
          simp [List.replicate_succ]
      | cons item rows =>
          rw [hrows] at hspec
          obtain ⟨s', hnext, hproper', hrows'⟩ := hspec
          rw [calls, next_of_item hnext, ih s' hproper', hrows', List.map_cons, List.cons_append,
            List.take_succ_cons]
          have htake : (rows.map some ++ List.replicate (n + 1) none).take n =
              (rows.map some ++ List.replicate n none).take n := by
            rw [List.replicate_succ', ← List.append_assoc]
            exact List.take_append_of_le_length (by simp)
          rw [htake]

/-- Each call returns the next item of the nested loop, and nothing after its end. -/
theorem calls_new (fn : Builtins) (left right : Rows) (rightColumns : ℕ)
    (predicate : Option Expression) (outer : Bool) (n : ℕ) :
    calls fn n (new left right rightColumns predicate outer) =
      ((nestedLoopJoin fn left right rightColumns predicate outer).map some ++
        List.replicate n none).take n := by
  have hremaining : (new left right rightColumns predicate outer).remaining fn =
      nestedLoopJoin fn left right rightColumns predicate outer :=
    remaining_fresh ⟨rfl, rfl⟩
  rw [calls_remaining n _ (.inr ⟨rfl, rfl⟩), hremaining]

end NestedLoopJoiner

/-! ## The hash join -/

structure HashJoiner where
  left : Rows
  leftColumn : ℕ
  right : List (Value × Row)
  rightColumns : ℕ
  outer : Bool
  pending : List Row

namespace HashJoiner

def new (left : Rows) (leftColumn : ℕ) (right : Rows) (rightColumn rightColumns : ℕ)
    (outer : Bool) : Except Failure HashJoiner := do
  let hashed ← hashRight rightColumn right
  return ⟨left, leftColumn, hashed, rightColumns, outer, []⟩

/-- The left row with each of the right rows of its join value. -/
def matching (self : HashJoiner) (row : Row) (value : Value) : List Row :=
  (self.right.filter fun r => r.1 = value.stored).map fun r => row ++ r.2

/-- The next left row to join with. -/
def nextFrom : Rows → HashJoiner → Except Failure (Option Row) × HashJoiner
  | [], self => (.ok none, { self with left := [] })
  | .error e :: left, self => (.error e, { self with left := left })
  | .ok row :: left, self =>
      match row[self.leftColumn]? with
      | none => (panics "index out of bounds", { self with left := left })
      | some value =>
          match self.matching row value with
          | joined :: pending =>
              (.ok (some joined), { self with left := left, pending := pending })
          | [] =>
              if self.outer then
                (.ok (some (row.withNulls self.rightColumns)), { self with left := left })
              else nextFrom left { self with left := left }

def tryNext (self : HashJoiner) : Except Failure (Option Row) × HashJoiner :=
  match self.pending with
  | row :: pending => (.ok (some row), { self with pending := pending })
  | [] => nextFrom self.left self

/-- What is left to yield. -/
def remaining (self : HashJoiner) : Rows :=
  self.pending.map .ok ++
    hashJoin self.left self.leftColumn self.right self.rightColumns self.outer

theorem nextFrom_spec (left : Rows) : ∀ (self : HashJoiner), self.pending = [] →
    match hashJoin left self.leftColumn self.right self.rightColumns self.outer with
    | [] => ∃ s', nextFrom left self = (.ok none, s')
    | item :: rows => ∃ s', nextFrom left self = (item.map some, s') ∧ s'.remaining = rows := by
  induction left with
  | nil => exact fun self _ => ⟨_, rfl⟩
  | cons item left ih =>
      intro self hpending
      unfold hashJoin
      rw [List.flatMap_cons]
      cases item with
      | error e =>
          refine ⟨_, rfl, ?_⟩
          unfold remaining hashJoin
          rw [hpending]
          rfl
      | ok row =>
          unfold nextFrom
          dsimp only
          cases hvalue : row[self.leftColumn]? with
          | none =>
              refine ⟨_, rfl, ?_⟩
              unfold remaining hashJoin
              rw [hpending]
              rfl
          | some value =>
              have hjoined : ((self.right.filter fun r => r.1 = value.stored).map fun r =>
                  (.ok (row ++ r.2) : Except Failure Row)) =
                  (self.matching row value).map .ok := by
                unfold matching
                rw [List.map_map]
                rfl
              dsimp only
              rw [hjoined]
              cases hmatching : self.matching row value with
              | cons joined pending => exact ⟨_, rfl, rfl⟩
              | nil =>
                  cases houter : self.outer with
                  | true =>
                      refine ⟨_, rfl, ?_⟩
                      unfold remaining hashJoin
                      dsimp only
                      rw [hpending]
                      rfl
                  | false =>
                      have hself := ih { self with left := left } hpending
                      unfold hashJoin at hself
                      rw [houter] at hself
                      exact hself

theorem tryNext_spec (self : HashJoiner) :
    match self.remaining with
    | [] => ∃ s', self.tryNext = (.ok none, s')
    | item :: rows => ∃ s', self.tryNext = (item.map some, s') ∧ s'.remaining = rows := by
  unfold remaining tryNext
  cases hpending : self.pending with
  | cons row pending => exact ⟨_, rfl, rfl⟩
  | nil => exact nextFrom_spec self.left self hpending

theorem yields_remaining (rows : Rows) : ∀ self : HashJoiner, self.remaining = rows →
    Yields tryNext self rows := by
  induction rows with
  | nil =>
      intro self hrows
      have hspec := self.tryNext_spec
      rw [hrows] at hspec
      obtain ⟨s', hnext⟩ := hspec
      exact .done hnext
  | cons item rows ih =>
      intro self hrows
      have hspec := self.tryNext_spec
      rw [hrows] at hspec
      obtain ⟨s', hnext, hrows'⟩ := hspec
      exact .item hnext (ih s' hrows')

end HashJoiner

/-! ## Agreement -/

namespace Value

/-- Defined values that are stored alike are equal. -/
theorem equal_of_stored {x y : Value} (h : y.stored = x.stored) (hy : y.isUndefined = false) :
    x.equal y = .ok (boolean true) := by
  have hx : x.isUndefined = false := by rw [← isUndefined_stored, ← h, isUndefined_stored, hy]
  have heq := eq_of_stored h.symm
  have ht : x.datatype = y.datatype := by rw [← datatype_stored, ← h, datatype_stored]
  cases x <;> cases y <;> simp only [datatype, reduceCtorEq, Option.some.injEq] at ht
  case null.null => cases hx
  case boolean.boolean => simpa [equal, comparison] using heq
  case integer.integer a b =>
    have hab : a = b := by simpa using heq
    simp [equal, comparison, hab]
  case string.string => simpa [equal, comparison] using heq
  case float.float a b =>
    have ha : a.isNan = false := hx
    simpa [equal, comparison, ha] using heq

/-- Equal values of one type are defined and stored alike. -/
theorem stored_of_equal {x y : Value} (h : x.equal y = .ok (boolean true))
    (ht : x.datatype = y.datatype) : y.stored = x.stored ∧ y.isUndefined = false := by
  cases x <;> cases y <;> simp only [datatype, reduceCtorEq, Option.some.injEq] at ht
  case null.null => cases h
  case boolean.boolean a b =>
    have hab : a = b := by simpa [equal, comparison] using h
    exact ⟨by rw [hab], rfl⟩
  case integer.integer a b =>
    have hab : a = b := Int64.toInt_inj.mp (by simpa [equal, comparison] using h)
    exact ⟨by rw [hab], rfl⟩
  case string.string a b =>
    have hab : a = b := by simpa [equal, comparison] using h
    exact ⟨by rw [hab], rfl⟩
  case float.float a b =>
    have hab : a.eq b = true := by simpa [equal, comparison] using h
    refine ⟨congrArg float (F64.serialize_eq_of_eq hab).symm, ?_⟩
    simp only [F64.eq, Bool.and_eq_true, Bool.not_eq_true'] at hab
    exact hab.1.2

/-- A comparison is a truth value or NULL. -/
theorem equal_ok {x y v : Value} (h : x.equal y = .ok v) : v = null ∨ ∃ b, v = boolean b := by
  unfold equal comparison at h
  split at h <;> cases h <;> simp

end Value

section Pieces
variable {α β : Type} {f g : α → List β} {l : List α}

theorem length_flatMap_le (h : ∀ a ∈ l, (f a).length ≤ (g a).length) :
    (l.flatMap f).length ≤ (l.flatMap g).length := by
  induction l with
  | nil => exact Nat.le_refl 0
  | cons a l ih =>
      have ha := h a List.mem_cons_self
      have hl := ih fun b hb => h b (List.mem_cons_of_mem a hb)
      simp only [List.flatMap_cons, List.length_append]
      omega

/-- Lists that are equal in total are equal piece by piece, if no piece is longer. -/
theorem flatMap_eq_pieces (h : ∀ a ∈ l, (f a).length ≤ (g a).length)
    (heq : l.flatMap f = l.flatMap g) : ∀ a ∈ l, f a = g a := by
  induction l with
  | nil => simp
  | cons a l ih =>
      have ha := h a List.mem_cons_self
      have hl := length_flatMap_le fun b hb => h b (List.mem_cons_of_mem a hb)
      rw [List.flatMap_cons, List.flatMap_cons] at heq
      have hlength := congrArg List.length heq
      rw [List.length_append, List.length_append] at hlength
      obtain ⟨hpiece, hrest⟩ := List.append_inj heq (by omega)
      intro b hb
      obtain rfl | hb := List.mem_cons.mp hb
      · exact hpiece
      · exact ih (fun b hb => h b (List.mem_cons_of_mem a hb)) hrest b hb

end Pieces

/-- The columns of the two sides, and the join columns among them. -/
structure JoinSources where
  left : Rows
  right : Rows
  leftWidth : ℕ
  rightColumns : ℕ
  l : ℕ
  r : ℕ
  left_lt : l < leftWidth
  right_lt : r < rightColumns
  left_width (row : Row) (h : .ok row ∈ left) : row.length = leftWidth
  right_width (row : Row) (h : .ok row ∈ right) : row.length = rightColumns

namespace JoinSources

/-- The predicate of the nested loop. -/
def predicate (self : JoinSources) : Expression :=
  .equal (.column self.l) (.column (self.leftWidth + self.r))

/-- The hash join can be built, and yields what the nested loop yields. -/
def Agree (self : JoinSources) (fn : Builtins) (outer : Bool) : Prop :=
  ∃ hashJoiner rows,
    HashJoiner.new self.left self.l self.right self.r self.rightColumns outer = .ok hashJoiner ∧
    Yields HashJoiner.tryNext hashJoiner rows ∧
    Yields (NestedLoopJoiner.tryNext fn)
      (.new self.left self.right self.rightColumns (some self.predicate) outer) rows

/-- The values of the join columns can be compared. -/
def Comparable (self : JoinSources) : Prop :=
  ∀ a b x y, .ok a ∈ self.left → .ok b ∈ self.right → a[self.l]? = some x →
    b[self.r]? = some y → ∃ v, x.equal y = .ok v

/-- Equal values of the join columns have one type. -/
def Homogeneous (self : JoinSources) : Prop :=
  ∀ a b x y, .ok a ∈ self.left → .ok b ∈ self.right → a[self.l]? = some x →
    b[self.r]? = some y → x.equal y = .ok (.boolean true) → x.datatype = y.datatype

/-- The joined rows of a left row with its matches. -/
def piece (outer : Bool) (columns : ℕ) (row : Row) (found : List Row) : Rows :=
  if found = [] ∧ outer = true then [.ok (row.withNulls columns)]
  else found.map fun r => .ok (row ++ r)

/-- The right row equals the left value in the join column. -/
def joins (r : ℕ) (x : Value) (row : Row) : Bool :=
  row[r]?.any fun y => x.equal y = .ok (.boolean true)

/-- The right row is found in the map under the left value. -/
def alike (r : ℕ) (x : Value) (row : Row) : Bool :=
  row[r]?.any fun y => !y.isUndefined && y.stored = x.stored

variable {self : JoinSources} {fn : Builtins} {outer : Bool} {rows : List Row}

theorem joins_of_alike {r : ℕ} {x : Value} {row : Row} (h : alike r x row = true) :
    joins r x row = true := by
  unfold alike at h
  unfold joins
  cases hy : row[r]? with
  | none => simp [hy] at h
  | some y =>
      simp only [hy, Option.any_some, Bool.and_eq_true, Bool.not_eq_true', decide_eq_true_eq] at h ⊢
      exact Value.equal_of_stored h.2 h.1

/-- The map holds the defined rows. -/
theorem hashRight_rows (hright : ∀ row ∈ rows, self.r < row.length) :
    hashRight self.r (rows.map .ok) = .ok (rows.filterMap fun row =>
      row[self.r]?.bind fun y => if y.isUndefined then none else some (y.stored, row)) := by
  induction rows with
  | nil => rfl
  | cons row rows ih =>
      have hy := List.getElem?_eq_getElem (hright row List.mem_cons_self)
      rw [List.map_cons, hashRight, hy, ih fun row' h' => hright row' (List.mem_cons_of_mem _ h'),
        List.filterMap_cons, hy]
      dsimp only [Option.bind_some]
      split_ifs
      · rfl
      · rfl

theorem isOk_of_hashRight {column : ℕ} {right : Rows} {hashed : List (Value × Row)}
    (h : hashRight column right = .ok hashed) : ∀ item ∈ right, item.isOk = true := by
  induction right generalizing hashed with
  | nil => simp
  | cons item right ih =>
      cases item with
      | error e => cases h
      | ok row =>
          unfold hashRight at h
          cases hv : row[column]? with
          | none =>
              rw [hv] at h
              cases h
          | some value =>
              rw [hv] at h
              cases hrest : hashRight column right with
              | error e =>
                  rw [hrest] at h
                  cases h
              | ok rest =>
                  intro item' hitem'
                  obtain rfl | hitem' := List.mem_cons.mp hitem'
                  · rfl
                  · exact ih hrest item' hitem'

/-- The matches that the hash join finds. -/
theorem filter_hashed (r : ℕ) (x : Value) : ((rows.filterMap fun row => row[r]?.bind fun y =>
      if y.isUndefined then none else some (y.stored, row)).filter
        fun p => p.1 = x.stored).map Prod.snd = rows.filter (alike r x) := by
  induction rows with
  | nil => rfl
  | cons row rows ih =>
      rw [List.filterMap_cons, List.filter_cons, ← ih]
      unfold alike
      cases hy : row[r]? with
      | none => rfl
      | some y =>
          cases hu : y.isUndefined with
          | true => simp [hu]
          | false =>
              by_cases hs : y.stored = x.stored
              · simp [hu, hs]
              · simp [hu, hs]

theorem hashJoin_rows (hleft : ∀ row, .ok row ∈ self.left → self.l < row.length) :
    hashJoin self.left self.l (rows.filterMap fun row =>
      row[self.r]?.bind fun y => if y.isUndefined then none else some (y.stored, row))
      self.rightColumns outer =
    self.left.flatMap fun item =>
      match item with
      | .error e => [.error e]
      | .ok row => piece outer self.rightColumns row
          (rows.filter (alike self.r (row[self.l]?.getD .null))) := by
  unfold hashJoin
  refine List.flatMap_congr fun item hitem => ?_
  cases item with
  | error e => rfl
  | ok row =>
      have hx := List.getElem?_eq_getElem (hleft row hitem)
      dsimp only
      rw [hx]
      dsimp only [Option.getD_some]
      rw [← filter_hashed self.r]
      unfold piece Row.withNulls
      simp only [List.map_eq_nil_iff, Bool.and_eq_true, decide_eq_true_eq, List.map_map]
      rfl

/-- The matches that the nested loop finds. -/
theorem joinRow_rows {row : Row} {x : Value} (hx : row[self.l]? = some x)
    (hrow : row.length = self.leftWidth)
    (hcompare : ∀ b ∈ rows, ∃ y v, b[self.r]? = some y ∧ x.equal y = .ok v) :
    joinRow fn (some self.predicate) (rows.map .ok) row =
      (rows.filter (joins self.r x)).map fun r => .ok (row ++ r) := by
  induction rows with
  | nil => rfl
  | cons b rows ih =>
      obtain ⟨y, v, hy, hv⟩ := hcompare b List.mem_cons_self
      have hlt : self.l < row.length := hrow ▸ self.left_lt
      have hl : (row ++ b)[self.l]? = some x := by rw [List.getElem?_append_left hlt, hx]
      have hr : (row ++ b)[self.leftWidth + self.r]? = some y := by
        rw [List.getElem?_append_right (by omega), hrow, Nat.add_sub_cancel_left, hy]
      have hevaluate : self.predicate.evaluate fn (some (row ++ b)) = .ok v := by
        unfold predicate Expression.evaluate
        simp only [Expression.evaluate, Option.bind_some, hl, hr]
        exact hv
      have hrest := ih fun b' hb' => hcompare b' (List.mem_cons_of_mem _ hb')
      unfold joinRow at hrest ⊢
      rw [List.map_cons, List.filterMap_cons, List.filter_cons, hrest]
      have hjoins : joins self.r x b = decide (v = .boolean true) := by
        unfold joins
        rw [hy, Option.any_some, hv]
        simp
      have hselects : self.predicate.selects fn "join predicate" (row ++ b) =
          .ok (decide (v = .boolean true)) := by
        unfold Expression.selects
        rw [hevaluate]
        obtain rfl | ⟨t, rfl⟩ := Value.equal_ok hv
        · rfl
        · cases t <;> rfl
      rw [hjoins]
      simp only [hselects]
      by_cases htrue : v = .boolean true
      · simp [htrue]
      · simp [htrue]

theorem nestedLoopJoin_rows (hright : self.right = rows.map .ok) (hcompare : self.Comparable) :
    nestedLoopJoin fn self.left self.right self.rightColumns (some self.predicate) outer =
    self.left.flatMap fun item =>
      match item with
      | .error e => [.error e]
      | .ok row => piece outer self.rightColumns row
          (rows.filter (joins self.r (row[self.l]?.getD .null))) := by
  unfold nestedLoopJoin
  refine List.flatMap_congr fun item hitem => ?_
  cases item with
  | error e => rfl
  | ok row =>
      have hrow := self.left_width row hitem
      have hlt : self.l < row.length := hrow ▸ self.left_lt
      have hx := List.getElem?_eq_getElem hlt
      have hvalues : ∀ b ∈ rows, ∃ y v, b[self.r]? = some y ∧
          row[self.l].equal y = .ok v := by
        intro b hb
        have hmem : .ok b ∈ self.right := by
          rw [hright]
          exact List.mem_map_of_mem hb
        have hy := List.getElem?_eq_getElem
          (show self.r < b.length from self.right_width b hmem ▸ self.right_lt)
        obtain ⟨v, hv⟩ := hcompare row b _ _ hitem hmem hx hy
        exact ⟨_, v, hy, hv⟩
      dsimp only
      rw [hright, joinRow_rows hx hrow hvalues, hx]
      dsimp only [Option.getD_some]
      unfold piece Row.withNulls
      cases rows.filter (joins self.r row[self.l]) with
      | nil => cases outer <;> rfl
      | cons b found => simp [Except.isOk, Except.toBool]

/-- No piece of the hash join is longer. -/
theorem piece_length_le (columns : ℕ) (row : Row) (r : ℕ) (x : Value) :
    (piece outer columns row (rows.filter (alike r x))).length ≤
      (piece outer columns row (rows.filter (joins r x))).length := by
  have hle : (rows.filter (alike r x)).length ≤ (rows.filter (joins r x)).length :=
    (List.monotone_filter_right rows fun row => joins_of_alike).length_le
  unfold piece
  split_ifs with h₁ h₂ h₂
  · exact Nat.le_refl _
  · have hne : rows.filter (joins r x) ≠ [] := fun hnil => h₂ ⟨hnil, h₁.2⟩
    rw [List.length_singleton, List.length_map]
    exact List.length_pos_iff.mpr hne
  · simp only [List.length_map]
    rw [h₂.1] at hle
    simp only [List.length_nil] at hle
    omega
  · simpa using hle

/-- Equal pieces have the same matches. -/
theorem filter_eq_of_piece {columns : ℕ} {row : Row} {r : ℕ} {x : Value} (hr : r < columns)
    (h : piece outer columns row (rows.filter (alike r x)) =
      piece outer columns row (rows.filter (joins r x))) :
    rows.filter (alike r x) = rows.filter (joins r x) := by
  have hinj : Function.Injective fun b => (.ok (row ++ b) : Except Failure Row) := by
    intro b b' hb
    simpa using hb
  unfold piece at h
  split_ifs at h with h₁ h₂ h₂
  · rw [h₁.1, h₂.1]
  · -- a right row that is joined is not NULL in the join column
    cases hfound : rows.filter (joins r x) with
    | nil => exact absurd ⟨hfound, h₁.2⟩ h₂
    | cons b found =>
        rw [hfound, List.map_cons] at h
        have hb : joins r x b = true :=
          List.of_mem_filter (hfound ▸ List.mem_cons_self : b ∈ rows.filter (joins r x))
        have hnulls : b = List.replicate columns .null := by
          have hhead := (List.cons.inj h).1
          unfold Row.withNulls at hhead
          exact (List.append_cancel_left (Except.ok.inj hhead)).symm
        rw [joins, hnulls, List.getElem?_replicate, if_pos hr] at hb
        cases x <;> simp [Value.equal, Value.comparison] at hb
  · have hle := (List.monotone_filter_right rows fun row => @joins_of_alike r x row).length_le
    rw [h₂.1] at hle
    rw [h₂.1, List.length_eq_zero_iff.mp (Nat.le_zero.mp hle)]
  · exact List.map_injective_iff.mpr hinj h

theorem rows_of_isOk {right : Rows} (h : ∀ item ∈ right, item.isOk = true) :
    ∃ rows : List Row, right = rows.map .ok := by
  induction right with
  | nil => exact ⟨[], rfl⟩
  | cons item right ih =>
      obtain ⟨rows, hrows⟩ := ih fun item' h' => h item' (List.mem_cons_of_mem _ h')
      cases item with
      | error e => exact absurd (h _ List.mem_cons_self) (by simp [Except.isOk, Except.toBool])
      | ok row => exact ⟨row :: rows, by rw [hrows]; rfl⟩

/-- Without errors on the right, both joiners yield a piece for each left row. -/
theorem agree_rows (hright : self.right = rows.map .ok) (hcompare : self.Comparable) :
    self.Agree fn outer ↔ ∀ row x, .ok row ∈ self.left → row[self.l]? = some x →
      rows.filter (alike self.r x) = rows.filter (joins self.r x) := by
  have hleft : ∀ row, .ok row ∈ self.left → self.l < row.length := fun row h =>
    self.left_width row h ▸ self.left_lt
  have hwidth : ∀ row ∈ rows, self.r < row.length := by
    intro row h
    have hmem : .ok row ∈ self.right := by
      rw [hright]
      exact List.mem_map_of_mem h
    exact self.right_width row hmem ▸ self.right_lt
  have hnew : HashJoiner.new self.left self.l self.right self.r self.rightColumns outer = .ok
      ⟨self.left, self.l, rows.filterMap fun row => row[self.r]?.bind fun y =>
        if y.isUndefined then none else some (y.stored, row), self.rightColumns, outer, []⟩ := by
    unfold HashJoiner.new
    rw [hright, hashRight_rows hwidth]
    rfl
  have hhash := HashJoiner.yields_remaining _ (HashJoiner.mk self.left self.l
    (rows.filterMap fun row => row[self.r]?.bind fun y =>
      if y.isUndefined then none else some (y.stored, row)) self.rightColumns outer []) rfl
  have hnested := NestedLoopJoiner.yields_new fn self.left self.right self.rightColumns
    (some self.predicate) outer
  unfold HashJoiner.remaining at hhash
  rw [List.map_nil, List.nil_append] at hhash
  dsimp only at hhash
  rw [hashJoin_rows hleft] at hhash
  rw [nestedLoopJoin_rows hright hcompare] at hnested
  constructor
  · intro ⟨joiner, items, hjoiner, hitems, hitems'⟩ row x hrow hx
    rw [hnew] at hjoiner
    obtain rfl := Except.ok.inj hjoiner
    have heq := (hhash.unique hitems).trans (hitems'.unique hnested)
    have hpiece := flatMap_eq_pieces (fun item _ => ?_) heq (.ok row) hrow
    · dsimp only at hpiece
      rw [hx, Option.getD_some] at hpiece
      exact filter_eq_of_piece self.right_lt hpiece
    · cases item with
      | error e => exact Nat.le_refl _
      | ok row => exact piece_length_le _ _ _ _
  · intro heq
    refine ⟨_, _, hnew, hhash, ?_⟩
    convert hnested using 1
    refine List.flatMap_congr fun item hitem => ?_
    cases item with
    | error e => rfl
    | ok row =>
        have hx := List.getElem?_eq_getElem (hleft row hitem)
        dsimp only
        rw [hx, Option.getD_some, heq row _ hitem hx]

/-- The joiners agree if and only if the right source yields no error and no integer equals
a float. -/
theorem agree_iff (self : JoinSources) (fn : Builtins) (outer : Bool)
    (hcompare : self.Comparable) :
    self.Agree fn outer ↔ (∀ item ∈ self.right, item.isOk = true) ∧ self.Homogeneous := by
  have hrow : ∀ {rows : List Row}, self.right = rows.map .ok → ∀ b,
      .ok b ∈ self.right ↔ b ∈ rows := by
    intro rows hrows b
    rw [hrows, List.mem_map]
    constructor
    · intro ⟨b', hb', heq⟩
      exact Except.ok.inj heq ▸ hb'
    · exact fun hb => ⟨b, hb, rfl⟩
  constructor
  · intro hagree
    have hok : ∀ item ∈ self.right, item.isOk = true := by
      obtain ⟨joiner, items, hjoiner, -⟩ := hagree
      unfold HashJoiner.new at hjoiner
      cases hhashed : hashRight self.r self.right with
      | error e =>
          rw [hhashed] at hjoiner
          cases hjoiner
      | ok hashed => exact isOk_of_hashRight hhashed
    obtain ⟨rows, hrows⟩ := rows_of_isOk hok
    refine ⟨hok, fun a b x y ha hb hx hy hequal => ?_⟩
    have hfound : b ∈ rows.filter (alike self.r x) := by
      rw [(agree_rows hrows hcompare).mp hagree a x ha hx]
      refine List.mem_filter.mpr ⟨(hrow hrows b).mp hb, ?_⟩
      simp [joins, hy, hequal]
    have halike := (List.mem_filter.mp hfound).2
    unfold alike at halike
    rw [hy, Option.any_some, Bool.and_eq_true, decide_eq_true_eq] at halike
    rw [← Value.datatype_stored, ← halike.2, Value.datatype_stored]
  · intro ⟨hok, hhomogeneous⟩
    obtain ⟨rows, hrows⟩ := rows_of_isOk hok
    refine (agree_rows hrows hcompare).mpr fun a x ha hx => List.filter_congr fun b hb => ?_
    refine Bool.eq_iff_iff.mpr ⟨joins_of_alike, fun hjoins => ?_⟩
    unfold joins at hjoins
    unfold alike
    cases hy : b[self.r]? with
    | none => simp [hy] at hjoins
    | some y =>
        rw [hy, Option.any_some, decide_eq_true_eq] at hjoins
        obtain ⟨hstored, hdefined⟩ := Value.stored_of_equal hjoins
          (hhomogeneous a b x y ha ((hrow hrows b).mpr hb) hx hy hjoins)
        simp [hstored, hdefined]

/-- The integer 1 on the left, the float 1.0 on the right. -/
def mixed : JoinSources where
  left := [.ok [.integer 1]]
  right := [.ok [.float (F64.ofNat 1)]]
  leftWidth := 1
  rightColumns := 1
  l := 0
  r := 0
  left_lt := by decide
  right_lt := by decide
  left_width row h := by simp_all
  right_width row h := by simp_all

theorem mixed_comparable : mixed.Comparable := by
  intro a b x y ha hb hx hy
  obtain rfl := Except.ok.inj (List.mem_singleton.mp ha)
  obtain rfl := Except.ok.inj (List.mem_singleton.mp hb)
  obtain rfl := Option.some.inj hx
  obtain rfl := Option.some.inj hy
  exact ⟨_, rfl⟩

theorem agree_iff_mixed : mixed.Agree Builtins.unused false ↔
    (∀ item ∈ mixed.right, item.isOk = true) ∧ mixed.Homogeneous :=
  agree_iff mixed Builtins.unused false mixed_comparable

/-- The nested loop joins the integer 1 with the float 1.0, the hash join does not. -/
theorem mixed_not_agree : mixed.Comparable ∧ ¬ mixed.Agree Builtins.unused false := by
  refine ⟨mixed_comparable, fun hagree => ?_⟩
  have hfound := (agree_rows (show mixed.right = [[.float (F64.ofNat 1)]].map .ok from rfl) mixed_comparable).mp hagree
    [.integer 1] (.integer 1) (List.mem_singleton.mpr rfl) rfl
  have halike : [[.float (F64.ofNat 1)]].filter (alike mixed.r (.integer 1)) = [] := by
    decide +kernel
  have hjoins : [[.float (F64.ofNat 1)]].filter (joins mixed.r (.integer 1)) ≠ [] := by
    decide +kernel
  exact hjoins (hfound.symm.trans halike)

end JoinSources
end ToyDB.Sql
