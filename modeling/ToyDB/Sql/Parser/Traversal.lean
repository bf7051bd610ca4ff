import ToyDB.Sql.Parser.Statement

/-!
# What traversals visit

A traversal visits every part of an expression, and so finds every part of which a predicate
holds, if and only if every function call has exactly one argument: of several arguments
only those up to the first that returns true are visited, and a call without arguments
returns false.
-/
namespace ToyDB.Sql.Ast

mutual

/-- The expression and its parts, each where it is written. -/
def Expression.parts : Expression → List Expression
  | .binary op lhs rhs => .binary op lhs rhs :: (lhs.parts ++ rhs.parts)
  | .unary op expr => .unary op expr :: expr.parts
  | .is expr value => .is expr value :: expr.parts
  | .function name args => .function name args :: args.parts
  | expr => [expr]

def Arguments.parts : Arguments → List Expression
  | .nil => []
  | .cons arg args => arg.parts ++ args.parts

end

mutual

/-- Every function call has exactly one argument. -/
def Expression.SingleArguments : Expression → Prop
  | .binary _ lhs rhs => lhs.SingleArguments ∧ rhs.SingleArguments
  | .unary _ expr => expr.SingleArguments
  | .is expr _ => expr.SingleArguments
  | .function _ args => args.length = 1 ∧ args.AllSingle
  | _ => True

def Arguments.AllSingle : Arguments → Prop
  | .nil => True
  | .cons arg args => arg.SingleArguments ∧ args.AllSingle

end

/-- The parts that a traversal visits if the visitor always returns true. -/
def Expression.visited (self : Expression) : List Expression :=
  (self.walk (fun expr seen => (true, seen ++ [expr])) []).2

/-! ## The result of a traversal -/

mutual

/-- What a traversal returns if the visitor has no state. -/
def Expression.accepts (p : Expression → Bool) : Expression → Bool
  | .binary op lhs rhs => p (.binary op lhs rhs) && (lhs.accepts p && rhs.accepts p)
  | .unary op expr => p (.unary op expr) && expr.accepts p
  | .is expr value => p (.is expr value) && expr.accepts p
  | .function name args => p (.function name args) && args.acceptsAny p
  | expr => p expr

def Arguments.acceptsAny (p : Expression → Bool) : Arguments → Bool
  | .nil => false
  | .cons arg args => arg.accepts p || args.acceptsAny p

end

mutual

/-- The parts visited by a visitor that always returns true. -/
def Expression.reached : Expression → List Expression
  | .binary op lhs rhs => .binary op lhs rhs ::
      (lhs.reached ++ if lhs.accepts fun _ => true then rhs.reached else [])
  | .unary op expr => .unary op expr :: expr.reached
  | .is expr value => .is expr value :: expr.reached
  | .function name args => .function name args :: args.reachedAny
  | expr => [expr]

def Arguments.reachedAny : Arguments → List Expression
  | .nil => []
  | .cons arg args => arg.reached ++ if arg.accepts fun _ => true then [] else args.reachedAny

end

section Results
variable {p : Expression → Bool}

mutual

theorem Expression.walk_accepts : ∀ expr : Expression,
    expr.walk (fun expr (s : Unit) => (p expr, s)) () = (expr.accepts p, ())
  | .all | .column _ _ | .literal _ => by
      rw [Expression.walk, Expression.accepts] <;> simp
  | .binary op lhs rhs => by
      rw [Expression.walk, Expression.accepts]
      cases p (.binary op lhs rhs) with
      | false => rfl
      | true =>
          dsimp only
          rw [Expression.walk_accepts lhs]
          cases lhs.accepts p with
          | false => rfl
          | true => exact Expression.walk_accepts rhs
  | .unary op expr => by
      rw [Expression.walk, Expression.accepts]
      cases p (.unary op expr) with
      | false => rfl
      | true => exact Expression.walk_accepts expr
  | .is expr value => by
      rw [Expression.walk, Expression.accepts]
      cases p (.is expr value) with
      | false => rfl
      | true => exact Expression.walk_accepts expr
  | .function name args => by
      rw [Expression.walk, Expression.accepts]
      cases p (.function name args) with
      | false => rfl
      | true => exact Arguments.walkAny_accepts args

theorem Arguments.walkAny_accepts : ∀ args : Arguments,
    args.walkAny (fun expr (s : Unit) => (p expr, s)) () = (args.acceptsAny p, ())
  | .nil => rfl
  | .cons arg args => by
      rw [Arguments.walkAny, Arguments.acceptsAny, Expression.walk_accepts arg]
      cases arg.accepts p with
      | true => rfl
      | false => exact Arguments.walkAny_accepts args

end

theorem Expression.contains_eq (self : Expression) :
    self.contains p = !self.accepts fun expr => !p expr := by
  have h := self.walk_accepts (p := fun expr => !p expr)
  unfold contains
  rw [h]

end Results

mutual

theorem Expression.walk_reached : ∀ (expr : Expression) (seen : List Expression),
    expr.walk (fun expr seen => (true, seen ++ [expr])) seen =
      (expr.accepts fun _ => true, seen ++ expr.reached)
  | .all, seen | .column _ _, seen | .literal _, seen => by
      rw [Expression.walk, Expression.accepts, Expression.reached] <;> simp
  | .binary op lhs rhs, seen => by
      rw [Expression.walk, Expression.accepts, Expression.reached]
      dsimp only
      rw [Expression.walk_reached lhs]
      cases lhs.accepts fun _ => true with
      | false => simp
      | true =>
          dsimp only
          rw [Expression.walk_reached rhs]
          simp
  | .unary op expr, seen => by
      rw [Expression.walk, Expression.accepts, Expression.reached]
      dsimp only
      rw [Expression.walk_reached expr]
      simp
  | .is expr value, seen => by
      rw [Expression.walk, Expression.accepts, Expression.reached]
      dsimp only
      rw [Expression.walk_reached expr]
      simp
  | .function name args, seen => by
      rw [Expression.walk, Expression.accepts, Expression.reached]
      dsimp only
      rw [Arguments.walkAny_reached args]
      simp

theorem Arguments.walkAny_reached : ∀ (args : Arguments) (seen : List Expression),
    args.walkAny (fun expr seen => (true, seen ++ [expr])) seen =
      (args.acceptsAny fun _ => true, seen ++ args.reachedAny)
  | .nil, seen => by
      rw [Arguments.walkAny, Arguments.acceptsAny, Arguments.reachedAny, List.append_nil]
  | .cons arg args, seen => by
      rw [Arguments.walkAny, Arguments.acceptsAny, Arguments.reachedAny, Expression.walk_reached arg]
      cases arg.accepts fun _ => true with
      | true => simp
      | false =>
          dsimp only
          rw [Arguments.walkAny_reached args]
          simp

end

theorem Expression.visited_eq (self : Expression) : self.visited = self.reached := by
  unfold visited
  rw [walk_reached]
  rfl

/-! ## Single arguments -/

section Single
variable {p : Expression → Bool}

/-- With single arguments, a traversal returns whether the visitor accepts all parts. -/
theorem Expression.accepts_eq : ∀ expr : Expression, expr.SingleArguments →
    expr.accepts p = expr.parts.all p
  | .all, _ | .column _ _, _ | .literal _, _ => by
      rw [Expression.accepts, Expression.parts] <;> simp
  | .binary op lhs rhs, h => by
      rw [Expression.SingleArguments] at h
      rw [Expression.accepts, Expression.parts, Expression.accepts_eq lhs h.1, Expression.accepts_eq rhs h.2,
        List.all_cons, List.all_append]
  | .unary op expr, h => by
      rw [Expression.SingleArguments] at h
      rw [Expression.accepts, Expression.parts, Expression.accepts_eq expr h, List.all_cons]
  | .is expr value, h => by
      rw [Expression.SingleArguments] at h
      rw [Expression.accepts, Expression.parts, Expression.accepts_eq expr h, List.all_cons]
  | .function name .nil, h => by
      rw [Expression.SingleArguments] at h
      cases h.1
  | .function name (.cons arg .nil), h => by
      rw [Expression.SingleArguments, Arguments.AllSingle] at h
      rw [Expression.accepts, Expression.parts, Arguments.acceptsAny, Arguments.acceptsAny, Arguments.parts,
        Arguments.parts, Expression.accepts_eq arg h.2.1, List.all_cons, Bool.or_false,
        List.append_nil]
  | .function name (.cons arg (.cons arg' args)), h => by
      rw [Expression.SingleArguments] at h
      cases h.1

end Single

/-! ## What is found -/

section Found
variable {p : Expression → Bool}

mutual

theorem Expression.collect_eq_nil : ∀ expr : Expression,
    expr.collect p = [] ↔ ∀ part ∈ expr.parts, p part = false
  | .all | .column _ _ | .literal _ => by
      rw [Expression.collect, Expression.parts] <;> simp
  | .binary op lhs rhs => by
      rw [Expression.collect, Expression.parts]
      cases hp : p (.binary op lhs rhs) with
      | true => simp [hp]
      | false =>
          have hl := Expression.collect_eq_nil lhs
          have hr := Expression.collect_eq_nil rhs
          simp [hp, hl, hr, or_imp, forall_and]
  | .unary op expr => by
      rw [Expression.collect, Expression.parts]
      cases hp : p (.unary op expr) with
      | true => simp [hp]
      | false => simp [hp, Expression.collect_eq_nil expr]
  | .is expr value => by
      rw [Expression.collect, Expression.parts]
      cases hp : p (.is expr value) with
      | true => simp [hp]
      | false => simp [hp, Expression.collect_eq_nil expr]
  | .function name args => by
      rw [Expression.collect, Expression.parts]
      cases hp : p (.function name args) with
      | true => simp [hp]
      | false => simp [hp, Arguments.collect_eq_nil args]

theorem Arguments.collect_eq_nil : ∀ args : Arguments,
    args.collect p = [] ↔ ∀ part ∈ args.parts, p part = false
  | .nil => by simp [Arguments.collect, Arguments.parts]
  | .cons arg args => by
      have ha := Expression.collect_eq_nil arg
      have hargs := Arguments.collect_eq_nil args
      rw [Arguments.collect, Arguments.parts]
      simp [ha, hargs, or_imp, forall_and]

end

/-- What is collected is not empty if and only if the predicate holds of a part. -/
theorem Expression.collect_ne_nil (self : Expression) :
    self.collect p ≠ [] ↔ ∃ part ∈ self.parts, p part = true := by
  rw [ne_eq, self.collect_eq_nil]
  simp

end Found

/-! ## Calls with several or no arguments -/

theorem Expression.self_mem_parts (self : Expression) : self ∈ self.parts := by
  cases self <;> simp [Expression.parts]

mutual

theorem Expression.length_reached : ∀ expr : Expression, expr.reached.length ≤ expr.parts.length
  | .all | .column _ _ | .literal _ => by
      rw [Expression.reached, Expression.parts] <;> simp
  | .binary op lhs rhs => by
      have hl := Expression.length_reached lhs
      have hr := Expression.length_reached rhs
      rw [Expression.reached, Expression.parts]
      split_ifs <;> simp only [List.length_cons, List.length_append, List.length_nil] <;> omega
  | .unary op expr => by
      have h := Expression.length_reached expr
      rw [Expression.reached, Expression.parts]
      simp only [List.length_cons]
      omega
  | .is expr value => by
      have h := Expression.length_reached expr
      rw [Expression.reached, Expression.parts]
      simp only [List.length_cons]
      omega
  | .function name args => by
      have h := Arguments.length_reachedAny args
      rw [Expression.reached, Expression.parts]
      simp only [List.length_cons]
      omega

theorem Arguments.length_reachedAny : ∀ args : Arguments,
    args.reachedAny.length ≤ args.parts.length
  | .nil => by rw [Arguments.reachedAny, Arguments.parts]
  | .cons arg args => by
      have ha := Expression.length_reached arg
      have hargs := Arguments.length_reachedAny args
      rw [Arguments.reachedAny, Arguments.parts]
      split_ifs <;> simp only [List.length_append, List.length_nil] <;> omega

end

mutual

/-- A visitor that returns what the traversal of the part returns does not change what the
whole traversal returns. -/
theorem Expression.accepts_accepts {p : Expression → Bool} : ∀ expr : Expression,
    (expr.accepts fun part => part.accepts p) = expr.accepts p
  | .all | .column _ _ | .literal _ => by
      rw [Expression.accepts] <;> simp
  | .binary op lhs rhs => by
      have hl := Expression.accepts_accepts (p := p) lhs
      have hr := Expression.accepts_accepts (p := p) rhs
      simp only [Expression.accepts, hl, hr]
      cases p (.binary op lhs rhs) <;> simp
  | .unary op expr => by
      have h := Expression.accepts_accepts (p := p) expr
      simp only [Expression.accepts, h]
      cases p (.unary op expr) <;> simp
  | .is expr value => by
      have h := Expression.accepts_accepts (p := p) expr
      simp only [Expression.accepts, h]
      cases p (.is expr value) <;> simp
  | .function name args => by
      have h := Arguments.acceptsAny_accepts (p := p) args
      simp only [Expression.accepts, h]
      cases p (.function name args) <;> simp

theorem Arguments.acceptsAny_accepts {p : Expression → Bool} : ∀ args : Arguments,
    (args.acceptsAny fun part => part.accepts p) = args.acceptsAny p
  | .nil => rfl
  | .cons arg args => by
      rw [Arguments.acceptsAny, Arguments.acceptsAny, Expression.accepts_accepts arg,
        Arguments.acceptsAny_accepts args]

end

/-- If no part stops a traversal and all parts are visited, the arguments are single. -/
theorem Expression.single_of_reached : ∀ expr : Expression,
    (∀ part ∈ expr.parts, part.accepts (fun _ => true) = true) →
    expr.reached.length = expr.parts.length → expr.SingleArguments
  | .all, _, _ | .column _ _, _, _ | .literal _, _, _ => by
      rw [Expression.SingleArguments] <;> simp
  | .binary op lhs rhs, h, hlength => by
      have hl := Expression.length_reached lhs
      have hr := Expression.length_reached rhs
      rw [Expression.parts] at h
      have hparts : ∀ part ∈ lhs.parts ++ rhs.parts, part.accepts (fun _ => true) = true :=
        fun part hpart => h part (List.mem_cons_of_mem _ hpart)
      have hlhs : lhs.accepts (fun _ => true) = true :=
        hparts lhs (List.mem_append_left _ lhs.self_mem_parts)
      rw [Expression.reached, Expression.parts, if_pos hlhs] at hlength
      simp only [List.length_cons, List.length_append] at hlength
      rw [Expression.SingleArguments]
      constructor
      · exact Expression.single_of_reached lhs
          (fun part hpart => hparts part (List.mem_append_left _ hpart)) (by omega)
      · exact Expression.single_of_reached rhs
          (fun part hpart => hparts part (List.mem_append_right _ hpart)) (by omega)
  | .unary op expr, h, hlength => by
      rw [Expression.parts] at h
      rw [Expression.reached, Expression.parts] at hlength
      rw [Expression.SingleArguments]
      exact Expression.single_of_reached expr
        (fun part hpart => h part (List.mem_cons_of_mem _ hpart)) (Nat.succ.inj hlength)
  | .is expr value, h, hlength => by
      rw [Expression.parts] at h
      rw [Expression.reached, Expression.parts] at hlength
      rw [Expression.SingleArguments]
      exact Expression.single_of_reached expr
        (fun part hpart => h part (List.mem_cons_of_mem _ hpart)) (Nat.succ.inj hlength)
  | .function name .nil, h, _ => by
      have hself := h _ (Expression.self_mem_parts _)
      rw [Expression.accepts, Arguments.acceptsAny] at hself
      cases hself
  | .function name (.cons arg args), h, hlength => by
      rw [Expression.parts, Arguments.parts] at h
      have hargument : ∀ part ∈ arg.parts, part.accepts (fun _ => true) = true :=
        fun part hpart => h part (List.mem_cons_of_mem _ (List.mem_append_left _ hpart))
      have harg := Expression.length_reached arg
      rw [Expression.reached, Expression.parts, Arguments.reachedAny, Arguments.parts,
        if_pos (hargument arg arg.self_mem_parts)] at hlength
      simp only [List.length_cons, List.length_append, List.length_nil] at hlength
      -- the first argument ends the traversal, so nothing is left of the others
      cases args with
      | nil =>
          rw [Expression.SingleArguments, Arguments.AllSingle]
          rw [Arguments.parts, List.length_nil] at hlength
          exact ⟨rfl, Expression.single_of_reached arg hargument (by omega), trivial⟩
      | cons arg' args =>
          have hpos := List.length_pos_of_mem arg'.self_mem_parts
          rw [Arguments.parts, List.length_append] at hlength
          omega

/-- With single arguments all parts are visited. -/
theorem Expression.reached_eq : ∀ expr : Expression, expr.SingleArguments →
    expr.reached = expr.parts
  | .all, _ | .column _ _, _ | .literal _, _ => by
      rw [Expression.reached, Expression.parts] <;> simp
  | .binary op lhs rhs, h => by
      rw [Expression.SingleArguments] at h
      have hlhs : lhs.accepts (fun _ => true) = true := by
        rw [Expression.accepts_eq lhs h.1]
        simp
      rw [Expression.reached, Expression.parts, if_pos hlhs, Expression.reached_eq lhs h.1,
        Expression.reached_eq rhs h.2]
  | .unary op expr, h => by
      rw [Expression.SingleArguments] at h
      rw [Expression.reached, Expression.parts, Expression.reached_eq expr h]
  | .is expr value, h => by
      rw [Expression.SingleArguments] at h
      rw [Expression.reached, Expression.parts, Expression.reached_eq expr h]
  | .function name .nil, h => by
      rw [Expression.SingleArguments] at h
      cases h.1
  | .function name (.cons arg .nil), h => by
      rw [Expression.SingleArguments, Arguments.AllSingle] at h
      rw [Expression.reached, Expression.parts, Arguments.reachedAny, Arguments.reachedAny,
        Arguments.parts, Arguments.parts, Expression.reached_eq arg h.2.1, ite_self]
  | .function name (.cons arg (.cons arg' args)), h => by
      rw [Expression.SingleArguments] at h
      cases h.1

/-! ## Traversals that visit everything -/

/-- The traversals find every part of which a predicate holds, and visit every part once. -/
structure Expression.Traversed (expr : Expression) : Prop where
  contains_iff : ∀ p : Expression → Bool,
    expr.contains p = true ↔ ∃ part ∈ expr.parts, p part = true
  collect_iff : ∀ p : Expression → Bool, expr.contains p = true ↔ expr.collect p ≠ []
  visited_perm : expr.visited.Perm expr.parts

/-- The traversals do what they are for if and only if every function call has exactly one
argument. -/
theorem Expression.traversed_iff (self : Expression) :
    self.Traversed ↔ self.SingleArguments := by
  constructor
  · intro h
    have haccepts : self.accepts (fun _ => true) = true := by
      have hnone := (not_congr (h.contains_iff fun _ => false)).mpr (by simp)
      rw [Expression.contains_eq] at hnone
      simpa using hnone
    have hparts : ∀ part ∈ self.parts, part.accepts (fun _ => true) = true := by
      have hstops := (not_congr (h.contains_iff fun part => !part.accepts fun _ => true)).mp (by
        rw [Expression.contains_eq]
        simp only [Bool.not_not]
        rw [Expression.accepts_accepts, haccepts]
        decide)
      intro part hpart
      by_contra hfalse
      exact hstops ⟨part, hpart, by simpa using hfalse⟩
    have hlength := h.visited_perm.length_eq
    rw [Expression.visited_eq] at hlength
    exact Expression.single_of_reached self hparts hlength
  · intro h
    have hcontains : ∀ p : Expression → Bool,
        self.contains p = true ↔ ∃ part ∈ self.parts, p part = true := by
      intro p
      rw [Expression.contains_eq, Expression.accepts_eq self h]
      simp
    refine ⟨hcontains, fun p => (hcontains p).trans self.collect_ne_nil.symm, ?_⟩
    rw [Expression.visited_eq, Expression.reached_eq self h]

/-- Of `f(a, b)`, the second argument is not visited. -/
theorem Expression.not_traversed_pair : ¬ (Expression.function "f"
    (.cons (.column none "a") (.cons (.column none "b") .nil))).Traversed := by
  intro h
  have hb := (h.contains_iff fun part => part = .column none "b").mpr
    ⟨.column none "b", by simp [Expression.parts, Arguments.parts], by simp⟩
  revert hb
  decide

end ToyDB.Sql.Ast
