import ToyDB.Sql.Parser.Printing

/-!
# Printed expressions are read back

While it reads an expression operand by operand, the parser stands at its stage, with the
expression so far on the left. What stands behind the operand of an operator ends it.
-/
namespace ToyDB.Sql.Parser
variable {numbers : Numbers}

/-! ## Operators -/

theorem next_ok {tokens rest : List Token} {token : Token} (h : next tokens = .ok (token, rest)) :
    tokens = token :: rest := by
  cases tokens with
  | nil => cases h
  | cons token' tokens =>
      cases h
      rfl

theorem IsToken.ne_not (value : IsToken) : value.token ≠ .keyword .not := by
  intro h
  have hreads := value.reads
  rw [h] at hreads
  cases hreads

/-- A postfix operator is read. -/
theorem parsePostfix_suffix (op : Suffix) {min : Precedence} (h : min ≤ op.operator.precedence)
    (rest : List Token) :
    parsePostfixOperatorAt min (op.tokens ++ rest) = .ok (some (op.operator, rest)) := by
  cases op with
  | factorial => exact congrArg Except.ok (if_pos h)
  | is value =>
      change (if _ then _ else _) = _
      have hmin : ¬ (PostfixOperator.is .null).precedence < min := Nat.not_lt.mpr h
      rw [if_neg hmin]
      have hne := value.ne_not
      split
      · rename_i heq
        exact absurd (List.cons.inj heq).1 hne
      · change (isValue value.token >>= _) = _
        rw [value.reads]
        rfl
  | isNot value =>
      change (if _ then _ else _) = _
      have hmin : ¬ (PostfixOperator.is .null).precedence < min := Nat.not_lt.mpr h
      rw [if_neg hmin]
      change (isValue value.token >>= _) = _
      rw [value.reads]
      rfl

/-- What has been read as a postfix operator is one. -/
theorem suffix_of_parsePostfix {min : Precedence} {tokens rest : List Token}
    {op : PostfixOperator} (h : parsePostfixOperatorAt min tokens = .ok (some (op, rest))) :
    ∃ suffix : Suffix, suffix.operator = op ∧ tokens = suffix.tokens ++ rest := by
  unfold parsePostfixOperatorAt at h
  split at h
  · split_ifs at h
    · cases h
    · split at h
      · obtain ⟨⟨token, tokens'⟩, hnext, h⟩ := bind_eq_ok.mp h
        obtain ⟨value, hvalue, h⟩ := bind_eq_ok.mp h
        cases h
        exact ⟨.isNot ⟨token, value, hvalue⟩, rfl, by rw [next_ok hnext]; rfl⟩
      · obtain ⟨⟨token, tokens'⟩, hnext, h⟩ := bind_eq_ok.mp h
        obtain ⟨value, hvalue, h⟩ := bind_eq_ok.mp h
        cases h
        exact ⟨.is ⟨token, value, hvalue⟩, rfl, by rw [next_ok hnext]; rfl⟩
  · split_ifs at h
    · cases h
      exact ⟨.factorial, rfl, rfl⟩
    · cases h
  · cases h

theorem Suffix.tokens_ne_nil (op : Suffix) : 0 < op.tokens.length := by cases op <;> simp [tokens]

/-- Enough tokens are as good as more. -/
theorem parsePostfix_length {min : Precedence} (n : ℕ) : ∀ (n' : ℕ) (lhs : Ast.Expression)
    (tokens : List Token), tokens.length ≤ n → tokens.length ≤ n' →
    parsePostfixOperators min n lhs tokens = parsePostfixOperators min n' lhs tokens := by
  induction n with
  | zero =>
      intro n' lhs tokens h _
      obtain rfl := List.length_eq_zero_iff.mp (Nat.le_zero.mp h)
      cases n' with
      | zero => rfl
      | succ n' => rfl
  | succ n ih =>
      intro n' lhs tokens h h'
      cases n' with
      | zero =>
          obtain rfl := List.length_eq_zero_iff.mp (Nat.le_zero.mp h')
          rfl
      | succ n' =>
          unfold parsePostfixOperators
          cases hop : parsePostfixOperatorAt min tokens with
          | error e => rfl
          | ok found =>
              cases found with
              | none => rfl
              | some found =>
                  obtain ⟨op, rest⟩ := found
                  obtain ⟨suffix, -, htokens⟩ := suffix_of_parsePostfix hop
                  have hlength := congrArg List.length htokens
                  rw [List.length_append] at hlength
                  have hpos := suffix.tokens_ne_nil
                  exact ih n' _ rest (by omega) (by omega)

/-- A postfix operator is applied. -/
theorem parsePostfixOperators_suffix (op : Suffix) {min : Precedence}
    (h : min ≤ op.operator.precedence) (lhs : Ast.Expression) (rest : List Token) :
    parsePostfixOperators min (op.tokens ++ rest).length lhs (op.tokens ++ rest) =
      parsePostfixOperators min rest.length (op.operator.intoExpression lhs) rest := by
  have hpos := op.tokens_ne_nil
  obtain ⟨n, hn⟩ : ∃ n, (op.tokens ++ rest).length = n + 1 :=
    ⟨op.tokens.length - 1 + rest.length, by rw [List.length_append]; omega⟩
  rw [hn, parsePostfixOperators, parsePostfix_suffix op h]
  rw [List.length_append] at hn
  exact parsePostfix_length n rest.length _ rest (by omega) (Nat.le_refl _)

/-- The tokens do not go on with a postfix operator. -/
theorem parsePostfixOperators_none {min : Precedence} {lhs : Ast.Expression} {tokens : List Token}
    (h : parsePostfixOperatorAt min tokens = .ok none) (n : ℕ) :
    parsePostfixOperators min n lhs tokens = .ok (lhs, tokens) := by
  cases n with
  | zero => rfl
  | succ n =>
      unfold parsePostfixOperators
      rw [h]
      rfl

/-- What may stand behind an operand for which this precedence is needed: an operator that
needs no more of its left operand, or the end of the operand. -/
def Follows (needed : Precedence) : List Token → Prop
  | [] => True
  | token :: _ => token = .closeParen ∨ token = .comma ∨
      (token = .keyword .is ∧ (PostfixOperator.is .null).precedence ≤ needed) ∨
      (token = .exclamation ∧ PostfixOperator.factorial.precedence ≤ needed) ∨
      ∃ op, InfixOperator.ofToken token = some op ∧ op.left ≤ needed

/-- What ends an expression at this minimum precedence. -/
def Stops (min : Precedence) : List Token → Prop
  | [] => True
  | token :: _ => token = .closeParen ∨ token = .comma ∨
      (token = .keyword .is ∧ (PostfixOperator.is .null).precedence < min) ∨
      (token = .exclamation ∧ PostfixOperator.factorial.precedence < min) ∨
      ∃ op, InfixOperator.ofToken token = some op ∧ op.precedence < min

section
variable {needed min : Precedence} {tokens rest : List Token}

theorem Follows.mono {needed' : Precedence} (h : Follows needed tokens) (hle : needed ≤ needed') :
    Follows needed' tokens := by
  cases tokens with
  | nil => trivial
  | cons token tokens =>
      obtain h | h | ⟨h, hp⟩ | ⟨h, hp⟩ | ⟨op, h, hp⟩ := h
      · exact .inl h
      · exact .inr (.inl h)
      · exact .inr (.inr (.inl ⟨h, hp.trans hle⟩))
      · exact .inr (.inr (.inr (.inl ⟨h, hp.trans hle⟩)))
      · exact .inr (.inr (.inr (.inr ⟨op, h, hp.trans hle⟩)))

theorem follows_suffix (op : Suffix) (rest : List Token) :
    Follows op.operator.precedence (op.tokens ++ rest) := by
  cases op with
  | factorial => exact .inr (.inr (.inr (.inl ⟨rfl, Nat.le_refl _⟩)))
  | is value => exact .inr (.inr (.inl ⟨rfl, Nat.le_refl _⟩))
  | isNot value => exact .inr (.inr (.inl ⟨rfl, Nat.le_refl _⟩))

theorem follows_between (op : InfixToken) (rest : List Token) :
    Follows op.operator.left (op.token :: rest) :=
  .inr (.inr (.inr (.inr ⟨op.operator, op.reads, Nat.le_refl _⟩)))

/-- An operator that may follow an infix operation does not belong to its right operand. -/
theorem precedence_lt_right {op op' : InfixOperator} (h : op'.left ≤ op.precedence) :
    op'.precedence < op.right := by
  unfold InfixOperator.left InfixOperator.right at *
  cases op <;> cases op' <;> simp [InfixOperator.precedence, InfixOperator.associativity,
    Associativity.bonus] at h ⊢

theorem Follows.stops_right {op : InfixOperator} (h : Follows needed tokens)
    (hle : needed ≤ op.precedence) : Stops op.right tokens := by
  cases tokens with
  | nil => trivial
  | cons token tokens =>
      obtain h | h | ⟨h, hp⟩ | ⟨h, hp⟩ | ⟨op', h, hp⟩ := h
      · exact .inl h
      · exact .inr (.inl h)
      · refine .inr (.inr (.inl ⟨h, ?_⟩))
        have hop := hp.trans hle
        cases op <;> simp [InfixOperator.precedence, PostfixOperator.precedence,
          InfixOperator.right, InfixOperator.associativity, Associativity.bonus] at hop ⊢
      · have hop := hp.trans hle
        cases op <;> simp [InfixOperator.precedence, PostfixOperator.precedence] at hop
      · exact .inr (.inr (.inr (.inr ⟨op', h, precedence_lt_right (hp.trans hle)⟩)))

theorem Follows.stops_operand {op : PrefixOperator} (h : Follows needed tokens)
    (hle : needed ≤ op.precedence) : Stops op.operand tokens := by
  cases tokens with
  | nil => trivial
  | cons token tokens =>
      obtain h | h | ⟨h, hp⟩ | ⟨h, hp⟩ | ⟨op', h, hp⟩ := h
      · exact .inl h
      · exact .inr (.inl h)
      · refine .inr (.inr (.inl ⟨h, ?_⟩))
        have hop := hp.trans hle
        cases op <;> simp [PrefixOperator.precedence, PostfixOperator.precedence,
          PrefixOperator.operand, PrefixOperator.associativity, Associativity.bonus] at hop ⊢
      · refine .inr (.inr (.inr (.inl ⟨h, ?_⟩)))
        have hop := hp.trans hle
        cases op <;> simp [PrefixOperator.precedence, PostfixOperator.precedence,
          PrefixOperator.operand, PrefixOperator.associativity, Associativity.bonus] at hop ⊢
      · refine .inr (.inr (.inr (.inr ⟨op', h, ?_⟩)))
        have hop := hp.trans hle
        unfold InfixOperator.left at hop
        cases op <;> cases op' <;> simp [PrefixOperator.precedence, InfixOperator.precedence,
          PrefixOperator.operand, PrefixOperator.associativity, InfixOperator.associativity,
          Associativity.bonus] at hop ⊢

theorem between_not_after (op : InfixToken) (rest : List Token) :
    parsePostfixOperatorAt min (op.token :: rest) = .ok none := by
  have hreads := op.reads
  unfold parsePostfixOperatorAt
  split
  · rename_i heq
    rw [(List.cons.inj heq).1] at hreads
    cases hreads
  · rename_i heq
    rw [(List.cons.inj heq).1] at hreads
    cases hreads
  · rfl

theorem Stops.postfix_none (h : Stops min tokens) :
    parsePostfixOperatorAt min tokens = .ok none := by
  cases tokens with
  | nil => rfl
  | cons token tokens =>
      obtain rfl | rfl | ⟨rfl, hp⟩ | ⟨rfl, hp⟩ | ⟨op, h, hp⟩ := h
      · rfl
      · rfl
      · exact if_pos hp
      · exact congrArg Except.ok (if_neg (Nat.not_le.mpr hp))
      · exact between_not_after ⟨token, op, h⟩ tokens

theorem Stops.infix_none (h : Stops min tokens) : parseInfixOperatorAt min tokens = none := by
  cases tokens with
  | nil => rfl
  | cons token tokens =>
      obtain rfl | rfl | ⟨rfl, hp⟩ | ⟨rfl, hp⟩ | ⟨op, h, hp⟩ := h
      · rfl
      · rfl
      · rfl
      · rfl
      · unfold parseInfixOperatorAt
        dsimp only
        rw [h]
        exact if_neg (Nat.not_le.mpr hp)

theorem after_not_between (op : Suffix) (rest : List Token) :
    parseInfixOperatorAt min (op.tokens ++ rest) = none := by
  cases op <;> rfl

end

/-! ## Steps -/

/-- What the parser does at a stage. -/
def resume (numbers : Numbers) (calls : ℕ) (min : Precedence) (stage : Stage)
    (lhs : Ast.Expression) (tokens : List Token) : Except Failure (Ast.Expression × List Token) :=
  match stage with
  | .operand => do
      let (lhs, tokens) ← parsePostfixOperators min tokens.length lhs tokens
      let (lhs, tokens) ← parseInfixOperators numbers calls min lhs tokens
      parsePostfixOperators min tokens.length lhs tokens
  | .chain => do
      let (lhs, tokens) ← parseInfixOperators numbers calls min lhs tokens
      parsePostfixOperators min tokens.length lhs tokens
  | .tested => parsePostfixOperators min tokens.length lhs tokens

section
variable {calls : ℕ} {min : Precedence} {lhs : Ast.Expression} {rest : List Token} {stage : Stage}

/-- Nothing more is read. -/
theorem resume_stops (h : Stops min rest) :
    resume numbers (calls + 1) min stage lhs rest = .ok (lhs, rest) := by
  have hinf : parseInfixOperators numbers (calls + 1) min lhs rest = .ok (lhs, rest) := by
    unfold parseInfixOperators
    rw [h.infix_none]
  cases stage with
  | operand =>
      unfold resume
      dsimp only
      rw [parsePostfixOperators_none h.postfix_none]
      change (parseInfixOperators numbers (calls + 1) min lhs rest >>= _) = _
      rw [hinf]
      exact parsePostfixOperators_none h.postfix_none _
  | chain =>
      unfold resume
      dsimp only
      rw [hinf]
      exact parsePostfixOperators_none h.postfix_none _
  | tested => exact parsePostfixOperators_none h.postfix_none _

/-- A postfix operator is read at every stage. -/
theorem resume_suffix (op : Suffix) (h : min ≤ op.operator.precedence) :
    resume numbers (calls + 1) min stage lhs (op.tokens ++ rest) =
      resume numbers (calls + 1) min (if stage = .operand then .operand else .tested)
        (op.operator.intoExpression lhs) rest := by
  cases stage with
  | operand =>
      unfold resume
      dsimp only
      rw [parsePostfixOperators_suffix op h]
      rfl
  | chain =>
      have hinf : parseInfixOperators numbers (calls + 1) min lhs (op.tokens ++ rest) =
          .ok (lhs, op.tokens ++ rest) := by
        unfold parseInfixOperators
        rw [after_not_between]
      unfold resume
      dsimp only
      rw [hinf]
      exact parsePostfixOperators_suffix op h lhs rest
  | tested => exact parsePostfixOperators_suffix op h lhs rest

/-- An infix operator is read with its right operand, unless postfix operators on infix
operators have been read. -/
theorem resume_between (op : InfixToken) (h : min ≤ op.operator.precedence) (hstage : stage ≠ .tested)
    {rhs : Ast.Expression} {tokens : List Token}
    (hrhs : parseExpressionAt numbers calls op.operator.right tokens = .ok (rhs, rest)) :
    resume numbers (calls + 1) min stage lhs (op.token :: tokens) =
      resume numbers calls min .chain (op.operator.intoExpression lhs rhs) rest := by
  have hinf : parseInfixOperators numbers (calls + 1) min lhs (op.token :: tokens) =
      parseInfixOperators numbers calls min (op.operator.intoExpression lhs rhs) rest := by
    rw [parseInfixOperators, parseInfixOperatorAt, op.reads]
    dsimp only
    rw [if_pos h]
    change (parseExpressionAt numbers calls op.operator.right tokens >>= _) = _
    rw [hrhs]
    rfl
  cases stage with
  | operand =>
      unfold resume
      dsimp only
      rw [parsePostfixOperators_none (between_not_after op tokens)]
      change (parseInfixOperators numbers (calls + 1) min lhs (op.token :: tokens) >>= _) = _
      rw [hinf]
  | chain =>
      unfold resume
      dsimp only
      rw [hinf]
  | tested => exact absurd rfl hstage

end

/-! ## Trees -/

mutual

/-- Every operator has the precedence that is needed where it stands, and the parser reaches
it. -/
def Tree.Tight : Precedence → Tree numbers → Prop
  | _, .atom _ => True
  | _, .column _ _ => True
  | _, .call _ args => args.Tight
  | _, .paren x => x.Tight 0
  | needed, .before op x => needed ≤ op.precedence ∧ x.Tight op.operand
  | needed, .between op l r => needed ≤ op.operator.precedence ∧ l.Tight op.operator.left ∧
      r.Tight op.operator.right ∧ l.stage ≠ .tested
  | needed, .after op x => needed ≤ op.operator.precedence ∧ x.Tight op.operator.precedence

def Trees.Tight : Trees numbers → Prop
  | .nil => True
  | .cons x xs => x.Tight 0 ∧ xs.Tight

end

/-- Parentheses make an expression fit. -/
theorem tight_wrap {needed precedence : Precedence} {x : Tree numbers}
    (h : (wrap needed precedence x).Climbs)
    (hx : x.Climbs → ∀ n ≤ precedence, x.Tight n) : (wrap needed precedence x).Tight needed := by
  unfold wrap at h ⊢
  split_ifs at h ⊢ with hlt
  · rw [Tree.Climbs] at h
    rw [Tree.Tight]
    exact hx h 0 (Nat.zero_le _)
  · exact hx h needed (Nat.not_lt.mp hlt)

mutual

theorem Tree.tight_minimal : ∀ (x : Tree numbers) (needed : Precedence),
    (x.minimal needed).Climbs → (x.minimal needed).Tight needed
  | .atom a, _, _ => by rw [Tree.minimal, Tree.Tight]; trivial
  | .column table name, _, _ => by rw [Tree.minimal, Tree.Tight]; trivial
  | .call name args, _, h => by
      rw [Tree.minimal, Tree.Climbs] at h
      rw [Tree.minimal, Tree.Tight]
      exact Trees.tight_minimal args h
  | .paren x, needed, h => by
      rw [Tree.minimal] at h ⊢
      exact Tree.tight_minimal x needed h
  | .before op x, needed, h => by
      rw [Tree.minimal] at h ⊢
      refine tight_wrap h fun hx n hn => ?_
      rw [Tree.Climbs] at hx
      rw [Tree.Tight]
      exact ⟨hn, Tree.tight_minimal x _ hx⟩
  | .between op l r, needed, h => by
      rw [Tree.minimal] at h ⊢
      refine tight_wrap h fun hx n hn => ?_
      rw [Tree.Climbs] at hx
      rw [Tree.Tight]
      exact ⟨hn, Tree.tight_minimal l _ hx.1, Tree.tight_minimal r _ hx.2.1, hx.2.2⟩
  | .after op x, needed, h => by
      rw [Tree.minimal] at h ⊢
      refine tight_wrap h fun hx n hn => ?_
      rw [Tree.Climbs] at hx
      rw [Tree.Tight]
      exact ⟨hn, Tree.tight_minimal x _ hx⟩

theorem Trees.tight_minimal : ∀ xs : Trees numbers, xs.minimal.Climb → xs.minimal.Tight
  | .nil, _ => by rw [Trees.minimal, Trees.Tight]; trivial
  | .cons x xs, h => by
      rw [Trees.minimal, Trees.Climb] at h
      rw [Trees.minimal, Trees.Tight]
      exact ⟨Tree.tight_minimal x 0 h.1, Trees.tight_minimal xs h.2⟩

end

/-- The number of infix operators that the parser applies one after the other. -/
def Tree.links : Tree numbers → ℕ
  | .between _ l _ => l.links + 1
  | .after _ x => x.links
  | _ => 0

theorem Tree.links_lt (x : Tree numbers) : x.links < x.tokens.length := by
  match x with
  | .atom a => simp [Tree.links, Tree.tokens]
  | .column none name => simp [Tree.links, Tree.tokens]
  | .column (some table) name => simp [Tree.links, Tree.tokens]
  | .call name args => simp [Tree.links, Tree.tokens]
  | .paren x => simp [Tree.links, Tree.tokens]
  | .before op x => simp [Tree.links, Tree.tokens]
  | .between op l r =>
      have hl := l.links_lt
      simp only [Tree.links, Tree.tokens, List.length_append, List.length_cons]
      omega
  | .after op x =>
      have hx := x.links_lt
      simp only [Tree.links, Tree.tokens, List.length_append]
      omega

theorem Atom.ne_closeParen (a : Atom numbers) : a.token ≠ .closeParen := by
  intro h
  have hreads := a.reads
  rw [h] at hreads
  cases hreads

theorem Tree.head_ne_closeParen (x : Tree numbers) (rest tokens : List Token) :
    x.tokens ++ rest ≠ .closeParen :: tokens := by
  match x with
  | .atom a =>
      rw [Tree.tokens]
      exact fun h => a.ne_closeParen (List.cons.inj h).1
  | .column none name => simp [Tree.tokens]
  | .column (some table) name => simp [Tree.tokens]
  | .call name args => simp [Tree.tokens]
  | .paren x => simp [Tree.tokens]
  | .before op x => cases op <;> simp [Tree.tokens, PrefixOperator.token]
  | .between op l r =>
      rw [Tree.tokens, List.append_assoc]
      exact l.head_ne_closeParen _ _
  | .after op x =>
      rw [Tree.tokens, List.append_assoc]
      exact x.head_ne_closeParen _ _

/-- The expression is read up to what stands behind it. -/
def Tree.Reads (x : Tree numbers) (needed : Precedence) : Prop :=
  ∀ min ≤ needed, ∀ calls rest, Follows needed rest → 2 * x.tokens.length ≤ calls + x.links →
    parseExpressionAt numbers (calls + x.links + 1) min (x.tokens ++ rest) =
      resume numbers calls min x.stage x.expression rest

/-- The expression is read as a whole. -/
theorem Tree.Reads.parses {x : Tree numbers} {needed : Precedence} (h : x.Reads needed)
    {rest : List Token} (hfollows : Follows needed rest) (hstops : Stops needed rest) {calls : ℕ}
    (hcalls : 2 * x.tokens.length < calls) :
    parseExpressionAt numbers calls needed (x.tokens ++ rest) = .ok (x.expression, rest) := by
  have hlinks := x.links_lt
  obtain ⟨n, rfl⟩ : ∃ n, calls = n + 1 + x.links + 1 := ⟨calls - x.links - 2, by omega⟩
  rw [h needed (Nat.le_refl _) (n + 1) rest hfollows (by omega), resume_stops hstops]

section
variable {needed min : Precedence} {calls : ℕ} {rest : List Token}

/-- An expression without a prefix operator is read from its atom on. -/
theorem parse_atom {lhs : Ast.Expression} {tokens : List Token}
    (hpre : parsePrefixOperatorAt min tokens = none)
    (hatom : parseExpressionAtom numbers calls tokens = .ok (lhs, rest)) :
    parseExpressionAt numbers (calls + 1) min tokens =
      resume numbers calls min .operand lhs rest := by
  rw [parseExpressionAt, hpre]
  dsimp only
  rw [hatom]
  rfl

theorem Atom.parses (a : Atom numbers) (calls : ℕ) (rest : List Token) :
    parseExpressionAtom numbers (calls + 1) (a.token :: rest) = .ok (a.expression, rest) := by
  obtain ⟨token, expression, hreads⟩ := a
  have hrest : parseExpressionAtom numbers (calls + 1) (token :: rest) =
      (atomExpression numbers token >>= fun expr => pure (expr, rest)) := by
    cases token <;> first | rfl | cases hreads
  rw [hrest, hreads]
  rfl

theorem Atom.not_before (a : Atom numbers) (min : Precedence) (rest : List Token) :
    parsePrefixOperatorAt min (a.token :: rest) = none := by
  obtain ⟨token, expression, hreads⟩ := a
  cases token <;> first | rfl | cases hreads | skip
  case keyword k => cases k <;> first | rfl | cases hreads

/-- A column that is not the start of a function call or of a qualified column. -/
theorem parse_column (name : List Char) (h : Follows needed rest) :
    parseExpressionAtom numbers (calls + 1) (.ident name :: rest) =
      .ok (.column none (String.ofList name), rest) := by
  cases rest with
  | nil => rfl
  | cons token tokens =>
      obtain rfl | rfl | ⟨rfl, -⟩ | ⟨rfl, -⟩ | ⟨op, hop, -⟩ := h
      · rfl
      · rfl
      · rfl
      · rfl
      · cases token <;> first | rfl | cases hop

end

mutual

theorem Tree.reads : ∀ (x : Tree numbers) (needed : Precedence), x.Tight needed → x.Reads needed
  | .atom a, _, _ => by
      intro min _ calls rest _ hcalls
      rw [Tree.tokens] at hcalls ⊢
      obtain ⟨c, rfl⟩ : ∃ c, calls = c + 1 := ⟨calls - 1, by simp [Tree.links] at hcalls; omega⟩
      exact parse_atom (a.not_before min rest) (a.parses c rest)
  | .column none name, needed, _ => by
      intro min _ calls rest hfollows hcalls
      rw [Tree.tokens] at hcalls ⊢
      obtain ⟨c, rfl⟩ : ∃ c, calls = c + 1 := ⟨calls - 1, by simp [Tree.links] at hcalls; omega⟩
      exact parse_atom rfl (parse_column name hfollows)
  | .column (some table) name, needed, _ => by
      intro min _ calls rest _ hcalls
      rw [Tree.tokens] at hcalls ⊢
      obtain ⟨c, rfl⟩ : ∃ c, calls = c + 1 := ⟨calls - 1, by simp [Tree.links] at hcalls; omega⟩
      exact parse_atom rfl rfl
  | .call name args, _, h => by
      intro min _ calls rest _ hcalls
      rw [Tree.Tight] at h
      simp only [Tree.tokens, Tree.links, List.length_cons, List.length_append,
        List.length_nil] at hcalls
      obtain ⟨c, rfl⟩ : ∃ c, calls = c + 1 := ⟨calls - 1, by omega⟩
      have hargs := Trees.read args true c rest h (by omega)
      refine parse_atom rfl ?_
      rw [Tree.tokens, List.cons_append, List.cons_append, List.append_assoc]
      change (parseArguments numbers c true (args.tokens true ++ .closeParen :: rest) >>= _) = _
      rw [hargs]
      rfl
  | .paren x, _, h => by
      intro min _ calls rest _ hcalls
      rw [Tree.Tight] at h
      simp only [Tree.tokens, Tree.links, List.length_cons, List.length_append,
        List.length_nil] at hcalls
      obtain ⟨c, rfl⟩ : ∃ c, calls = c + 1 := ⟨calls - 1, by omega⟩
      have hx := (Tree.reads x 0 h).parses
        (show Follows 0 (.closeParen :: rest) from .inl rfl) (.inl rfl)
        (show 2 * x.tokens.length < c by omega)
      refine parse_atom rfl ?_
      rw [Tree.tokens, List.cons_append, List.append_assoc]
      change (parseExpressionAt numbers c 0 (x.tokens ++ .closeParen :: rest) >>= _) = _
      rw [hx]
      rfl
  | .before op x, needed, h => by
      intro min hmin calls rest hfollows hcalls
      rw [Tree.Tight] at h
      simp only [Tree.tokens, Tree.links, List.length_cons] at hcalls
      have hle : op.precedence ≤ op.operand := Nat.le_add_right _ _
      have hx := (Tree.reads x op.operand h.2).parses (hfollows.mono (h.1.trans hle))
        (hfollows.stops_operand h.1) (show 2 * x.tokens.length < calls by omega)
      have hpre : parsePrefixOperatorAt min (op.token :: (x.tokens ++ rest)) =
          some (op, x.tokens ++ rest) := by
        have hop : PrefixOperator.ofToken op.token = some op := by cases op <;> rfl
        unfold parsePrefixOperatorAt
        dsimp only
        rw [hop]
        exact if_pos (hmin.trans h.1)
      rw [Tree.tokens, List.cons_append]
      change parseExpressionAt numbers (calls + 1) min (op.token :: (x.tokens ++ rest)) = _
      rw [parseExpressionAt, hpre]
      dsimp only
      unfold PrefixOperator.operand at hx
      rw [hx]
      rfl
  | .between op l r, needed, h => by
      intro min hmin calls rest hfollows hcalls
      rw [Tree.Tight] at h
      obtain ⟨hop, hl, hr, hstage⟩ := h
      simp only [Tree.tokens, Tree.links, List.length_cons, List.length_append] at hcalls
      have hlinks := l.links_lt
      have hle : op.operator.precedence ≤ op.operator.right := Nat.le_add_right _ _
      have hle' : op.operator.precedence ≤ op.operator.left := Nat.le_add_right _ _
      have hright := (Tree.reads r _ hr).parses (hfollows.mono (hop.trans hle))
        (hfollows.stops_right hop) (show 2 * r.tokens.length < calls by omega)
      have hleft := Tree.reads l _ hl min ((hmin.trans hop).trans hle') (calls + 1)
        (op.token :: (r.tokens ++ rest)) (follows_between op _) (by omega)
      rw [Tree.tokens, List.append_assoc, List.cons_append,
        show calls + Tree.links (.between op l r) + 1 = calls + 1 + l.links + 1 by
          rw [Tree.links]; omega, hleft]
      exact resume_between op (hmin.trans hop) hstage hright
  | .after op x, needed, h => by
      intro min hmin calls rest hfollows hcalls
      rw [Tree.Tight] at h
      simp only [Tree.tokens, Tree.links, List.length_append] at hcalls
      have hlinks := x.links_lt
      have hx := Tree.reads x _ h.2 min (hmin.trans h.1) calls (op.tokens ++ rest)
        (follows_suffix op rest) (by omega)
      obtain ⟨c, rfl⟩ : ∃ c, calls = c + 1 := ⟨calls - 1, by omega⟩
      rw [Tree.tokens, List.append_assoc, Tree.links, hx, resume_suffix op (hmin.trans h.1)]
      rfl

theorem Trees.read : ∀ (xs : Trees numbers) (first : Bool) (calls : ℕ) (rest : List Token),
    xs.Tight → 2 * (xs.tokens first).length + 2 ≤ calls →
    parseArguments numbers calls first (xs.tokens first ++ .closeParen :: rest) =
      .ok (xs.expressions, rest)
  | .nil, first, calls, rest, _, hcalls => by
      obtain ⟨c, rfl⟩ : ∃ c, calls = c + 1 := ⟨calls - 1, by omega⟩
      rw [Trees.tokens]
      rfl
  | .cons x xs, first, calls, rest, h, hcalls => by
      rw [Trees.Tight] at h
      simp only [Trees.tokens, List.length_append] at hcalls
      have hlinks := x.links_lt
      obtain ⟨c, rfl⟩ : ∃ c, calls = c + 1 := ⟨calls - 1, by omega⟩
      have hbehind : Follows 0 (xs.tokens false ++ .closeParen :: rest) ∧
          Stops 0 (xs.tokens false ++ .closeParen :: rest) := by
        cases xs with
        | nil => exact ⟨.inl rfl, .inl rfl⟩
        | cons y ys => exact ⟨.inr (.inl rfl), .inr (.inl rfl)⟩
      have hx := (Tree.reads x 0 h.1).parses hbehind.1 hbehind.2 (show 2 * x.tokens.length < c by omega)
      have hxs := Trees.read xs false c rest h.2 (by omega)
      have hne := x.head_ne_closeParen (xs.tokens false ++ .closeParen :: rest)
      have hrest : parseArguments numbers (c + 1) first
          ((Trees.cons x xs).tokens first ++ .closeParen :: rest) =
          (parseExpressionAt numbers c 0 (x.tokens ++ (xs.tokens false ++ .closeParen :: rest)) >>=
            fun p => parseArguments numbers c false p.2 >>= fun q => pure (.cons p.1 q.1, q.2)) := by
        rw [Trees.tokens, List.append_assoc, List.append_assoc]
        cases first with
        | true =>
            rw [if_pos rfl, List.nil_append]
            conv_lhs => unfold parseArguments
            split
            · rename_i heq
              exact absurd heq (hne _)
            · rfl
        | false => rfl
      rw [hrest, hx]
      change (parseArguments numbers c false _ >>= _) = _
      rw [hxs]
      rfl

end

/-- An expression that the parser can climb is read back from the text with the fewest
parentheses. -/
theorem parseExpression_minimal (x : Tree numbers) (h : (x.minimal 0).Climbs) :
    parseExpression numbers (x.minimal 0).tokens = .ok (x.expression, []) := by
  have hparses := (Tree.reads _ 0 (x.tight_minimal 0 h)).parses
    (show Follows 0 [] from trivial) trivial (Nat.lt_succ_self _)
  rw [List.append_nil, Tree.expression_minimal] at hparses
  exact hparses

end ToyDB.Sql.Parser
