import ToyDB.Sql.Parser.Climbing

/-!
# What has been read

Whatever the parser accepts is written in the tokens that it took, and an expression is
written in one way only up to its parentheses: so a printed expression is read back only if
the parser can climb it.
-/
namespace ToyDB.Sql.Parser
variable {numbers : Numbers}

/-! ## Soundness -/

/-- The expression written in the tokens before the rest. -/
def Written (numbers : Numbers) (p : Tree numbers → Prop) (expression : Ast.Expression)
    (tokens rest : List Token) : Prop :=
  ∃ x : Tree numbers, p x ∧ x.Climbs ∧ x.expression = expression ∧ tokens = x.tokens ++ rest

/-- Postfix operators on an expression. -/
theorem written_after {min : Precedence} (n : ℕ) : ∀ (x : Tree numbers) (tokens rest : List Token)
    (e : Ast.Expression), x.Climbs →
    parsePostfixOperators min n x.expression tokens = .ok (e, rest) →
    Written numbers (fun y => x.stage = .operand → y.stage = .operand) e (x.tokens ++ tokens)
      rest := by
  induction n with
  | zero =>
      intro x tokens rest e hx h
      cases h
      exact ⟨x, id, hx, rfl, rfl⟩
  | succ n ih =>
      intro x tokens rest e hx h
      obtain ⟨found, hop, h⟩ := bind_eq_ok.mp h
      cases found with
      | none =>
          cases h
          exact ⟨x, id, hx, rfl, rfl⟩
      | some found =>
          obtain ⟨op, tokens'⟩ := found
          obtain ⟨suffix, rfl, rfl⟩ := suffix_of_parsePostfix hop
          have hafter : (Tree.after suffix x).Climbs := by
            rw [Tree.Climbs]
            exact hx
          obtain ⟨y, hstage, hy, he, htokens⟩ := ih (.after suffix x) tokens' rest e hafter
            (by rw [Tree.expression]; exact h)
          refine ⟨y, fun hoperand => hstage ?_, hy, he, ?_⟩
          · rw [Tree.stage, if_pos hoperand]
          · rw [← htokens, Tree.tokens, List.append_assoc]

theorem infix_of_parseInfix {min : Precedence} {tokens rest : List Token} {op : InfixOperator}
    (h : parseInfixOperatorAt min tokens = some (op, rest)) :
    ∃ token : InfixToken, token.operator = op ∧ tokens = token.token :: rest := by
  cases tokens with
  | nil => cases h
  | cons token tokens =>
      unfold parseInfixOperatorAt at h
      dsimp only at h
      split at h
      · rename_i op' hop
        split_ifs at h
        · cases h
          exact ⟨⟨token, op, hop⟩, rfl, rfl⟩
      · cases h

theorem prefix_of_parsePrefix {min : Precedence} {tokens rest : List Token} {op : PrefixOperator}
    (h : parsePrefixOperatorAt min tokens = some (op, rest)) : tokens = op.token :: rest := by
  cases tokens with
  | nil => cases h
  | cons token tokens =>
      unfold parsePrefixOperatorAt at h
      dsimp only at h
      split at h
      · rename_i op' hop
        split_ifs at h
        · cases h
          unfold PrefixOperator.ofToken at hop
          split at hop <;> cases hop <;> rfl
      · cases h

/-- What each part of the parser has read after at most this many nested calls. -/
structure Sound (numbers : Numbers) (calls : ℕ) : Prop where
  expression {min : Precedence} {tokens rest : List Token} {e : Ast.Expression}
    (h : parseExpressionAt numbers calls min tokens = .ok (e, rest)) :
    Written numbers (fun _ => True) e tokens rest
  infixes {min : Precedence} {tokens rest : List Token} {e : Ast.Expression} {x : Tree numbers}
    (hx : x.Climbs) (hstage : x.stage ≠ .tested)
    (h : parseInfixOperators numbers calls min x.expression tokens = .ok (e, rest)) :
    Written numbers (fun y => y.stage ≠ .tested) e (x.tokens ++ tokens) rest
  atom {tokens rest : List Token} {e : Ast.Expression}
    (h : parseExpressionAtom numbers calls tokens = .ok (e, rest)) :
    Written numbers (fun x => x.stage = .operand) e tokens rest
  arguments {first : Bool} {tokens rest : List Token} {args : Ast.Arguments}
    (h : parseArguments numbers calls first tokens = .ok (args, rest)) :
    ∃ xs : Trees numbers, xs.Climb ∧ xs.expressions = args ∧
      tokens = xs.tokens first ++ .closeParen :: rest

theorem expect_ok {token : Token} {tokens rest : List Token} (h : expect token tokens = .ok rest) :
    tokens = token :: rest := by
  obtain ⟨⟨found, tokens'⟩, hnext, h⟩ := bind_eq_ok.mp h
  dsimp only at h
  split_ifs at h with hfound
  · cases h
    rw [next_ok hnext, hfound]
  · cases h

section
variable {calls : ℕ} {min : Precedence} {tokens rest : List Token} {e : Ast.Expression}

/-- An operand that has been read, followed by operators. -/
theorem Sound.operators (sound : Sound numbers calls) {x : Tree numbers} (hx : x.Climbs)
    (hstage : x.stage = .operand)
    (h : resume numbers calls min .operand x.expression tokens = .ok (e, rest)) :
    Written numbers (fun _ => True) e (x.tokens ++ tokens) rest := by
  obtain ⟨⟨e₁, tokens₁⟩, hafter, h⟩ := bind_eq_ok.mp h
  obtain ⟨y, hy, hyc, rfl, hytokens⟩ := written_after _ x tokens tokens₁ e₁ hx hafter
  obtain ⟨⟨e₂, tokens₂⟩, hinf, h⟩ := bind_eq_ok.mp h
  obtain ⟨z, hz, hzc, rfl, hztokens⟩ := sound.infixes hyc (by rw [hy hstage]; decide) hinf
  obtain ⟨w, -, hwc, rfl, hwtokens⟩ := written_after _ z tokens₂ rest e hzc h
  exact ⟨w, trivial, hwc, rfl, by rw [hytokens, hztokens, hwtokens]⟩

theorem Sound.expression_succ (sound : Sound numbers calls)
    (h : parseExpressionAt numbers (calls + 1) min tokens = .ok (e, rest)) :
    Written numbers (fun _ => True) e tokens rest := by
  rw [parseExpressionAt] at h
  obtain ⟨⟨lhs, tokens₁⟩, hlhs, hrest⟩ := bind_eq_ok.mp h
  clear h
  change resume numbers calls min .operand lhs tokens₁ = .ok (e, rest) at hrest
  cases hpre : parsePrefixOperatorAt min tokens with
  | none =>
      rw [hpre] at hlhs
      obtain ⟨x, hstage, hx, rfl, rfl⟩ := sound.atom hlhs
      exact sound.operators hx hstage hrest
  | some found =>
      obtain ⟨op, tokens'⟩ := found
      rw [hpre] at hlhs
      obtain ⟨⟨rhs, tokens''⟩, hrhs, hlhs⟩ := bind_eq_ok.mp hlhs
      cases hlhs
      obtain ⟨x, -, hx, rfl, rfl⟩ := sound.expression hrhs
      have hbefore : (Tree.before op x).Climbs := by
        rw [Tree.Climbs]
        exact hx
      obtain ⟨y, -, hy, he, htokens⟩ := sound.operators hbefore rfl
        (by rw [Tree.expression]; exact hrest)
      refine ⟨y, trivial, hy, he, ?_⟩
      rw [← htokens, prefix_of_parsePrefix hpre, Tree.tokens, List.cons_append]

theorem Sound.infixes_succ (sound : Sound numbers calls) {x : Tree numbers} (hx : x.Climbs)
    (hstage : x.stage ≠ .tested)
    (h : parseInfixOperators numbers (calls + 1) min x.expression tokens = .ok (e, rest)) :
    Written numbers (fun y => y.stage ≠ .tested) e (x.tokens ++ tokens) rest := by
  rw [parseInfixOperators] at h
  cases hinf : parseInfixOperatorAt min tokens with
  | none =>
      rw [hinf] at h
      cases h
      exact ⟨x, hstage, hx, rfl, rfl⟩
  | some found =>
      obtain ⟨op, tokens'⟩ := found
      rw [hinf] at h
      obtain ⟨token, rfl, rfl⟩ := infix_of_parseInfix hinf
      obtain ⟨⟨rhs, tokens''⟩, hrhs, hrest⟩ := bind_eq_ok.mp h
      clear h
      obtain ⟨r, -, hr, rfl, rfl⟩ := sound.expression hrhs
      have hbetween : (Tree.between token x r).Climbs := by
        rw [Tree.Climbs]
        exact ⟨hx, hr, hstage⟩
      obtain ⟨y, hy, hyc, he, htokens⟩ := sound.infixes hbetween (by rw [Tree.stage]; decide)
        (by rw [Tree.expression]; exact hrest)
      refine ⟨y, hy, hyc, he, ?_⟩
      rw [← htokens, Tree.tokens, List.append_assoc, List.cons_append]

theorem Sound.atom_succ (sound : Sound numbers calls)
    (h : parseExpressionAtom numbers (calls + 1) tokens = .ok (e, rest)) :
    Written numbers (fun x => x.stage = .operand) e tokens rest := by
  rw [parseExpressionAtom] at h
  obtain ⟨⟨token, tokens₁⟩, hnext, h'⟩ := bind_eq_ok.mp h
  clear h
  obtain rfl := next_ok hnext
  split at h'
  · rename_i name tokens' heq
    obtain ⟨rfl, rfl⟩ := Prod.mk.inj heq
    obtain ⟨⟨args, tokens''⟩, hargs, h''⟩ := bind_eq_ok.mp h'
    cases h''
    obtain ⟨xs, hxs, rfl, rfl⟩ := sound.arguments hargs
    refine ⟨.call name xs, rfl, ?_, by rw [Tree.expression], ?_⟩
    · rw [Tree.Climbs]
      exact hxs
    · rw [Tree.tokens, List.cons_append, List.cons_append, List.append_assoc]
      rfl
  · rename_i table tokens' heq
    obtain ⟨rfl, rfl⟩ := Prod.mk.inj heq
    obtain ⟨⟨name, tokens''⟩, hname, h''⟩ := bind_eq_ok.mp h'
    cases h''
    obtain ⟨⟨token, tokens₂⟩, hnext', hname⟩ := bind_eq_ok.mp hname
    split at hname
    · rename_i name' tokens₃ heq'
      obtain ⟨rfl, rfl⟩ := Prod.mk.inj heq'
      cases hname
      refine ⟨.column (some table) name, rfl, ?_, by rw [Tree.expression]; rfl, ?_⟩
      · rw [Tree.Climbs]
        trivial
      · rw [Tree.tokens, next_ok hnext']
        rfl
    · cases hname
  · rename_i name tokens' _ _ heq
    obtain ⟨rfl, rfl⟩ := Prod.mk.inj heq
    cases h'
    refine ⟨.column none name, rfl, ?_, by rw [Tree.expression]; rfl, by rw [Tree.tokens]; rfl⟩
    rw [Tree.Climbs]
    trivial
  · rename_i tokens' heq
    obtain ⟨rfl, rfl⟩ := Prod.mk.inj heq
    obtain ⟨⟨expr, tokens''⟩, hexpr, h''⟩ := bind_eq_ok.mp h'
    obtain ⟨tokens₃, hclose, h'''⟩ := bind_eq_ok.mp h''
    cases h'''
    obtain ⟨x, -, hx, rfl, rfl⟩ := sound.expression hexpr
    refine ⟨.paren x, rfl, ?_, by rw [Tree.expression], ?_⟩
    · rw [Tree.Climbs]
      exact hx
    · rw [Tree.tokens, expect_ok hclose, List.cons_append, List.append_assoc]
      rfl
  · rename_i token' tokens' _ _ _ _ heq
    obtain ⟨rfl, rfl⟩ := Prod.mk.inj heq
    obtain ⟨expr, hexpr, h''⟩ := bind_eq_ok.mp h'
    cases h''
    refine ⟨.atom ⟨token, e, hexpr⟩, rfl, ?_, by rw [Tree.expression], by rw [Tree.tokens]; rfl⟩
    rw [Tree.Climbs]
    trivial

theorem Sound.arguments_succ (sound : Sound numbers calls) {first : Bool} {args : Ast.Arguments}
    (h : parseArguments numbers (calls + 1) first tokens = .ok (args, rest)) :
    ∃ xs : Trees numbers, xs.Climb ∧ xs.expressions = args ∧
      tokens = xs.tokens first ++ .closeParen :: rest := by
  rw [parseArguments.eq_def] at h
  dsimp only at h
  split at h
  · cases h
    exact ⟨.nil, by rw [Trees.Climb]; trivial, by rw [Trees.expressions], by rw [Trees.tokens]; rfl⟩
  · obtain ⟨tokens₁, hcomma, h⟩ := bind_eq_ok.mp h
    obtain ⟨⟨arg, tokens₂⟩, harg, h⟩ := bind_eq_ok.mp h
    obtain ⟨⟨args', tokens₃⟩, hargs, h⟩ := bind_eq_ok.mp h
    cases h
    obtain ⟨x, -, hx, rfl, rfl⟩ := sound.expression harg
    obtain ⟨xs, hxs, rfl, rfl⟩ := sound.arguments hargs
    refine ⟨.cons x xs, ?_, by rw [Trees.expressions], ?_⟩
    · rw [Trees.Climb]
      exact ⟨hx, hxs⟩
    · rw [Trees.tokens, List.append_assoc, List.append_assoc]
      cases first with
      | true =>
          cases hcomma
          rfl
      | false =>
          rw [expect_ok hcomma]
          rfl

end

theorem sound (numbers : Numbers) (calls : ℕ) : Sound numbers calls := by
  induction calls with
  | zero =>
      refine ⟨fun h => ?_, fun _ _ h => ?_, fun h => ?_, fun h => ?_⟩
      · cases h
      · cases h
      · cases h
      · cases h
  | succ calls ih =>
      exact ⟨ih.expression_succ, ih.infixes_succ, ih.atom_succ, ih.arguments_succ⟩

/-! ## Parentheses -/

def Token.isParen : Token → Bool
  | .openParen | .closeParen => true
  | _ => false

/-- The number of tokens other than parentheses. -/
def weight (tokens : List Token) : ℕ := tokens.countP fun token => !Token.isParen token

/-- The open parentheses less the closed ones. -/
def depth : List Token → ℤ
  | [] => 0
  | .openParen :: tokens => 1 + depth tokens
  | .closeParen :: tokens => -1 + depth tokens
  | _ :: tokens => depth tokens

theorem depth_append (tokens tokens' : List Token) :
    depth (tokens ++ tokens') = depth tokens + depth tokens' := by
  induction tokens with
  | nil => simp [depth]
  | cons token tokens ih =>
      rw [List.cons_append]
      cases token <;> simp only [depth, ih] <;> omega

/-- Parentheses are closed after they are opened. -/
structure Balanced (tokens : List Token) : Prop where
  total : depth tokens = 0
  before (p q : List Token) (h : tokens = p ++ q) : 0 ≤ depth p

namespace Balanced
variable {tokens tokens' : List Token}

theorem nil : Balanced [] where
  total := rfl
  before p q h := by
    obtain ⟨rfl, -⟩ := List.append_eq_nil_iff.mp h.symm
    exact Int.le_refl 0

theorem cons {token : Token} (h : Token.isParen token = false) (ht : Balanced tokens) :
    Balanced (token :: tokens) where
  total := by cases token <;> first | exact ht.total | cases h
  before p q hpq := by
    cases p with
    | nil => exact Int.le_refl 0
    | cons t p =>
        obtain ⟨rfl, htail⟩ := List.cons.inj hpq
        have hp := ht.before p q htail
        cases token <;> first | exact hp | cases h

theorem append (h : Balanced tokens) (h' : Balanced tokens') : Balanced (tokens ++ tokens') where
  total := by rw [depth_append, h.total, h'.total]; rfl
  before p q hpq := by
    obtain ⟨m, rfl, hm⟩ | ⟨m, hm, -⟩ := List.append_eq_append_iff.mp hpq
    · rw [depth_append, h.total]
      have hmid := h'.before m q hm
      omega
    · exact h.before p m hm

theorem paren (h : Balanced tokens) : Balanced (.openParen :: (tokens ++ [.closeParen])) where
  total := by
    change 1 + depth (tokens ++ [.closeParen]) = 0
    rw [depth_append, h.total]
    rfl
  before p q hpq := by
    cases p with
    | nil => exact Int.le_refl 0
    | cons t p =>
        obtain ⟨rfl, htail⟩ := List.cons.inj hpq
        change 0 ≤ 1 + depth p
        obtain ⟨m, rfl, hm⟩ | ⟨m, hm, -⟩ := List.append_eq_append_iff.mp htail
        · rw [depth_append, h.total]
          cases m with
          | nil => simp [depth]
          | cons t m =>
              obtain ⟨rfl, hend⟩ := List.cons.inj hm
              obtain ⟨rfl, -⟩ := List.append_eq_nil_iff.mp hend.symm
              simp [depth]
        · have hp := h.before p m hm
          omega

/-- The outer parentheses are closed at the end only. -/
theorem paren_ne {a b : List Token} {token : Token} (h : Balanced tokens) (ha : Balanced a)
    (hne : a ≠ []) : .openParen :: (tokens ++ [.closeParen]) ≠ a ++ token :: b := by
  intro heq
  cases a with
  | nil => exact hne rfl
  | cons t a =>
      obtain ⟨rfl, htail⟩ := List.cons.inj heq
      have htotal : 1 + depth a = 0 := ha.total
      obtain ⟨m, rfl, hm⟩ | ⟨m, hm, -⟩ := List.append_eq_append_iff.mp htail
      · -- the closing parenthesis would have to stand behind what follows it
        have hlength := congrArg List.length hm
        have hm0 : m = [] := by
          cases m with
          | nil => rfl
          | cons t' m => simp at hlength
        subst hm0
        rw [List.append_nil] at htotal
        have hdepth := h.total
        omega
      · have hp := h.before a m hm
        omega

end Balanced

/-! ## Expressions determine their text -/

theorem Atom.isParen_token (a : Atom numbers) : Token.isParen a.token = false := by
  obtain ⟨token, expression, hreads⟩ := a
  cases token <;> first | rfl | cases hreads

theorem InfixToken.isParen_token (op : InfixToken) : Token.isParen op.token = false := by
  obtain ⟨token, operator, hreads⟩ := op
  cases token <;> first | rfl | cases hreads

theorem PrefixOperator.isParen_token (op : PrefixOperator) : Token.isParen op.token = false := by
  cases op <;> rfl

theorem IsToken.isParen_token (value : IsToken) : Token.isParen value.token = false := by
  obtain ⟨token, literal, hreads⟩ := value
  cases token <;> first | rfl | cases hreads

theorem Suffix.balanced (op : Suffix) : Balanced op.tokens := by
  cases op with
  | factorial => exact Balanced.nil.cons rfl
  | is value => exact (Balanced.nil.cons value.isParen_token).cons rfl
  | isNot value => exact ((Balanced.nil.cons value.isParen_token).cons rfl).cons rfl

mutual

theorem Tree.balanced : ∀ x : Tree numbers, Balanced x.tokens
  | .atom a => by rw [Tree.tokens]; exact Balanced.nil.cons a.isParen_token
  | .column none name => by rw [Tree.tokens]; exact Balanced.nil.cons rfl
  | .column (some table) name => by
      rw [Tree.tokens]
      exact ((Balanced.nil.cons rfl).cons rfl).cons rfl
  | .call name args => by rw [Tree.tokens]; exact (args.balanced true).paren.cons rfl
  | .paren x => by rw [Tree.tokens]; exact x.balanced.paren
  | .before op x => by rw [Tree.tokens]; exact x.balanced.cons (PrefixOperator.isParen_token op)
  | .between op l r => by
      rw [Tree.tokens]
      exact l.balanced.append (r.balanced.cons op.isParen_token)
  | .after op x => by rw [Tree.tokens]; exact x.balanced.append op.balanced

theorem Trees.balanced : ∀ (xs : Trees numbers) (first : Bool), Balanced (xs.tokens first)
  | .nil, _ => by rw [Trees.tokens]; exact .nil
  | .cons x xs, first => by
      rw [Trees.tokens]
      refine Balanced.append ?_ (x.balanced.append (xs.balanced false))
      cases first with
      | true => exact .nil
      | false => exact Balanced.nil.cons rfl

end

mutual

/-- The number of tokens of an expression other than parentheses. -/
def symbols : Ast.Expression → ℕ
  | .all => 1
  | .column none _ => 1
  | .column (some _) _ => 3
  | .literal _ => 1
  | .function _ args => 1 + symbolsOf true args
  | .binary _ lhs rhs => symbols lhs + symbols rhs + 1
  | .unary _ expr => symbols expr + 1
  | .is expr _ => symbols expr + 2

def symbolsOf : Bool → Ast.Arguments → ℕ
  | _, .nil => 0
  | first, .cons arg args => (if first then 0 else 1) + (symbols arg + symbolsOf false args)

end

theorem Atom.expression_cases (a : Atom numbers) :
    a.expression = .all ∨ ∃ value, a.expression = .literal value := by
  obtain ⟨token, expression, hreads⟩ := a
  cases token <;> try cases hreads
  case number text =>
    unfold atomExpression at hreads
    dsimp only at hreads
    split_ifs at hreads
    · cases hi : parseInteger text with
      | error e =>
          rw [hi] at hreads
          cases hreads
      | ok i =>
          rw [hi] at hreads
          cases hreads
          exact .inr ⟨_, rfl⟩
    · split at hreads <;> cases hreads
      exact .inr ⟨_, rfl⟩
  case string => exact .inr ⟨_, rfl⟩
  case keyword k => cases k <;> cases hreads <;> exact .inr ⟨_, rfl⟩
  case asterisk => exact .inl rfl

theorem weight_append (tokens tokens' : List Token) :
    weight (tokens ++ tokens') = weight tokens + weight tokens' := List.countP_append

theorem weight_cons {token : Token} (h : Token.isParen token = false) (tokens : List Token) :
    weight (token :: tokens) = weight tokens + 1 := by
  unfold weight
  rw [List.countP_cons_of_pos (by simp [h])]

theorem weight_paren (tokens : List Token) :
    weight (.openParen :: (tokens ++ [.closeParen])) = weight tokens := by
  simp [weight, Token.isParen]

mutual

/-- Parentheses apart, the number of tokens is that of the expression. -/
theorem Tree.weight_tokens : ∀ x : Tree numbers, weight x.tokens = symbols x.expression
  | .atom a => by
      rw [Tree.tokens, Tree.expression, weight_cons a.isParen_token]
      obtain h | ⟨value, h⟩ := a.expression_cases <;> rw [h] <;> rfl
  | .column none name => rfl
  | .column (some table) name => rfl
  | .call name args => by
      rw [Tree.tokens, Tree.expression, weight_cons rfl, weight_paren, symbols,
        Trees.weight_tokens args true, Nat.add_comm]
  | .paren x => by rw [Tree.tokens, Tree.expression, weight_paren, Tree.weight_tokens x]
  | .before op x => by
      rw [Tree.tokens, Tree.expression, weight_cons (PrefixOperator.isParen_token op),
        Tree.weight_tokens x]
      cases op <;> rfl
  | .between op l r => by
      rw [Tree.tokens, Tree.expression, weight_append, weight_cons op.isParen_token,
        Tree.weight_tokens l, Tree.weight_tokens r]
      rfl
  | .after op x => by
      rw [Tree.tokens, Tree.expression, weight_append, Tree.weight_tokens x]
      cases op with
      | factorial => rfl
      | is value =>
          rw [Suffix.tokens, weight_cons rfl, weight_cons value.isParen_token]
          rfl
      | isNot value =>
          rw [Suffix.tokens, weight_cons rfl, weight_cons rfl, weight_cons value.isParen_token]
          rfl

theorem Trees.weight_tokens : ∀ (xs : Trees numbers) (first : Bool),
    weight (xs.tokens first) = symbolsOf first xs.expressions
  | .nil, _ => by rw [Trees.tokens, Trees.expressions]; rfl
  | .cons x xs, first => by
      rw [Trees.tokens, Trees.expressions, weight_append, weight_append, Tree.weight_tokens x,
        Trees.weight_tokens xs false, symbolsOf]
      cases first <;> rfl

end

/-- No parenthesis stands in front. -/
def Open : List Token → Prop
  | [] => True
  | token :: _ => Token.isParen token = false

/-- Two texts of one expression that stand before something else are the same. -/
theorem tokens_append_inj {x x' : Tree numbers} (he : x.expression = x'.expression)
    {rest rest' : List Token} (hrest : Open rest) (hrest' : Open rest')
    (h : x.tokens ++ rest = x'.tokens ++ rest') : x.tokens = x'.tokens ∧ rest = rest' := by
  have hweight : weight x.tokens = weight x'.tokens := by
    rw [x.weight_tokens, x'.weight_tokens, he]
  have hnil : ∀ m r : List Token, weight m = 0 → Open (m ++ r) → m = [] := by
    intro m r hm hopen
    cases m with
    | nil => rfl
    | cons token m =>
        have hparen : Token.isParen token = false := hopen
        rw [weight_cons hparen] at hm
        omega
  obtain ⟨m, hm, rfl⟩ | ⟨m, hm, rfl⟩ := List.append_eq_append_iff.mp h
  · have hm0 : weight m = 0 := by
      rw [hm, weight_append] at hweight
      omega
    obtain rfl := hnil m rest' hm0 hrest
    exact ⟨by rw [hm, List.append_nil], rfl⟩
  · have hm0 : weight m = 0 := by
      rw [hm, weight_append] at hweight
      omega
    obtain rfl := hnil m rest hm0 hrest'
    exact ⟨by rw [hm, List.append_nil], rfl⟩

/-- A text in parentheses is no operator on an expression. -/
theorem Tree.paren_ne (x y : Tree numbers) (token : Token) (rest : List Token) :
    (Tree.paren x).tokens ≠ y.tokens ++ token :: rest := by
  rw [Tree.tokens]
  refine x.balanced.paren_ne y.balanced ?_
  have hlinks := y.links_lt
  exact List.length_pos_iff.mp (by omega)

theorem Suffix.tokens_cons (op : Suffix) : ∃ token rest, op.tokens = token :: rest ∧
    Token.isParen token = false := by
  cases op <;> exact ⟨_, _, rfl, rfl⟩

theorem InfixToken.open (op : InfixToken) (rest : List Token) : Open (op.token :: rest) :=
  op.isParen_token

theorem Trees.open (xs : Trees numbers) : Open (xs.tokens false) := by
  cases xs <;> trivial

/-- NOT before an expression that ends in IS is not IS NOT. -/
theorem before_ne_isNot {x y : Tree numbers} {op : PrefixOperator} {value : IsToken}
    {literal : Ast.Literal} (hx : x.expression = .is y.expression literal) :
    (Tree.before op x).tokens ≠ (Tree.after (.isNot value) y).tokens := by
  intro h
  rw [Tree.tokens, Tree.tokens] at h
  match x with
  | .atom a =>
      rw [Tree.expression] at hx
      obtain ha | ⟨v, ha⟩ := a.expression_cases <;> rw [ha] at hx <;> cases hx
  | .column table name => cases hx
  | .call name args => cases hx
  | .paren z =>
      rw [Tree.tokens] at h
      have hlast := congrArg List.getLast? h
      simp only [Suffix.tokens, ← List.cons_append, List.getLast?_append, List.getLast?_singleton,
        List.getLast?_cons_cons, Option.some_or, Option.some.injEq] at hlast
      have hparen := value.isParen_token
      rw [← hlast] at hparen
      cases hparen
  | .before op' z => cases op' <;> cases hx
  | .between op' l r => cases hx
  | .after op' z =>
      cases op' with
      | factorial => cases hx
      | isNot value' => cases hx
      | is value' =>
          -- the last token but one is IS on one side and NOT on the other
          rw [Tree.tokens] at h
          have hreverse := congrArg List.reverse h
          simp [Suffix.tokens] at hreverse

/-- An expression with an operator at its top. -/
def isOperation : Ast.Expression → Bool
  | .binary _ _ _ | .unary _ _ | .is _ _ => true
  | _ => false

theorem Atom.not_isOperation (a : Atom numbers) : isOperation a.expression = false := by
  obtain h | ⟨value, h⟩ := a.expression_cases <;> rw [h] <;> rfl

theorem Suffix.isOperation (op : Suffix) (e : Ast.Expression) :
    isOperation (op.operator.intoExpression e) = true := by
  cases op <;> rfl

theorem PrefixOperator.isOperation (op : PrefixOperator) (e : Ast.Expression) :
    isOperation (op.intoExpression e) = true := by
  cases op <;> rfl

theorem Tree.stage_of_not_isOperation (x : Tree numbers) (h : isOperation x.expression = false) :
    x.stage = .operand := by
  cases x with
  | between op l r => cases h
  | after op x =>
      rw [Tree.expression, op.isOperation] at h
      cases h
  | _ => rfl

/-- The same operator has been applied to the same expression. -/
theorem Suffix.expression_inj {op op' : Suffix} {e e' : Ast.Expression}
    (h : op.operator.intoExpression e = op'.operator.intoExpression e') :
    e = e' ∧ op.tokens.length = op'.tokens.length := by
  cases op with
  | factorial =>
      cases op' <;> cases h
      exact ⟨rfl, rfl⟩
  | is value =>
      cases op' with
      | factorial => cases h
      | is value' => exact ⟨(Ast.Expression.is.inj h).1, rfl⟩
      | isNot value' => cases h
  | isNot value =>
      cases op' with
      | factorial => cases h
      | is value' => cases h
      | isNot value' =>
          exact ⟨(Ast.Expression.is.inj (Ast.Expression.unary.inj h).2).1, rfl⟩

theorem PrefixOperator.expression_inj {op op' : PrefixOperator} {e e' : Ast.Expression}
    (h : op.intoExpression e = op'.intoExpression e') : e = e' := by
  cases op <;> cases op' <;> cases h <;> rfl

/-- A prefix operator makes the expression of a postfix one only as NOT and IS NOT. -/
theorem before_after {op : PrefixOperator} {op' : Suffix} {e e' : Ast.Expression}
    (h : op.intoExpression e = op'.operator.intoExpression e') :
    ∃ value, op' = .isNot value ∧ e = .is e' value.value := by
  cases op <;> cases op' <;> cases h
  exact ⟨_, rfl, rfl⟩

mutual

/-- A text of an expression that the parser has read is one that it can climb. -/
theorem Tree.climbs_of_tokens : ∀ x x' : Tree numbers, x'.Climbs →
    x.expression = x'.expression → x.tokens = x'.tokens → x.Climbs ∧ x.stage = x'.stage
  | .atom a, x', _, he, _ => by
      rw [Tree.expression] at he
      rw [Tree.Climbs, x'.stage_of_not_isOperation (he ▸ a.not_isOperation)]
      exact ⟨trivial, rfl⟩
  | .column table name, x', _, he, _ => by
      rw [Tree.expression] at he
      rw [Tree.Climbs, x'.stage_of_not_isOperation (he ▸ rfl)]
      exact ⟨trivial, rfl⟩
  | .call name args, x', h, he, ht => by
      rw [Tree.expression] at he
      rw [x'.stage_of_not_isOperation (he ▸ rfl), Tree.Climbs]
      refine ⟨?_, rfl⟩
      match x' with
      | .call name' args' =>
          rw [Tree.expression] at he
          rw [Tree.Climbs] at h
          rw [Tree.tokens, Tree.tokens] at ht
          have htokens := List.append_cancel_right (List.cons.inj (List.cons.inj ht).2).2
          exact Trees.climb_of_tokens args args' true h (Ast.Expression.function.inj he).2 htokens
      | .paren y =>
          rw [Tree.tokens, Tree.tokens] at ht
          cases (List.cons.inj ht).1
      | .atom a =>
          rw [Tree.expression] at he
          obtain ha | ⟨v, ha⟩ := a.expression_cases <;> rw [ha] at he <;> cases he
      | .column table name' => cases he
      | .before op y => cases op <;> cases he
      | .between op l r => cases he
      | .after op y => cases op <;> cases he
  | .paren x, x', h, he, ht => by
      rw [Tree.Climbs]
      match x' with
      | .paren y =>
          rw [Tree.expression, Tree.expression] at he
          rw [Tree.Climbs] at h
          rw [Tree.tokens, Tree.tokens] at ht
          have htokens := List.append_cancel_right (List.cons.inj ht).2
          exact ⟨(Tree.climbs_of_tokens x y h he htokens).1, rfl⟩
      | .atom a =>
          rw [Tree.tokens, Tree.tokens] at ht
          have hparen := a.isParen_token
          rw [← (List.cons.inj ht).1] at hparen
          cases hparen
      | .column none name =>
          rw [Tree.tokens, Tree.tokens] at ht
          cases (List.cons.inj ht).1
      | .column (some table) name =>
          rw [Tree.tokens, Tree.tokens] at ht
          cases (List.cons.inj ht).1
      | .call name args =>
          rw [Tree.tokens, Tree.tokens] at ht
          cases (List.cons.inj ht).1
      | .before op y =>
          rw [Tree.tokens, Tree.tokens] at ht
          have hparen := PrefixOperator.isParen_token op
          rw [← (List.cons.inj ht).1] at hparen
          cases hparen
      | .between op l r =>
          refine absurd (ht.trans ?_) (x.paren_ne l op.token r.tokens)
          rw [Tree.tokens]
      | .after op y =>
          obtain ⟨token, rest, hop, -⟩ := op.tokens_cons
          refine absurd (ht.trans ?_) (x.paren_ne y token rest)
          rw [Tree.tokens, hop]
  | .before op x, x', h, he, ht => by
      rw [Tree.Climbs]
      match x' with
      | .before op' y =>
          rw [Tree.expression, Tree.expression] at he
          rw [Tree.Climbs] at h
          rw [Tree.tokens, Tree.tokens] at ht
          exact ⟨(Tree.climbs_of_tokens x y h (PrefixOperator.expression_inj he)
            (List.cons.inj ht).2).1, rfl⟩
      | .after op' y =>
          rw [Tree.expression, Tree.expression] at he
          obtain ⟨value, rfl, hx⟩ := before_after he
          exact absurd ht (before_ne_isNot hx)
      | .paren y =>
          rw [Tree.tokens, Tree.tokens] at ht
          have hparen := PrefixOperator.isParen_token op
          rw [(List.cons.inj ht).1] at hparen
          cases hparen
      | .atom a =>
          rw [Tree.expression, Tree.expression] at he
          have hoperation := PrefixOperator.isOperation op x.expression
          rw [he, a.not_isOperation] at hoperation
          cases hoperation
      | .column table name => cases op <;> cases he
      | .call name args => cases op <;> cases he
      | .between op' l r => cases op <;> cases he
  | .between op l r, x', h, he, ht => by
      rw [Tree.Climbs]
      match x' with
      | .between op' l' r' =>
          rw [Tree.expression, Tree.expression] at he
          obtain ⟨-, hl, hr⟩ := Ast.Expression.binary.inj he
          rw [Tree.Climbs] at h
          rw [Tree.tokens, Tree.tokens] at ht
          obtain ⟨htl, htr⟩ := tokens_append_inj hl (op.open r.tokens) (op'.open r'.tokens) ht
          obtain ⟨hlc, hstage⟩ := Tree.climbs_of_tokens l l' h.1 hl htl
          have hrc := Tree.climbs_of_tokens r r' h.2.1 hr (List.cons.inj htr).2
          exact ⟨⟨hlc, hrc.1, hstage ▸ h.2.2⟩, rfl⟩
      | .paren y =>
          refine absurd (ht.symm.trans ?_) (y.paren_ne l op.token r.tokens)
          rw [Tree.tokens]
      | .atom a =>
          rw [Tree.expression, Tree.expression] at he
          have hoperation := a.not_isOperation
          rw [← he] at hoperation
          cases hoperation
      | .column table name => cases he
      | .call name args => cases he
      | .before op' y => cases op' <;> cases he
      | .after op' y => cases op' <;> cases he
  | .after op x, x', h, he, ht => by
      rw [Tree.Climbs]
      match x' with
      | .after op' y =>
          rw [Tree.expression, Tree.expression] at he
          obtain ⟨hx, hlength⟩ := Suffix.expression_inj he
          rw [Tree.Climbs] at h
          rw [Tree.tokens, Tree.tokens] at ht
          obtain ⟨htx, -⟩ := List.append_inj' ht hlength
          obtain ⟨hxc, hstage⟩ := Tree.climbs_of_tokens x y h hx htx
          refine ⟨hxc, ?_⟩
          rw [Tree.stage, Tree.stage, hstage]
      | .before op' y =>
          rw [Tree.expression, Tree.expression] at he
          obtain ⟨value, rfl, hy⟩ := before_after he.symm
          exact absurd ht.symm (before_ne_isNot hy)
      | .paren y =>
          obtain ⟨token, rest, hop, -⟩ := op.tokens_cons
          refine absurd (ht.symm.trans ?_) (y.paren_ne x token rest)
          rw [Tree.tokens, hop]
      | .atom a =>
          rw [Tree.expression, Tree.expression] at he
          have hoperation := a.not_isOperation
          rw [← he, op.isOperation] at hoperation
          cases hoperation
      | .column table name => cases op <;> cases he
      | .call name args => cases op <;> cases he
      | .between op' l r => cases op <;> cases he

theorem Trees.climb_of_tokens : ∀ (xs xs' : Trees numbers) (first : Bool), xs'.Climb →
    xs.expressions = xs'.expressions → xs.tokens first = xs'.tokens first → xs.Climb
  | .nil, _, _, _, _, _ => by rw [Trees.Climb]; trivial
  | .cons x xs, .nil, _, _, he, _ => by
      rw [Trees.expressions, Trees.expressions] at he
      cases he
  | .cons x xs, .cons x' xs', first, h, he, ht => by
      rw [Trees.Climb] at h
      rw [Trees.expressions, Trees.expressions] at he
      obtain ⟨hx, hxs⟩ := Ast.Arguments.cons.inj he
      rw [Trees.tokens, Trees.tokens] at ht
      obtain ⟨htx, htxs⟩ := tokens_append_inj hx xs.open xs'.open (List.append_cancel_left ht)
      rw [Trees.Climb]
      exact ⟨(Tree.climbs_of_tokens x x' h.1 hx htx).1, Trees.climb_of_tokens xs xs' false h.2 hxs htxs⟩

end

/-- A text that is read back as the expression that it prints can be climbed. -/
theorem climbs_of_parse {x : Tree numbers} {calls : ℕ} {min : Precedence}
    (h : parseExpressionAt numbers calls min x.tokens = .ok (x.expression, [])) : x.Climbs := by
  obtain ⟨x', -, hx', he, ht⟩ := (sound numbers calls).expression h
  rw [List.append_nil] at ht
  exact (x.climbs_of_tokens x' hx' he.symm ht).1

end ToyDB.Sql.Parser
