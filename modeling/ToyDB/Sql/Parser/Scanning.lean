import ToyDB.Sql.Parser.Lexer

/-!
# The text of tokens

Tokens written with a space behind each are scanned back.
-/
namespace ToyDB.Sql

/-- Quotes are doubled. -/
def escape (quote : Char) (text : List Char) : List Char :=
  text.flatMap fun c => if c = quote then [quote, quote] else [c]

def quoted (quote : Char) (text : List Char) : List Char := quote :: (escape quote text ++ [quote])

namespace Token

def text : Token → List Char
  | number text => text
  | string text => quoted Lexer.singleQuote text
  | ident text => quoted Lexer.doubleQuote text
  | keyword k => k.name.toList
  | token => token.symbol.toList

/-- A number is one that the lexer scans as a whole. -/
def Scannable : Token → Prop
  | number text => text.head?.any Char.isDigit = true ∧ Lexer.scanNumber text = (text, [])
  | _ => True

end Token

/-- The tokens with a space behind each. -/
def textOf (tokens : List Token) : List Char := tokens.flatMap fun token => token.text ++ [' ']

namespace Lexer
variable {unicode : Unicode}

theorem scanQuoted_escape {quote : Char} (h : quote ≠ ' ') (text rest : List Char) :
    scanQuoted quote (escape quote text ++ quote :: ' ' :: rest) = some (text, ' ' :: rest) := by
  induction text with
  | nil =>
      change scanQuoted quote (quote :: ' ' :: rest) = _
      unfold scanQuoted
      rw [if_pos rfl]
      exact if_neg (Ne.symm h)
  | cons c text ih =>
      unfold escape at ih ⊢
      rw [List.flatMap_cons]
      by_cases hc : c = quote
      · rw [if_pos hc, hc]
        change scanQuoted quote (quote :: quote :: (text.flatMap (fun c =>
          if c = quote then [quote, quote] else [c]) ++ quote :: ' ' :: rest)) = _
        conv_lhs => unfold scanQuoted
        rw [if_pos rfl]
        dsimp only
        rw [if_pos rfl, ih]
        rfl
      · rw [if_neg hc]
        change scanQuoted quote (c :: (text.flatMap (fun c =>
          if c = quote then [quote, quote] else [c]) ++ quote :: ' ' :: rest)) = _
        conv_lhs => unfold scanQuoted
        rw [if_neg hc, ih]
        rfl

/-- A space ends what is scanned. -/
theorem scanMany_space {p : Char → Bool} (h : p ' ' = false) (text rest : List Char) :
    scanMany p (text ++ ' ' :: rest) = ((scanMany p text).1, (scanMany p text).2 ++ ' ' :: rest) := by
  unfold scanMany
  induction text with
  | nil => simp [h]
  | cons c text ih =>
      rw [List.cons_append]
      cases hc : p c with
      | false => simp [hc]
      | true =>
          have ih' := Prod.mk.inj ih
          simp [hc, ih'.1, ih'.2]

theorem scanOne_space {p : Char → Bool} (h : p ' ' = false) (text rest : List Char) :
    scanOne p (text ++ ' ' :: rest) = ((scanOne p text).1, (scanOne p text).2 ++ ' ' :: rest) := by
  cases text with
  | nil => simp [scanOne, h]
  | cons c text =>
      unfold scanOne
      rw [List.cons_append]
      cases hc : p c <;> simp [hc]

theorem scanNumber_space (text rest : List Char) : scanNumber (text ++ ' ' :: rest) =
    ((scanNumber text).1, (scanNumber text).2 ++ ' ' :: rest) := by
  unfold scanNumber
  rw [scanMany_space (by decide)]
  dsimp only
  rw [scanOne_space (by decide)]
  dsimp only
  rw [scanMany_space (by simp)]
  dsimp only
  rw [scanOne_space (by decide)]
  dsimp only
  rw [scanOne_space (by simp)]
  dsimp only
  rw [scanMany_space (by simp)]

theorem name_lower (k : Keyword) : ∀ c ∈ k.name.toList, 97 ≤ c.toNat ∧ c.toNat ≤ 122 := by
  have h : (k.name.toList.all fun c => 97 ≤ c.toNat && c.toNat ≤ 122) = true := by cases k <;> rfl
  intro c hc
  simpa using List.all_eq_true.mp h c hc

theorem tryFrom_name (k : Keyword) : Keyword.tryFrom k.name.toList = some k := by
  cases k <;> rfl

/-- A lower-case letter is scanned as part of a name. -/
theorem lower_facts (unicode : Unicode) {c : Char} (h : 97 ≤ c.toNat ∧ c.toNat ≤ 122) :
    unicode.isAlphabetic c = true ∧ unicode.isAlphanumeric c = true ∧
      unicode.isWhitespace c = false ∧ unicode.toLowercase c = [c] ∧ c.isDigit = false ∧
      c ≠ singleQuote ∧ c ≠ doubleQuote := by
  have hascii : c.toNat < 128 := by omega
  rw [unicode.alphabetic_ascii c hascii, unicode.alphanumeric_ascii c hascii,
    unicode.whitespace_ascii c hascii, unicode.lowercase_ascii c hascii]
  obtain ⟨n, rfl⟩ : ∃ n : Fin 26, c = Char.ofNat (97 + n) := by
    refine ⟨⟨c.toNat - 97, by omega⟩, ?_⟩
    have hn : 97 + (c.toNat - 97) = c.toNat := by omega
    simp only [hn, Char.ofNat_toNat]
  revert n
  decide

/-- Scanning from a character that is no white space gives the token and what follows. -/
def Scans (unicode : Unicode) (token : Token) (text rest : List Char) : Prop :=
  ∃ c more, text = c :: more ∧ unicode.isWhitespace c = false ∧
    scanFrom unicode c more = .ok (token, rest)

/-- An ASCII character that is no white space. -/
theorem not_whitespace (unicode : Unicode) {c : Char} (h : 33 ≤ c.toNat) (h' : c.toNat < 128) :
    unicode.isWhitespace c = false := by
  rw [unicode.whitespace_ascii c h']
  have hne : c ≠ ' ' := by
    rintro rfl
    revert h
    decide
  simp only [hne, false_or, decide_eq_false_iff_not]
  omega

theorem scans_quoted (unicode : Unicode) (text rest : List Char) :
    Scans unicode (.string text) (quoted singleQuote text ++ ' ' :: rest) (' ' :: rest) ∧
      Scans unicode (.ident text) (quoted doubleQuote text ++ ' ' :: rest) (' ' :: rest) := by
  constructor
  · refine ⟨singleQuote, escape singleQuote text ++ singleQuote :: ' ' :: rest,
      by simp [quoted], not_whitespace unicode (by decide) (by decide), ?_⟩
    unfold scanFrom
    rw [if_pos rfl, scanQuoted_escape (by decide)]
  · refine ⟨doubleQuote, escape doubleQuote text ++ doubleQuote :: ' ' :: rest,
      by simp [quoted], not_whitespace unicode (by decide) (by decide), ?_⟩
    unfold scanFrom
    rw [if_neg (by decide), if_pos rfl, scanQuoted_escape (by decide)]

theorem scans_keyword (unicode : Unicode) (k : Keyword) (rest : List Char) :
    Scans unicode (.keyword k) (k.name.toList ++ ' ' :: rest) (' ' :: rest) := by
  have hlower := name_lower k
  have hname := tryFrom_name k
  generalize k.name.toList = name at hlower hname
  cases name with
  | nil => cases hname
  | cons c name =>
      obtain ⟨halpha, -, hspace, hc, hdigit, hsingle, hdouble⟩ :=
        lower_facts unicode (hlower c List.mem_cons_self)
      have hmore : ∀ d ∈ name, (unicode.isAlphanumeric d || d = '_') = true := fun d hd => by
        rw [(lower_facts unicode (hlower d (List.mem_cons_of_mem _ hd))).2.1]
        rfl
      have hstop : (unicode.isAlphanumeric ' ' || ' ' = '_') = false := by
        rw [unicode.alphanumeric_ascii _ (by decide)]
        decide
      have htake := @List.takeWhile_append_of_pos _ _ _ (' ' :: rest) hmore
      have hdrop := @List.dropWhile_append_of_pos _ _ _ (' ' :: rest) hmore
      simp only [List.takeWhile_cons, List.dropWhile_cons, hstop, Bool.false_eq_true, if_false,
        List.append_nil] at htake hdrop
      have hflat : (c :: name).flatMap unicode.toLowercase = c :: name := by
        have hid : ∀ d ∈ c :: name, unicode.toLowercase d = [d] := fun d hd =>
          (lower_facts unicode (hlower d hd)).2.2.2.1
        rw [List.flatMap_congr hid, List.flatMap_singleton']
      refine ⟨c, name ++ ' ' :: rest, rfl, hspace, ?_⟩
      unfold scanFrom scanIdentOrKeyword
      rw [if_neg hsingle, if_neg hdouble, if_neg (by simp [hdigit]), if_pos halpha]
      dsimp only
      rw [htake, hflat, hname, hdrop]

theorem scans_number (unicode : Unicode) {text : List Char} (h : (Token.number text).Scannable)
    (rest : List Char) : Scans unicode (.number text) (text ++ ' ' :: rest) (' ' :: rest) := by
  obtain ⟨hhead, hnumber⟩ := h
  cases text with
  | nil => cases hhead
  | cons c text =>
      have hdigit : c.isDigit = true := by simpa using hhead
      have hrange : 48 ≤ c.toNat ∧ c.toNat ≤ 57 := by
        simp only [Char.isDigit, ge_iff_le, Bool.and_eq_true, decide_eq_true_eq] at hdigit
        exact hdigit
      have hne : c ≠ singleQuote ∧ c ≠ doubleQuote := by
        constructor <;> rintro rfl <;> revert hdigit <;> decide
      refine ⟨c, text ++ ' ' :: rest, rfl,
        not_whitespace unicode (by omega) (by omega), ?_⟩
      unfold scanFrom
      rw [if_neg hne.1, if_neg hne.2, if_pos hdigit, ← List.cons_append, scanNumber_space, hnumber]
      rfl

/-- A symbol. -/
theorem scans_symbol (unicode : Unicode) {token : Token} {c : Char} {more rest : List Char}
    (htext : token.symbol.toList = c :: more) (hrange : 33 ≤ c.toNat ∧ c.toNat < 128)
    (hclass : c.isAlpha = false ∧ c.isDigit = false ∧ c ≠ singleQuote ∧ c ≠ doubleQuote)
    (hsymbol : scanSymbol (c :: (more ++ ' ' :: rest)) = some (token, ' ' :: rest)) :
    Scans unicode token (token.symbol.toList ++ ' ' :: rest) (' ' :: rest) := by
  refine ⟨c, more ++ ' ' :: rest, by rw [htext]; rfl,
    not_whitespace unicode hrange.1 hrange.2, ?_⟩
  unfold scanFrom
  rw [if_neg hclass.2.2.1, if_neg hclass.2.2.2, if_neg (by simp [hclass.2.1]),
    unicode.alphabetic_ascii c hrange.2, if_neg (by simp [hclass.1]), hsymbol]

/-- A token with a space behind it is scanned. -/
theorem scans_text (unicode : Unicode) {token : Token} (h : token.Scannable) (rest : List Char) :
    Scans unicode token (token.text ++ ' ' :: rest) (' ' :: rest) := by
  cases token
  case number text => exact scans_number unicode h rest
  case string text => exact (scans_quoted unicode text rest).1
  case ident text => exact (scans_quoted unicode text rest).2
  case keyword k => exact scans_keyword unicode k rest
  all_goals exact scans_symbol unicode rfl (by decide) (by decide) rfl

/-- The text of tokens is scanned back. -/
theorem tokensUpTo_textOf (unicode : Unicode) {tokens : List Token}
    (h : ∀ token ∈ tokens, token.Scannable) : ∀ n, tokens.length ≤ n →
    tokensUpTo unicode n (textOf tokens) = .ok tokens ∧
      tokensUpTo unicode n (' ' :: textOf tokens) = .ok tokens := by
  have hspace : unicode.isWhitespace ' ' = true := by
    rw [unicode.whitespace_ascii _ (by decide)]
    decide
  have hdrop : ∀ (n : ℕ) (text : List Char),
      tokensUpTo unicode (n + 1) (' ' :: text) = tokensUpTo unicode (n + 1) text := by
    intro n text
    rw [tokensUpTo, tokensUpTo, List.dropWhile_cons_of_pos hspace]
  induction tokens with
  | nil =>
      intro n _
      cases n with
      | zero => exact ⟨rfl, rfl⟩
      | succ n => exact ⟨rfl, (hdrop n []).trans rfl⟩
  | cons token tokens ih =>
      intro n hn
      cases n with
      | zero => cases hn
      | succ n =>
          rw [hdrop, and_self]
          obtain ⟨c, more, htext, hc, hscan⟩ :=
            scans_text unicode (h token List.mem_cons_self) (textOf tokens)
          have hcons : textOf (token :: tokens) = c :: more := by
            rw [← htext, textOf, List.flatMap_cons, List.append_assoc]
            rfl
          rw [hcons, tokensUpTo, List.dropWhile_cons_of_neg (by simp [hc])]
          dsimp only
          rw [hscan]
          change (tokensUpTo unicode n (' ' :: textOf tokens) >>= _) = _
          rw [(ih (fun t ht => h t (List.mem_cons_of_mem _ ht)) n (Nat.le_of_succ_le_succ hn)).2]
          rfl

theorem tokens_textOf (unicode : Unicode) {tokens : List Token}
    (h : ∀ token ∈ tokens, token.Scannable) :
    Lexer.tokens unicode (textOf tokens) = .ok tokens := by
  refine (tokensUpTo_textOf unicode h _ ?_).1
  clear h
  induction tokens with
  | nil => exact Nat.le_refl 0
  | cons token tokens ih =>
      rw [textOf, List.flatMap_cons, List.length_append, List.length_append, List.length_cons]
      unfold textOf at ih
      simp only [List.length_cons, List.length_nil]
      omega

end Lexer
end ToyDB.Sql
