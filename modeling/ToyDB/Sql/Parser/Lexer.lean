import ToyDB.Sql.Parser.Ast
import ToyDB.Sql.Types.Arithmetic

/-!
# The lexer

Text is a list of characters. The tables of Unicode are a parameter, known on ASCII.
-/
namespace ToyDB.Sql

/-- The classes of characters and their lower case. -/
structure Unicode where
  isAlphabetic : Char → Bool
  isAlphanumeric : Char → Bool
  isWhitespace : Char → Bool
  toLowercase : Char → List Char
  alphabetic_ascii (c : Char) (h : c.toNat < 128) : isAlphabetic c = c.isAlpha
  alphanumeric_ascii (c : Char) (h : c.toNat < 128) : isAlphanumeric c = c.isAlphanum
  whitespace_ascii (c : Char) (h : c.toNat < 128) :
    isWhitespace c = decide (c = ' ' ∨ 9 ≤ c.toNat ∧ c.toNat ≤ 13)
  lowercase_ascii (c : Char) (h : c.toNat < 128) : toLowercase c = [c.toLower]

/-- The tables without any characters beyond ASCII. -/
def Unicode.ascii : Unicode where
  isAlphabetic := Char.isAlpha
  isAlphanumeric := Char.isAlphanum
  isWhitespace c := c = ' ' ∨ 9 ≤ c.toNat ∧ c.toNat ≤ 13
  toLowercase c := [c.toLower]
  alphabetic_ascii _ _ := rfl
  alphanumeric_ascii _ _ := rfl
  whitespace_ascii _ _ := rfl
  lowercase_ascii _ _ := rfl

inductive Keyword where
  | and | as | asc | begin | bool | boolean | «by» | commit | create | cross | default | delete
  | desc | double | drop | «exists» | explain | false | float | «from» | group | «having» | «if»
  | index | infinity | inner | insert | int | integer | into | is | join | key | left | like
  | limit | nan | not | null | of | offset | on | only | or | order | outer | primary | read
  | references | right | rollback | select | set | string | system | table | text | time
  | transaction | true | unique | update | values | varchar | «where» | write
  deriving DecidableEq

namespace Keyword

def name : Keyword → String
  | and => "and" | as => "as" | asc => "asc" | begin => "begin" | bool => "bool"
  | boolean => "boolean" | «by» => "by" | commit => "commit" | create => "create"
  | cross => "cross" | default => "default" | delete => "delete" | desc => "desc"
  | double => "double" | drop => "drop" | «exists» => "exists" | explain => "explain"
  | false => "false" | float => "float" | «from» => "from" | group => "group"
  | «having» => "having" | «if» => "if" | index => "index" | infinity => "infinity"
  | inner => "inner" | insert => "insert" | int => "int" | integer => "integer" | into => "into"
  | is => "is" | join => "join" | key => "key" | left => "left" | like => "like"
  | limit => "limit" | nan => "nan" | not => "not" | null => "null" | of => "of"
  | offset => "offset" | on => "on" | only => "only" | or => "or" | order => "order"
  | outer => "outer" | primary => "primary" | read => "read" | references => "references"
  | right => "right" | rollback => "rollback" | select => "select" | set => "set"
  | string => "string" | system => "system" | table => "table" | text => "text" | time => "time"
  | transaction => "transaction" | true => "true" | unique => "unique" | update => "update"
  | values => "values" | varchar => "varchar" | «where» => "where" | write => "write"

def all : List Keyword :=
  [and, as, asc, begin, bool, boolean, «by», commit, create, cross, default, delete, desc, double,
    drop, «exists», explain, false, float, «from», group, «having», «if», index, infinity, inner,
    insert, int, integer, into, is, join, key, left, like, limit, nan, not, null, of, offset, on,
    only, or, order, outer, primary, read, references, right, rollback, select, set, string,
    system, table, text, time, transaction, true, unique, update, values, varchar, «where», write]

/-- The keyword of a name in lower case, if it is one. -/
def tryFrom (name : List Char) : Option Keyword := all.find? fun keyword => keyword.name.toList = name

def display (keyword : Keyword) : String := keyword.name.toUpper

end Keyword

inductive Token where
  | number (text : List Char)
  | string (text : List Char)
  | ident (text : List Char)
  | keyword (keyword : Keyword)
  | period | equal | notEqual | greaterThan | greaterThanOrEqual | lessThan | lessThanOrEqual
  | lessOrGreaterThan | plus | minus | asterisk | slash | caret | percent | exclamation | question
  | comma | semicolon | openParen | closeParen
  deriving DecidableEq

namespace Token

/-- The text of a symbol. -/
def symbol : Token → String
  | period => "."
  | equal => "="
  | notEqual => "!="
  | greaterThan => ">"
  | greaterThanOrEqual => ">="
  | lessThan => "<"
  | lessThanOrEqual => "<="
  | lessOrGreaterThan => "<>"
  | plus => "+"
  | minus => "-"
  | asterisk => "*"
  | slash => "/"
  | caret => "^"
  | percent => "%"
  | exclamation => "!"
  | question => "?"
  | comma => ","
  | semicolon => ";"
  | openParen => "("
  | closeParen => ")"
  | _ => ""

def display : Token → String
  | number text => String.ofList text
  | string text => String.ofList text
  | ident text => String.ofList text
  | keyword k => k.display
  | token => token.symbol

end Token

namespace Lexer

def singleQuote : Char := Char.ofNat 39

def doubleQuote : Char := Char.ofNat 34

/-- An identifier or a keyword, in lower case. -/
def scanIdentOrKeyword (unicode : Unicode) (c : Char) (text : List Char) : Token × List Char :=
  let more := fun c => unicode.isAlphanumeric c || c = '_'
  let name := (c :: text.takeWhile more).flatMap unicode.toLowercase
  let token := match Keyword.tryFrom name with
    | some keyword => .keyword keyword
    | none => .ident name
  (token, text.dropWhile more)

/-- What is quoted; a doubled quote stands for one. -/
def scanQuoted (quote : Char) : List Char → Option (List Char × List Char)
  | [] => none
  | c :: text =>
      if c = quote then
        match text with
        | [] => some ([], [])
        | c' :: text' =>
            if c' = quote then (scanQuoted quote text').map fun (quoted, rest) => (c :: quoted, rest)
            else some ([], text)
      else (scanQuoted quote text).map fun (quoted, rest) => (c :: quoted, rest)

/-- The first character, if the condition accepts it. -/
def scanOne (p : Char → Bool) : List Char → List Char × List Char
  | [] => ([], [])
  | c :: text => if p c then ([c], text) else ([], c :: text)

/-- All characters up to the first that the condition does not accept. -/
def scanMany (p : Char → Bool) (text : List Char) : List Char × List Char :=
  (text.takeWhile p, text.dropWhile p)

/-- Digits with a fraction and an exponent, if there are any. -/
def scanNumber (text : List Char) : List Char × List Char :=
  let (whole, text) := scanMany Char.isDigit text
  let (point, text) := scanOne (· = '.') text
  let (fraction, text) := scanMany (fun c => point ≠ [] && c.isDigit) text
  let (exponent, text) := scanOne (fun c => c = 'e' || c = 'E') text
  let (sign, text) := scanOne (fun c => exponent ≠ [] && (c = '+' || c = '-')) text
  let (power, text) := scanMany (fun c => exponent ≠ [] && c.isDigit) text
  (whole ++ point ++ fraction ++ exponent ++ sign ++ power, text)

/-- A symbol of one or two characters. -/
def scanSymbol : List Char → Option (Token × List Char)
  | '!' :: '=' :: text => some (.notEqual, text)
  | '>' :: '=' :: text => some (.greaterThanOrEqual, text)
  | '<' :: '>' :: text => some (.lessOrGreaterThan, text)
  | '<' :: '=' :: text => some (.lessThanOrEqual, text)
  | '.' :: text => some (.period, text)
  | '=' :: text => some (.equal, text)
  | '>' :: text => some (.greaterThan, text)
  | '<' :: text => some (.lessThan, text)
  | '+' :: text => some (.plus, text)
  | '-' :: text => some (.minus, text)
  | '*' :: text => some (.asterisk, text)
  | '/' :: text => some (.slash, text)
  | '^' :: text => some (.caret, text)
  | '%' :: text => some (.percent, text)
  | '!' :: text => some (.exclamation, text)
  | '?' :: text => some (.question, text)
  | ',' :: text => some (.comma, text)
  | ';' :: text => some (.semicolon, text)
  | '(' :: text => some (.openParen, text)
  | ')' :: text => some (.closeParen, text)
  | _ => none

/-- Scans a token that starts with this character. -/
def scanFrom (unicode : Unicode) (c : Char) (text : List Char) :
    Except Failure (Token × List Char) :=
  if c = singleQuote then
    match scanQuoted singleQuote text with
    | some (string, rest) => .ok (.string string, rest)
    | none => invalid "unexpected end of string literal"
  else if c = doubleQuote then
    match scanQuoted doubleQuote text with
    | some (ident, rest) => .ok (.ident ident, rest)
    | none => invalid "unexpected end of quoted identifier"
  else if c.isDigit then
    let (number, rest) := scanNumber (c :: text)
    .ok (.number number, rest)
  else if unicode.isAlphabetic c then .ok (scanIdentOrKeyword unicode c text)
  else
    match scanSymbol (c :: text) with
    | some scanned => .ok scanned
    | none => invalid s!"unexpected character {c}"

/-- The tokens of a text, for at most this many of them. -/
def tokensUpTo (unicode : Unicode) : ℕ → List Char → Except Failure (List Token)
  | 0, _ => .ok []
  | n + 1, text =>
      match text.dropWhile unicode.isWhitespace with
      | [] => .ok []
      | c :: text => do
          let (token, rest) ← scanFrom unicode c text
          let tokens ← tokensUpTo unicode n rest
          return token :: tokens

/-- The tokens of a text; each has a character. -/
def tokens (unicode : Unicode) (text : List Char) : Except Failure (List Token) :=
  tokensUpTo unicode text.length text

end Lexer
end ToyDB.Sql
