import ToyDB.Sql.Types.NormalForm

/-!
# LIKE

LIKE translates its pattern into a regular expression. Of these, only sequences of single
characters, of the dot and of the repeated dot are used, between both ends of the text. A
dot is not a line feed, so no wildcard stands for one.
-/
namespace ToyDB.Sql

/-! ## Regular expressions -/

namespace Regex

/-- A part of a regular expression. -/
inductive Piece where
  | literal (c : Char)
  | dot
  | dotStar

/-- The characters that have a meaning in regular expressions. -/
def isMeta (c : Char) : Bool := "\\.+*?()|[]\x7b\x7d^$#&-~".toList.contains c

/-- A character as it is written to stand for itself. -/
def quote (c : Char) : List Char := if isMeta c then ['\\', c] else [c]

def Piece.text : Piece → List Char
  | literal c => quote c
  | dot => ['.']
  | dotStar => ['.', '*']

/-- The regular expression that matches the pieces from the beginning to the end of a text. -/
def anchored (pieces : List Piece) : String :=
  "^" ++ String.ofList (pieces.flatMap Piece.text) ++ "$"

/-- What can be left of a text after any number of characters other than line feeds. -/
def rests : List Char → List (List Char)
  | [] => [[]]
  | c :: text => (c :: text) :: if c = '\n' then [] else rests text

/-- The pieces match all of the text. -/
def accepts : List Piece → List Char → Bool
  | [], text => text.isEmpty
  | .literal c :: pieces, x :: text => x = c && accepts pieces text
  | .literal _ :: _, [] => false
  | .dot :: pieces, x :: text => x ≠ '\n' && accepts pieces text
  | .dot :: _, [] => false
  | .dotStar :: pieces, text => (rests text).any (accepts pieces)

/-- What the regular expressions are relied on to do. -/
structure Lawful (fn : Builtins) : Prop where
  escape (text : String) : fn.escape text = String.ofList (text.toList.flatMap quote)
  isMatch (pieces : List Piece) (text : String) :
    fn.isMatch (anchored pieces) text = .ok (accepts pieces text.toList)

/-! ## Reading them back -/

/-- The pieces that a regular expression is made of. -/
def parse : List Char → List Piece
  | [] => []
  | '\\' :: c :: text => .literal c :: parse text
  | '.' :: '*' :: text => .dotStar :: parse text
  | '.' :: text => .dot :: parse text
  | c :: text => .literal c :: parse text

theorem parse_quote (c : Char) (text : List Char) :
    parse (quote c ++ text) = .literal c :: parse text := by
  by_cases h : isMeta c
  · rw [quote, if_pos h]
    rfl
  · have hescape : c ≠ '\\' := by
      rintro rfl
      exact h rfl
    have hdot : c ≠ '.' := by
      rintro rfl
      exact h rfl
    rw [quote, if_neg h, List.cons_append, List.nil_append, parse]
    · rintro d rest rfl
      exact absurd rfl hescape
    · rintro rest rfl
      exact absurd rfl hdot
    · exact hdot

/-- No piece begins with a star, so a dot before it is read as a dot. -/
theorem text_eq_cons (piece : Piece) : ∃ c rest, piece.text = c :: rest ∧ c ≠ '*' := by
  cases piece with
  | literal c =>
      by_cases h : isMeta c
      · exact ⟨'\\', [c], by rw [Piece.text, quote, if_pos h], by decide⟩
      · refine ⟨c, [], by rw [Piece.text, quote, if_neg h], ?_⟩
        rintro rfl
        exact h rfl
  | dot => exact ⟨'.', [], rfl, by decide⟩
  | dotStar => exact ⟨'.', ['*'], rfl, by decide⟩

theorem parse_text (pieces : List Piece) : parse (pieces.flatMap Piece.text) = pieces := by
  induction pieces with
  | nil => rfl
  | cons piece pieces ih =>
      rw [List.flatMap_cons]
      cases piece with
      | literal c => rw [Piece.text, parse_quote, ih]
      | dotStar =>
          show .dotStar :: parse (pieces.flatMap Piece.text) = _
          rw [ih]
      | dot =>
          cases pieces with
          | nil => rfl
          | cons next pieces =>
              obtain ⟨c, rest, hnext, hc⟩ := text_eq_cons next
              rw [List.flatMap_cons, hnext, List.cons_append] at ih ⊢
              rw [Piece.text, List.cons_append, List.nil_append, parse, ih]
              intro rest' hstar
              exact hc (List.cons.inj hstar).1

/-- The regular expressions of sequences of characters, dots and repeated dots. -/
def sequences : Builtins :=
  { Builtins.unused with
    escape := fun text => String.ofList (text.toList.flatMap quote)
    isMatch := fun pattern text =>
      .ok (accepts (parse pattern.toList.tail.dropLast) text.toList) }

theorem lawful_sequences : Lawful sequences := by
  refine ⟨fun _ => rfl, ?_⟩
  intro pieces text
  have htext : (anchored pieces).toList.tail.dropLast = pieces.flatMap Piece.text := by
    have hstart : "^".toList = ['^'] := rfl
    have hend : "$".toList = ['$'] := rfl
    simp only [anchored, String.toList_append, String.toList_ofList, hstart, hend]
    simp
  show Except.ok (accepts (parse (anchored pieces).toList.tail.dropLast) text.toList) = _
  rw [htext, parse_text]

end Regex

/-! ## Wildcards -/

/-- The text matches the pattern, with wildcards that stand for characters of some kind. -/
inductive Matches (kind : Char → Prop) : List Char → List Char → Prop
  | nil : Matches kind [] []
  | many {p s : List Char} (t : List Char) (ht : ∀ c ∈ t, kind c) (h : Matches kind p s) :
      Matches kind ('%' :: p) (t ++ s)
  | one {p s : List Char} {c : Char} (hc : kind c) (h : Matches kind p s) :
      Matches kind ('_' :: p) (c :: s)
  | self {p s : List Char} {c : Char} (hc : c ≠ '%' ∧ c ≠ '_') (h : Matches kind p s) :
      Matches kind (c :: p) (c :: s)

theorem Matches.mono {kind kind' : Char → Prop} {p s : List Char} (h : Matches kind p s)
    (hkind : ∀ c, kind c → kind' c) : Matches kind' p s := by
  induction h with
  | nil => exact .nil
  | many t ht _ ih => exact .many t (fun c hc => hkind c (ht c hc)) ih
  | one hc _ ih => exact .one (hkind _ hc) ih
  | self hc _ ih => exact .self hc ih

theorem matches_nil_iff {kind : Char → Prop} {s : List Char} : Matches kind [] s ↔ s = [] := by
  constructor
  · intro h
    cases h
    rfl
  · rintro rfl
    exact .nil

theorem matches_many_iff {kind : Char → Prop} {p s : List Char} :
    Matches kind ('%' :: p) s ↔ ∃ t rest, s = t ++ rest ∧ (∀ c ∈ t, kind c) ∧ Matches kind p rest := by
  constructor
  · intro h
    cases h with
    | many t ht h => exact ⟨t, _, rfl, ht, h⟩
    | self hc => exact absurd rfl hc.1
  · rintro ⟨t, rest, rfl, ht, h⟩
    exact .many t ht h

theorem matches_one_iff {kind : Char → Prop} {p s : List Char} :
    Matches kind ('_' :: p) s ↔ ∃ c rest, s = c :: rest ∧ kind c ∧ Matches kind p rest := by
  constructor
  · intro h
    cases h with
    | one hc h => exact ⟨_, _, rfl, hc, h⟩
    | self hc => exact absurd rfl hc.2
  · rintro ⟨c, rest, rfl, hc, h⟩
    exact .one hc h

theorem matches_self_iff {kind : Char → Prop} {c : Char} {p s : List Char}
    (hmany : c ≠ '%') (hone : c ≠ '_') :
    Matches kind (c :: p) s ↔ ∃ rest, s = c :: rest ∧ Matches kind p rest := by
  constructor
  · intro h
    cases h with
    | many => exact absurd rfl hmany
    | one => exact absurd rfl hone
    | self _ h => exact ⟨_, rfl, h⟩
  · rintro ⟨rest, rfl, h⟩
    exact .self ⟨hmany, hone⟩ h

namespace Regex

/-- The piece for a character of a pattern. -/
def piece (c : Char) : Piece := if c = '%' then .dotStar else if c = '_' then .dot else .literal c

theorem mem_rests {text rest : List Char} :
    rest ∈ rests text ↔ ∃ t, text = t ++ rest ∧ ∀ c ∈ t, c ≠ '\n' := by
  induction text with
  | nil =>
      constructor
      · intro h
        exact ⟨[], by simpa [rests, eq_comm] using h, by simp⟩
      · rintro ⟨t, ht, -⟩
        simpa [rests, eq_comm] using (List.append_eq_nil_iff.mp ht.symm).2
  | cons c text ih =>
      rw [rests, List.mem_cons]
      constructor
      · rintro (rfl | h)
        · exact ⟨[], rfl, by simp⟩
        · by_cases hc : c = '\n'
          · simp [hc] at h
          · rw [if_neg hc, ih] at h
            obtain ⟨t, rfl, ht⟩ := h
            refine ⟨c :: t, rfl, ?_⟩
            intro x hx
            rcases List.mem_cons.mp hx with rfl | hx
            · exact hc
            · exact ht x hx
      · rintro ⟨t, ht, hfeed⟩
        cases t with
        | nil => exact .inl ht.symm
        | cons x t =>
            obtain ⟨rfl, rfl⟩ := List.cons.inj ht
            rw [if_neg (hfeed c (List.mem_cons_self ..)), ih]
            exact .inr ⟨t, rfl, fun y hy => hfeed y (List.mem_cons_of_mem _ hy)⟩

/-- The pieces of a pattern match a text just if the pattern does, with wildcards that stand
for anything but a line feed. -/
theorem accepts_pattern (p s : List Char) :
    accepts (p.map piece) s = true ↔ Matches (· ≠ '\n') p s := by
  induction p generalizing s with
  | nil =>
      rw [matches_nil_iff]
      exact List.isEmpty_iff
  | cons c p ih =>
      rw [List.map_cons]
      by_cases hmany : c = '%'
      · subst hmany
        have hpiece : piece '%' = .dotStar := rfl
        rw [hpiece, accepts, List.any_eq_true, matches_many_iff]
        constructor
        · rintro ⟨rest, hrest, h⟩
          obtain ⟨t, rfl, ht⟩ := mem_rests.mp hrest
          exact ⟨t, rest, rfl, ht, (ih rest).mp h⟩
        · rintro ⟨t, rest, rfl, ht, h⟩
          exact ⟨rest, mem_rests.mpr ⟨t, rfl, ht⟩, (ih rest).mpr h⟩
      · by_cases hone : c = '_'
        · subst hone
          have hpiece : piece '_' = .dot := rfl
          rw [hpiece, matches_one_iff]
          cases s with
          | nil => simp [accepts]
          | cons x s => simp [accepts, ih]
        · have hpiece : piece c = .literal c := by rw [piece, if_neg hmany, if_neg hone]
          rw [hpiece, matches_self_iff hmany hone]
          cases s with
          | nil => simp [accepts]
          | cons x s => simp [accepts, ih]

/-! ## The translation -/

/-- Escaping and replacing the wildcards writes down the pieces of the pattern. -/
theorem translate (c : Char) :
    ((quote c).flatMap fun x => if x = '%' then ['.', '*'] else [x]).flatMap
      (fun x => if x = '_' then ['.'] else [x]) = (piece c).text := by
  by_cases hmany : c = '%'
  · subst hmany
    rfl
  · by_cases hone : c = '_'
    · subst hone
      rfl
    · rw [piece, if_neg hmany, if_neg hone, Piece.text, quote]
      split
      · simp [hmany, hone]
      · simp [hmany, hone]

theorem replaceChar_escape {fn : Builtins} (hfn : Lawful fn) (p : String) :
    Value.replaceChar '_' "." (Value.replaceChar '%' ".*" (fn.escape p))
      = String.ofList ((p.toList.map piece).flatMap Piece.text) := by
  have hdotStar : ".*".toList = ['.', '*'] := rfl
  rw [hfn.escape, Value.replaceChar, Value.replaceChar, String.toList_ofList, List.flatMap_map]
  simp only [String.toList_ofList, hdotStar]
  simp only [← translate, List.flatMap_assoc]

end Regex

theorem Value.like_ok {fn : Builtins} {s p : String} {found : Bool}
    (h : fn.isMatch ("^" ++ replaceChar '_' "." (replaceChar '%' ".*" (fn.escape p)) ++ "$") s
      = .ok found) :
    like fn (string s) (string p) = .ok (boolean found) := by
  unfold like
  simp only [h]

/-- LIKE finds the matches whose wildcards stand for no line feed. -/
theorem Value.like_string {fn : Builtins} (hfn : Regex.Lawful fn) (s p : String) :
    ∃ found, Value.like fn (.string s) (.string p) = .ok (.boolean found) ∧
      (found = true ↔ Matches (· ≠ '\n') p.toList s.toList) := by
  refine ⟨Regex.accepts (p.toList.map Regex.piece) s.toList, ?_, Regex.accepts_pattern _ _⟩
  apply Value.like_ok
  rw [Regex.replaceChar_escape hfn]
  exact hfn.isMatch _ s

namespace Expression

/-- LIKE is true of the texts that match the pattern, and false of the others. -/
def LikeMatches (fn : Builtins) (s p : String) : Prop :=
  let like := binary .like (constant (.string s)) (constant (.string p))
  (Matches (fun _ => True) p.toList s.toList →
    like.evaluate fn none = .ok (.boolean true)) ∧
  (¬ Matches (fun _ => True) p.toList s.toList →
    like.evaluate fn none = .ok (.boolean false))

/-- LIKE is right just about the texts that do not match and those that match without a
line feed for a wildcard. -/
theorem likeMatches_iff {fn : Builtins} (hfn : Regex.Lawful fn) (s p : String) :
    LikeMatches fn s p ↔
      (Matches (fun _ => True) p.toList s.toList → Matches (· ≠ '\n') p.toList s.toList) := by
  obtain ⟨found, hlike, hfound⟩ := Value.like_string hfn s p
  have heval : (binary .like (constant (.string s)) (constant (.string p))).evaluate fn none
      = .ok (.boolean found) := hlike
  rw [LikeMatches, heval]
  constructor
  · intro h hmatches
    have htrue := h.1 hmatches
    injection htrue with htrue
    injection htrue with htrue
    exact hfound.mp htrue
  · intro h
    constructor
    · intro hmatches
      rw [hfound.mpr (h hmatches)]
    · intro hmatches
      have hfalse : found = false := by
        by_contra htrue
        exact hmatches ((hfound.mp (by simpa using htrue)).mono fun _ _ => trivial)
      rw [hfalse]

theorem likeMatches_iff_lines :
    Regex.Lawful Regex.sequences ∧ (LikeMatches Regex.sequences "a\nb" "a%b" ↔
      (Matches (fun _ => True) "a%b".toList "a\nb".toList →
        Matches (· ≠ '\n') "a%b".toList "a\nb".toList)) :=
  ⟨Regex.lawful_sequences, likeMatches_iff Regex.lawful_sequences "a\nb" "a%b"⟩

/-- A line feed is a character, yet the wildcard does not stand for it. -/
theorem not_likeMatches_lines : ¬ LikeMatches Regex.sequences "a\nb" "a%b" := by
  have hmatches : Matches (fun _ => True) "a%b".toList "a\nb".toList := by
    show Matches (fun _ => True) ['a', '%', 'b'] (['a'] ++ (['\n'] ++ ['b']))
    have hb : Matches (fun _ => True) ['b'] ['b'] := .self (by decide) .nil
    have hmany := Matches.many ['\n'] (fun _ _ => trivial) hb
    exact .self (by decide) hmany
  intro h
  have hlike : Value.like Regex.sequences (.string "a\nb") (.string "a%b")
      = .ok (.boolean true) := h.1 hmatches
  revert hlike
  decide +kernel

end Expression
end ToyDB.Sql
