import GlyphFormat.Proofs.Literal.Number
import GlyphFormat.Proofs.Literal.Quoted
import GlyphFormat.Token.Scanner

/-!
# Canonical texts of lexemes

Every lexeme that a source can spell (`Valid`) has a canonical text, and that text is scanned as the
lexeme as long as nothing follows that the lexeme would absorb (`scan_text`): a letter behind a
name, a digit or a point behind a number, anything but the end of the line behind a comment.
-/

namespace GlyphFormat

/-- A name of the language: one or more letters. -/
def Text.IsName (n : Text) : Prop := n ≠ [] ∧ ∀ c ∈ n, c.isLetter = true

instance (n : Text) : Decidable n.IsName := inferInstanceAs (Decidable (_ ∧ _))

namespace Lexeme

/-- Some source spells the lexeme. -/
def Valid : Lexeme → Prop
  | .number x => x.IsLiteral
  | .char t => t.length = 1
  | .ident n => n.IsName
  | .selector s => s ≠ [] ∧ ∀ c ∈ s, c.isSmallLetter = true
  | .primitive p => p.glyph?.isSome = true
  | .comment t => ∀ c ∈ t, c.isLineBreak = false
  | .endOfInput => False
  | _ => True

/-- The canonical text. -/
def text : Lexeme → Text
  | .number x => x.format
  | .char t => quoteChar t
  | .string t => quoteString t
  | .selector s => ":" ++ s
  | .comment t => "# " ++ t
  | l => l.valueText

/-- The code point would become part of the lexeme if it came right behind it. -/
def absorbs (l : Lexeme) (c : CodePoint) : Bool :=
  match l with
  | .number _ => c.isDigit || c = '.'
  | .ident _ => c.isLetter
  | .selector _ => c.isSmallLetter
  | .comment _ => !c.isLineBreak
  | _ => false

/-- What comes next stays apart from the lexeme. -/
def Ends (l : Lexeme) (rest : Text) : Prop := ∀ c ∈ rest.head?, l.absorbs c = false

/-! ## What a first character promises -/

namespace Opening

variable {c : CodePoint}

theorem of_isDigit (h : c.isDigit = true) : Opening.of c = .number := by
  have hc := CodePoint.isDigit_iff.mp h
  have hbreak : c.isLineBreak ≠ true := fun hb => by
    have := CodePoint.isLineBreak_iff.mp hb
    omega
  have hne : ∀ a : Char, a.toNat < 0x30 → c ≠ a := fun a ha hca => by
    rw [CodePoint.eq_ofChar_iff] at hca
    omega
  rw [Opening.of, if_neg (hne '#' (by decide)), if_neg hbreak, if_neg (hne '"' (by decide)),
    if_neg (hne '\'' (by decide)), if_pos h]

theorem of_isLetter (h : c.isLetter = true) : Opening.of c = .letter := by
  have hc := CodePoint.le_val_of_isLetter h
  have hbreak : c.isLineBreak ≠ true := fun hb => by
    have := CodePoint.isLineBreak_iff.mp hb
    omega
  have hdigit : c.isDigit ≠ true := fun hd => by
    rw [CodePoint.isLetter_of_isDigit hd] at h
    cases h
  have hne : ∀ a : Char, a.toNat < 0x41 → c ≠ a := fun a ha hca => by
    rw [CodePoint.eq_ofChar_iff] at hca
    omega
  rw [Opening.of, if_neg (hne '#' (by decide)), if_neg hbreak, if_neg (hne '"' (by decide)),
    if_neg (hne '\'' (by decide)), if_neg hdigit, if_neg (hne ':' (by decide)),
    Primitive.ofGlyph?_of_isLetter h]
  exact if_pos h

theorem of_glyph {p : Primitive} (h : p.glyph? = some c) : Opening.of c = .glyph p := by
  obtain ⟨-, halnum, hblank⟩ := Primitive.glyph_classes h
  have hreserved := glyph_not_reserved h
  have hbreak : c.isLineBreak ≠ true := fun hb => by
    rw [CodePoint.isBlank_of_isLineBreak hb] at hblank
    cases hblank
  have hdigit : c.isDigit ≠ true := fun hd => by
    rw [CodePoint.isAlphanumeric_of_isDigit hd] at halnum
    cases halnum
  have hne : ∀ a ∈ reservedCharacters, c ≠ a := fun a ha hca => hreserved (hca ▸ ha)
  rw [Opening.of, if_neg (hne '#' (by decide)), if_neg hbreak, if_neg (hne '"' (by decide)),
    if_neg (hne '\'' (by decide)), if_neg hdigit, if_neg (hne ':' (by decide)),
    Primitive.ofGlyph?_glyph h]

end Opening

/-! ## Canonical texts are scanned -/

section

variable {rest : Text}

theorem first_cons (c : CodePoint) (s : Text) : Text.first (c :: s) = c := rfl

theorem format_cons {x : Binary64} (hx : x.IsLiteral) :
    ∃ c s, x.format = c :: s ∧ c.isDigit = true := by
  have hdigit : ∀ n : Nat, ∃ c s, Text.ofNat n = c :: s ∧ c.isDigit = true := by
    intro n
    cases hn : Text.ofNat n with
    | nil => exact absurd hn (Text.ofNat_ne_nil n)
    | cons c s => exact ⟨c, s, rfl, Text.isDigit_of_mem_ofNat (n := n) (by simp [hn])⟩
  rw [Binary64.format_of_isLiteral hx]
  generalize (Binary64.shortest x.magnitude).1 = d
  by_cases hk : (Binary64.shortest x.magnitude).2 = 0
  · rw [hk, positional_zero]
    exact hdigit d
  · rw [positional_pos (Nat.pos_of_ne_zero hk)]
    obtain ⟨c, s, hcs, hc⟩ := hdigit (d / Nat.pow 10 (Binary64.shortest x.magnitude).2)
    exact ⟨c, _, by rw [hcs, List.cons_append], hc⟩

theorem scan_number {x : Binary64} (hx : x.IsLiteral) (h : Ends (.number x) rest) :
    scan (x.format ++ rest) = .found x.format.length (.number x) := by
  obtain ⟨c, s, hcs, hc⟩ := format_cons hx
  have hends : EndsNumber rest := fun c hc => by
    have := h c hc
    simpa [absorbs] using this
  have hfirst : Text.first (x.format ++ rest) = c := by rw [hcs]; rfl
  rw [scan, hfirst, Opening.of_isDigit hc]
  exact scanNumber_format hx hends

theorem scan_char {t : Text} (ht : t.length = 1) :
    scan (quoteChar t ++ rest) = .found (quoteChar t).length (.char t) := by
  have hquote : IsQuote (CodePoint.ofChar '\'') := Or.inr rfl
  have htext : quoteChar t ++ rest =
      CodePoint.ofChar '\'' :: (quoteText (some '\'') t ++ CodePoint.ofChar '\'' :: rest) := by
    simp [quoteChar, Text.ofString]
  have hlen : (quoteChar t).length = 1 + ((quoteText (some '\'') t).length + 1) := by
    simp only [quoteChar, Text.ofString, List.length_append, List.length_map]
    simp
    omega
  rw [htext, scan, first_cons, show Opening.of (CodePoint.ofChar '\'') = .char from rfl, hlen]
  simp only [afterOne, List.tail_cons, scanChar, scanQuoted_quoteText hquote]
  rw [Scan.found]
  simp only [if_pos ht]
  rfl

theorem scan_string (t : Text) :
    scan (quoteString t ++ rest) = .found (quoteString t).length (.string t) := by
  have hquote : IsQuote (CodePoint.ofChar '"') := Or.inl rfl
  have htext : quoteString t ++ rest =
      CodePoint.ofChar '"' :: (quoteText (some '"') t ++ CodePoint.ofChar '"' :: rest) := by
    simp [quoteString, Text.ofString]
  have hlen : (quoteString t).length = 1 + ((quoteText (some '"') t).length + 1) := by
    simp only [quoteString, Text.ofString, List.length_append, List.length_map]
    simp
    omega
  rw [htext, scan, first_cons, show Opening.of (CodePoint.ofChar '"') = .string from rfl, hlen]
  simp only [afterOne, List.tail_cons, scanString, scanQuoted_quoteText hquote]
  rfl

theorem scan_ident {n : Text} (hn : n.IsName) (h : Ends (.ident n) rest) :
    scan (n ++ rest) = .found n.length (.ident n) := by
  have hrun : (n ++ rest).takeWhile CodePoint.isLetter = n := Text.takeWhile_run hn.2 h
  cases n with
  | nil => exact absurd rfl hn.1
  | cons c s =>
      rw [scan, List.cons_append, first_cons, Opening.of_isLetter (hn.2 c (by simp))]
      rw [List.cons_append] at hrun
      simp only [scanIdent, hrun]

theorem scan_selector {s : Text} (hs : s ≠ []) (hsmall : ∀ c ∈ s, c.isSmallLetter = true)
    (h : Ends (.selector s) rest) :
    scan (CodePoint.ofChar ':' :: s ++ rest) = .found (s.length + 1) (.selector s) := by
  have hrun : (s ++ rest).takeWhile CodePoint.isSmallLetter = s := Text.takeWhile_run hsmall h
  rw [scan, List.cons_append, first_cons,
    show Opening.of (CodePoint.ofChar ':') = .selector from rfl]
  simp only [afterOne, List.tail_cons, scanSelector, hrun, if_neg hs, Nat.add_comm s.length]
  rfl

theorem scan_comment {t : Text} (ht : ∀ c ∈ t, c.isLineBreak = false)
    (h : Ends (.comment t) rest) :
    scan (CodePoint.ofChar '#' :: CodePoint.ofChar ' ' :: t ++ rest) =
      .found (t.length + 2) (.comment t) := by
  have hrun : (CodePoint.ofChar ' ' :: t ++ rest).takeWhile (!·.isLineBreak) =
      CodePoint.ofChar ' ' :: t := by
    refine Text.takeWhile_run (fun c hc => ?_) h
    rcases List.mem_cons.mp hc with rfl | hc
    · rfl
    · rw [ht c hc]
      rfl
  rw [List.cons_append] at hrun
  rw [scan, List.cons_append, List.cons_append, first_cons,
    show Opening.of (CodePoint.ofChar '#') = .comment from rfl]
  simp only [afterOne, List.tail_cons, scanComment, hrun, first_cons, if_true, List.length_cons,
    Scan.after, Scan.found, Scan.mk.injEq, and_true]
  omega

/-- A valid lexeme is read back from its canonical text. -/
theorem scan_text {l : Lexeme} (hl : l.Valid) (h : l.Ends rest) :
    scan (l.text ++ rest) = .found l.text.length l := by
  cases l with
  | number x => exact scan_number hl h
  | char t => exact scan_char hl
  | string t => exact scan_string t
  | ident n => exact scan_ident hl h
  | selector s => exact scan_selector hl.1 hl.2 h
  | primitive p =>
      obtain ⟨g, hg⟩ := Option.isSome_iff_exists.mp hl
      have htext : text (.primitive p) = [g] := by simp [text, valueText, Primitive.display, hg]
      rw [htext, scan, List.cons_append, first_cons, Opening.of_glyph hg]
      rfl
  | comment t => exact scan_comment hl h
  | endOfInput => exact absurd hl id
  | underscore | openSquare | closeSquare | openRound | closeRound | pipe | assign | newline => rfl

end

end Lexeme

end GlyphFormat
