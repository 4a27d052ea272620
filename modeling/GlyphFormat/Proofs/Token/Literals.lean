import GlyphFormat.Proofs.Literal.Positional
import GlyphFormat.Proofs.Literal.Printable
import GlyphFormat.Proofs.Token.Joining

/-!
# Literals come back

The canonical text of a literal is one token that holds the same value and ends with the text. A
number's text is a numeral that spells this number and no other, to the last bit
(`Binary64.tokenize_format`). A quoted text ends itself, so it is the first token of any source that
begins with it (`Text.IsQuotation`); what it holds may be any code points, yet it shows on one line
and can be encoded.
-/

namespace GlyphFormat

/-! ## One lexeme at the front -/

variable {s rest : Text} {l : Lexeme}

theorem head?_tokenize (hscan : Lexeme.scan (s ++ rest) = .found s.length l) :
    (tokenize (s ++ rest)).1.head? = some ⟨l, ⟨1, 1⟩, ⟨1, 1 + s.length⟩⟩ := by
  rw [tokenize, Scanner.tokens_of_scan hscan]
  rfl

/-- A text that is one lexeme is one token in front of the end. -/
theorem tokenize_of_scan (hl : l ≠ .newline) (hscan : Lexeme.scan s = .found s.length l) :
    tokenize s = ([⟨l, ⟨1, 1⟩, ⟨1, 1 + s.length⟩⟩,
      ⟨.endOfInput, ⟨1, 1 + s.length⟩, ⟨1, 1 + s.length⟩⟩], none) := by
  have hend : ((Scanner.ofText s).behind s.length l).rest = [] := by
    rw [Scanner.rest_behind]
    exact List.drop_length
  have hposition : ((Scanner.ofText s).behind s.length l).position = ⟨1, 1 + s.length⟩ := by
    rw [Scanner.position_behind, if_neg hl]
    rfl
  have hlast : ((Scanner.ofText s).behind s.length l).markHere.token .endOfInput =
      ⟨.endOfInput, ⟨1, 1 + s.length⟩, ⟨1, 1 + s.length⟩⟩ := by
    rw [← hposition]
    rfl
  rw [tokenize, Scanner.tokens_of_scan hscan, Scanner.tokens_of_end hend, hlast]
  rfl

/-! ## Numbers -/

/-- The text of a number is a numeral, one token that holds the number, and the text of no other
number. -/
theorem Binary64.tokenize_format {x : Binary64} (hx : x.IsLiteral) :
    x.format.IsNumeral ∧
      tokenize x.format = ([⟨.number x, ⟨1, 1⟩, ⟨1, 1 + x.format.length⟩⟩,
        ⟨.endOfInput, ⟨1, 1 + x.format.length⟩, ⟨1, 1 + x.format.length⟩⟩], none) ∧
      ∀ y : Binary64, y.IsLiteral → y.format = x.format → y = x := by
  have hscan {y : Binary64} (hy : y.IsLiteral) :
      Lexeme.scan y.format = .found y.format.length (.number y) := by
    have h : Lexeme.scan (y.format ++ []) = .found y.format.length (.number y) :=
      Lexeme.scan_number hy fun c hc => nomatch hc
    rwa [List.append_nil] at h
  refine ⟨isNumeral_format hx, tokenize_of_scan Lexeme.noConfusion (hscan hx), fun y hy heq => ?_⟩
  have hsame := hscan hy
  rw [heq, hscan hx] at hsame
  exact (Lexeme.number.inj (Except.ok.inj (congrArg Scan.result hsame))).symm

/-- A number that is small is written without an exponent all the same. -/
theorem Binary64.tokenize_format_small :
    (ofBits 0x3EA0C6F7A0B5ED8D).format = "0.0000005" ∧ Text.IsNumeral "0.0000005" ∧
      tokenize "0.0000005" = ([⟨.number (ofBits 0x3EA0C6F7A0B5ED8D), ⟨1, 1⟩, ⟨1, 10⟩⟩,
        ⟨.endOfInput, ⟨1, 10⟩, ⟨1, 10⟩⟩], none) := by
  have hformat : (ofBits 0x3EA0C6F7A0B5ED8D).format = "0.0000005" := by decide +kernel
  have hliteral : (ofBits 0x3EA0C6F7A0B5ED8D).IsLiteral := ⟨by decide, by decide⟩
  have h := tokenize_format hliteral
  rw [hformat] at h
  exact ⟨hformat, h.1, h.2.1⟩

/-! ## Quoted texts -/

/-- The text shows on one line and can be encoded, and in front of anything it is read as the
lexeme, up to its own end. -/
structure Text.IsQuotation (u : Text) (l : Lexeme) : Prop where
  isPrintable : ∀ c ∈ u, c.isPrintable = true
  unbroken : ∀ c ∈ u, c.isLineBreak = false ∧ c ≠ '\t'
  isScalar : u.IsScalar
  decode_encode : Utf8.decode (Utf8.encode u) = .ok u
  first : ∀ rest, (tokenize (u ++ rest)).1.head? = some ⟨l, ⟨1, 1⟩, ⟨1, 1 + u.length⟩⟩

theorem Text.IsQuotation.of_scan (hprintable : ∀ c ∈ s, c.isPrintable = true)
    (hscan : ∀ rest, Lexeme.scan (s ++ rest) = .found s.length l) : s.IsQuotation l where
  isPrintable := hprintable
  unbroken c hc := by
    have hlow := (CodePoint.isPrintable_apart (hprintable c hc)).1
    refine ⟨Bool.eq_false_iff.mpr fun hbreak => ?_, fun htab => ?_⟩
    · have := CodePoint.isLineBreak_iff.mp hbreak
      omega
    · rw [CodePoint.eq_ofChar_iff.mp htab] at hlow
      exact absurd hlow (by decide)
  isScalar := isScalar_of_isPrintable hprintable
  decode_encode := Utf8.decode_encode (isScalar_of_isPrintable hprintable)
  first rest := head?_tokenize (hscan rest)

/-- Any text and any code point can be quoted. -/
theorem isQuotation_quoted (t : Text) (c : CodePoint) :
    (quoteString t).IsQuotation (.string t) ∧ (quoteChar [c]).IsQuotation (.char [c]) :=
  ⟨.of_scan (isPrintable_quoteString t) fun _ => Lexeme.scan_string t,
    .of_scan (isPrintable_quoteChar [c]) fun _ => Lexeme.scan_char rfl⟩

end GlyphFormat
