import GlyphFormat.Proofs.Literal.Printable
import GlyphFormat.Proofs.Token.Written
import GlyphFormat.Proofs.Writing.Lines

/-!
# What is written is printable

The text of every mark is made of printable characters (`Mark.isPrintable_text`): letters, digits,
punctuation and glyphs are, and quoted literals escape the rest. The room between marks is a space,
so a line of words is printable too (`Layout.isPrintable_line`). Only a comment is written as it
stands.
-/

namespace GlyphFormat

/-! ## Printable classes -/

theorem ascending_unprintables : Ranges.Ascending unprintables := by decide +kernel

namespace CodePoint

variable {c : CodePoint}

/-- A class whose table leaves out the unprintable code points is printable. -/
theorem isPrintable_of_contains {r : Ranges} (hr : r.Ascending)
    (h : Ranges.apart unprintables r = true) (hc : r.contains c.val = true) :
    c.isPrintable = true := by
  rw [isPrintable, Ranges.not_contains_of_apart ascending_unprintables hr h hc]
  rfl

theorem isPrintable_of_isLetter (h : c.isLetter = true) : c.isPrintable = true :=
  isPrintable_of_contains ascending_letters (by decide +kernel) h

theorem isPrintable_of_isDigit (h : c.isDigit = true) : c.isPrintable = true := by
  have hbounds := isDigit_iff.mp h
  exact isPrintable_of_ascii (by omega) (by omega)

end CodePoint

theorem isPrintable_positional (d k : Nat) : ∀ c ∈ positional d k, c.isPrintable = true := by
  have hdigits : ∀ n, ∀ c ∈ Text.ofNat n, c.isPrintable = true := fun n c hc =>
    CodePoint.isPrintable_of_isDigit (Text.isDigit_of_mem_ofNat hc)
  rcases Nat.eq_zero_or_pos k with rfl | hk
  · exact hdigits d
  · rw [Lexeme.positional_pos hk]
    refine List.forall_mem_append.mpr ⟨hdigits _, List.forall_mem_cons.mpr ⟨by decide, ?_⟩⟩
    exact fun c hc => CodePoint.isPrintable_of_isDigit (Lexeme.isDigit_of_mem_places hc)

theorem isPrintable_of_ofPunctuation? {c : CodePoint} {l : Lexeme}
    (h : Lexeme.ofPunctuation? c = some l) : c.isPrintable = true := by
  have all : ∀ p ∈ Lexeme.marks, p.1.isPrintable = true := by decide
  exact all _ (Lexeme.mem_marks h)

/-- What a mark spells is printable. -/
theorem Mark.isPrintable_text {m : Mark} {lexeme : Lexeme} (hm : m.Lexable)
    (h : m.lexeme? = some lexeme) : ∀ c ∈ lexeme.text, c.isPrintable = true := by
  have hletters : ∀ {t : Text}, (∀ c ∈ t, c.isLetter = true) → ∀ c ∈ t, c.isPrintable = true :=
    fun ht c hc => CodePoint.isPrintable_of_isLetter (ht c hc)
  cases m with
  | number x =>
      obtain rfl := Option.some.inj h
      show ∀ c ∈ x.format, _
      rw [Binary64.format_of_isLiteral hm]
      exact isPrintable_positional _ _
  | char t =>
      obtain rfl := Option.some.inj h
      exact isPrintable_quoteChar t
  | string t =>
      obtain rfl := Option.some.inj h
      exact isPrintable_quoteString t
  | ident n =>
      obtain rfl := Option.some.inj h
      exact hletters hm.2
  | selector s =>
      obtain ⟨t, ht, hsmall, -⟩ := Selector.characters?_of_hasLetter hm.2
      rw [lexeme?, ht] at h
      obtain rfl := Option.some.inj h
      refine List.forall_mem_cons.mpr ⟨by decide, ?_⟩
      exact hletters fun c hc => CodePoint.isLetter_of_isSmallLetter (hsmall c hc)
  | prim p =>
      obtain rfl := Option.some.inj h
      rw [Writing.text_primitive, Primitive.display]
      cases hg : p.glyph? with
      | some g =>
          refine List.forall_mem_singleton.mpr ?_
          exact CodePoint.isPrintable_of_contains Primitive.ascending_glyphs (by decide +kernel)
            (Primitive.contains_glyphs hg)
      | none => exact hletters p.name_isLetter.2
  | punctuation p =>
      obtain rfl := Option.some.inj h
      obtain ⟨c, hc⟩ := hm
      rw [(punctuation_spec hc).2.1]
      exact List.forall_mem_singleton.mpr (isPrintable_of_ofPunctuation? hc)
  | strandEnd | missing => cases h

/-! ## Classes on a layout -/

namespace Layout

section

variable {P : CodePoint → Prop} {l : Layout}

theorem forall_push {t : Text} (hl : ∀ c ∈ l.text, P c) (ht : ∀ c ∈ t, P c) :
    ∀ c ∈ (l.push t).text, P c := by
  rw [text_push]
  exact List.forall_mem_append.mpr ⟨hl, ht⟩

/-- A class of a space and of the lexemes of marks stays the class of what is written. -/
theorem forall_put (hspace : P ' ') {m : Mark} (hl : ∀ c ∈ l.text, P c)
    (hm : ∀ lexeme, m.lexeme? = some lexeme → ∀ c ∈ lexeme.text, P c) :
    ∀ c ∈ (l.put m).text, P c := by
  obtain ⟨gap, hgap, hroom⟩ := l.text_makeRoom m
  have hgaps : ∀ c ∈ gap, P c := by
    rcases hgap with rfl | rfl
    · exact nofun
    · exact List.forall_mem_singleton.mpr hspace
  cases hlexeme : m.lexeme? with
  | none =>
      rw [text_put_of_none hlexeme]
      exact hl
  | some lexeme =>
      rw [text_put_of_lexeme hlexeme, hroom]
      refine List.forall_mem_append.mpr ⟨?_, hm lexeme hlexeme⟩
      exact List.forall_mem_append.mpr ⟨hl, hgaps⟩

theorem forall_putAll (hspace : P ' ') {ms : List Mark} (hl : ∀ c ∈ l.text, P c)
    (hms : ∀ m ∈ ms, ∀ lexeme, m.lexeme? = some lexeme → ∀ c ∈ lexeme.text, P c) :
    ∀ c ∈ (ms.foldl put l).text, P c := by
  induction ms generalizing l with
  | nil => exact hl
  | cons m ms ih =>
      obtain ⟨hm, hms⟩ := List.forall_mem_cons.mp hms
      exact ih (forall_put hspace hl hm) hms

/-- A class of the printable characters stays the class of a line, if the text of a comment is in
it. -/
theorem forall_line (hP : ∀ c : CodePoint, c.isPrintable = true → P c) {bound : Text → Bool}
    {i : Item} (hl : ∀ c ∈ l.text, P c) (hi : i.WellFormed)
    (hcomment : ∀ t span, i = .comment t span → ∀ c ∈ t, P c) :
    ∀ c ∈ (l.line bound i).text, P c := by
  have hstring : ∀ {t : Text}, (∀ c ∈ t, c.isPrintable = true) → ∀ c ∈ t, P c :=
    fun ht c hc => hP c (ht c hc)
  have hmarks : ∀ m ∈ i.marks.map (Mark.resolve bound), m.Lexable :=
    Mark.lexable_map_resolve hi.lexable
  refine forall_putAll (hP _ (by decide)) ?_ fun m hm lexeme hlexeme =>
    hstring (Mark.isPrintable_text (hmarks m hm) hlexeme)
  cases i with
  | binding n ws _ _ =>
      refine forall_push (forall_push hl ?_) (hstring (by decide))
      exact hstring fun c hc => CodePoint.isPrintable_of_isLetter (hi.1.2 c hc)
  | comment t span => exact forall_push (forall_push hl (hstring (by decide))) (hcomment t span rfl)
  | words _ _ | newlines _ | missing => exact hl

end

/-- A line of words is printable. -/
theorem isPrintable_line {l : Layout} {bound : Text → Bool} {i : Item}
    (hl : ∀ c ∈ l.text, c.isPrintable = true) (hi : i.WellFormed)
    (hwords : ∀ t span, i ≠ .comment t span) :
    ∀ c ∈ (l.line bound i).text, c.isPrintable = true :=
  forall_line (fun _ h => h) hl hi fun t span h => absurd h (hwords t span)

end Layout

end GlyphFormat
