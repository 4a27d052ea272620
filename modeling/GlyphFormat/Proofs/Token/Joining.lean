import GlyphFormat.Proofs.Token.Canonical
import GlyphFormat.Proofs.Token.Lexes

/-!
# What may stand next to what

Two lexemes of a line run into each other only where a letter meets a letter, or a digit meets a
digit or a point (`CodePoint.joins`). Whether more text may follow a text therefore depends on its
last character alone, and the texts that can be continued (`Begins`) grow by spaces and by
canonical texts of lexemes.
-/

namespace GlyphFormat

/-- Side by side the two code points may belong to one lexeme. -/
def CodePoint.joins (c d : CodePoint) : Bool :=
  (c.isLetter && d.isLetter) || (c.isDigit && (d.isDigit || d = '.'))

theorem CodePoint.joins_eq_false {c d : CodePoint} (hl : c.isLetter = false)
    (hd : c.isDigit = false) : c.joins d = false := by
  rw [joins, hl, hd]
  rfl

/-- Nothing joins a code point that is neither a letter nor a digit nor a point. -/
theorem CodePoint.joins_eq_false_right {c d : CodePoint} (hl : d.isLetter = false)
    (hd : d.isDigit = false) (hp : d ≠ '.') : c.joins d = false := by
  rw [joins, hl, hd, decide_eq_false hp, Bool.and_false, Bool.false_or, Bool.or_false,
    Bool.and_false]

theorem CodePoint.joins_eq_false_of_isLetter {c d : CodePoint} (hc : c.isLetter = false)
    (hd : d.isLetter = true) : c.joins d = false := by
  have hdigit : d.isDigit = false := Bool.eq_false_iff.mpr fun h => by
    rw [isLetter_of_isDigit h] at hd
    cases hd
  have hpoint : d ≠ '.' := fun h => by
    have h₁ := le_val_of_isLetter hd
    have h₂ : d.val = 0x2E := eq_ofChar_iff.mp h
    omega
  rw [joins, hc, hdigit, decide_eq_false hpoint, Bool.false_and, Bool.or_self, Bool.and_false,
    Bool.or_self]

/-- Marks that join nothing before them. -/
def separators : Text := [' ', '\n', '#', '=', ':']

theorem CodePoint.joins_separator {c d : CodePoint} (hd : d ∈ separators) : c.joins d = false := by
  have all : ∀ d ∈ separators, d.isLetter = false ∧ d.isDigit = false ∧ d ≠ ofChar '.' := by
    decide +kernel
  obtain ⟨hletter, hdigit, hpoint⟩ := all d hd
  exact joins_eq_false_right hletter hdigit hpoint

/-- A text that begins with a separator may follow any text. -/
theorem Text.apart_of_separator {t u : Text} {d : CodePoint} (hu : u.head? = some d)
    (hd : d ∈ separators) : ∀ c ∈ t.getLast?, ∀ e ∈ u.head?, c.joins e = false := by
  intro c _ e he
  obtain rfl : d = e := Option.some.inj (hu.symm.trans he)
  exact CodePoint.joins_separator hd

theorem Primitive.glyph_ne_point {p : Primitive} {g : CodePoint} (h : p.glyph? = some g) :
    g ≠ '.' := by
  have all : ∀ p ∈ Primitive.all, ∀ g ∈ p.glyph?, g ≠ CodePoint.ofChar '.' := by decide +kernel
  exact all p (mem_all p) g h

namespace Lexeme

/-! ## The ends of a canonical text -/

/-- A lexeme that does not take the rest of its line. -/
def IsInline (l : Lexeme) : Prop := ∀ t, l ≠ .comment t

/-- The last code point of a lexeme's text, which alone decides what the lexeme absorbs. -/
structure LastOf (l : Lexeme) (c : CodePoint) : Prop where
  getLast : l.text.getLast? = some c
  joins : ∀ d, l.absorbs d = true → c.joins d = true

theorem getLast?_digits {s t : Text} (ht : t ≠ []) (h : ∀ c ∈ t, c.isDigit = true) :
    ∃ c, (s ++ t).getLast? = some c ∧ c.isDigit = true := by
  refine ⟨t.getLast ht, ?_, h _ (List.getLast_mem ht)⟩
  rw [List.getLast?_append, List.getLast?_eq_some_getLast ht]
  rfl

theorem getLast?_format {x : Binary64} (hx : x.IsLiteral) :
    ∃ c, x.format.getLast? = some c ∧ c.isDigit = true := by
  rw [Binary64.format_of_isLiteral hx]
  generalize (Binary64.shortest x.magnitude).1 = d
  by_cases hk : (Binary64.shortest x.magnitude).2 = 0
  · rw [hk, positional_zero, ← List.nil_append (Text.ofNat d)]
    exact getLast?_digits (Text.ofNat_ne_nil d) fun c => Text.isDigit_of_mem_ofNat
  · have hpos := Nat.pos_of_ne_zero hk
    rw [positional_pos hpos, List.append_cons]
    refine getLast?_digits (fun hnil => ?_) fun c => isDigit_of_mem_places
    have hlen := length_places (d := d) hpos
    rw [hnil, List.length_nil] at hlen
    omega

theorem exists_lastOf {l : Lexeme} (hl : l.Valid) (hinline : l.IsInline) :
    ∃ c, l.LastOf c := by
  have hplain : ∀ {c : CodePoint}, l.text.getLast? = some c → (∀ d, l.absorbs d = false) →
      ∃ c, l.LastOf c :=
    fun h hno => ⟨_, h, fun d hd => absurd ((hno d).symm.trans hd) (by decide)⟩
  cases l with
  | number x =>
      obtain ⟨c, hlast, hc⟩ := getLast?_format hl
      refine ⟨c, hlast, fun d hd => ?_⟩
      rw [CodePoint.joins, hc, Bool.true_and]
      exact Bool.or_eq_true_iff.mpr (Or.inr hd)
  | ident n =>
      refine ⟨n.getLast hl.1, List.getLast?_eq_some_getLast hl.1, fun d hd => ?_⟩
      rw [CodePoint.joins, hl.2 _ (List.getLast_mem hl.1), show d.isLetter = true from hd]
      rfl
  | selector s =>
      have htext : text (.selector s) = CodePoint.ofChar ':' :: s := rfl
      refine ⟨s.getLast hl.1, ?_, fun d hd => ?_⟩
      · rw [htext, List.getLast?_cons, List.getLast?_eq_some_getLast hl.1]
        rfl
      · rw [CodePoint.joins, CodePoint.isLetter_of_isSmallLetter (hl.2 _ (List.getLast_mem hl.1)),
          CodePoint.isLetter_of_isSmallLetter hd]
        rfl
  | char t => exact hplain List.getLast?_concat fun _ => rfl
  | string t => exact hplain List.getLast?_concat fun _ => rfl
  | primitive p =>
      obtain ⟨g, hg⟩ := Option.isSome_iff_exists.mp hl
      refine hplain (c := g) ?_ fun _ => rfl
      simp [text, valueText, Primitive.display, hg]
  | comment t => exact absurd rfl (hinline t)
  | endOfInput => exact absurd hl id
  | underscore | openSquare | closeSquare | openRound | closeRound | pipe | assign | newline =>
      exact hplain (c := _) rfl fun _ => rfl

theorem text_ne_nil {l : Lexeme} (hl : l.Valid) (hinline : l.IsInline) : l.text ≠ [] := by
  obtain ⟨c, hc⟩ := exists_lastOf hl hinline
  exact fun hnil => by
    have := hc.getLast
    rw [hnil] at this
    cases this

/-- The canonical text of a lexeme is scanned as that lexeme in front of what its last character
does not join. -/
theorem scan_inline {l : Lexeme} (hl : l.Valid) (hinline : l.IsInline) {rest : Text}
    (hrest : ∀ c ∈ l.text.getLast?, ∀ d ∈ rest.head?, c.joins d = false) :
    scan (l.text ++ rest) = .found l.text.length l := by
  obtain ⟨c, hc⟩ := exists_lastOf hl hinline
  refine scan_text hl fun d hd => Bool.eq_false_iff.mpr fun habs => ?_
  exact absurd ((hrest c hc.getLast d hd).symm.trans (hc.joins d habs)) (by decide)

end Lexeme

/-! ## Texts that go on -/

/-- The text spells the lexemes as far as it goes: so it does in front of every text that its last
character does not join. -/
def Begins (t : Text) (ls : List Lexeme) : Prop :=
  ∀ rest ms, (∀ c ∈ t.getLast?, ∀ d ∈ rest.head?, c.joins d = false) →
    Lexes rest ms → Lexes (t ++ rest) (ls ++ ms)

namespace Begins

variable {t : Text} {ls : List Lexeme}

theorem nil : Begins [] [] := fun _ _ _ h => h

theorem lexes (h : Begins t ls) : Lexes t ls := by
  have := h [] [] (fun _ _ _ hd => absurd hd (by simp)) .done
  rwa [List.append_nil, List.append_nil] at this

theorem space (h : Begins t ls) : Begins (t ++ [CodePoint.ofChar ' ']) ls := by
  intro rest ms _ hrest
  rw [List.append_assoc]
  exact h _ ms (Text.apart_of_separator rfl (by decide)) (.space rfl hrest)

theorem lexeme {l : Lexeme} (h : Begins t ls) (hl : l.Valid) (hinline : l.IsInline)
    (hjoin : ∀ c ∈ t.getLast?, ∀ d ∈ l.text.head?, c.joins d = false) :
    Begins (t ++ l.text) (ls ++ [l]) := by
  intro rest ms hrest hms
  have hne := Lexeme.text_ne_nil hl hinline
  have hscan := Lexeme.scan_inline hl hinline fun c hc => hrest c (by
    rw [List.getLast?_append, hc]
    rfl)
  have hlex : Lexes (l.text ++ rest) (l :: ms) := by
    refine .lexeme (Lexeme.isSpace_first_of_scan hscan) hscan ?_
    rwa [List.drop_left]
  rw [List.append_assoc, List.append_assoc]
  refine h _ _ (fun e he d hd => hjoin e he d ?_) hlex
  cases hu : l.text with
  | nil => exact absurd hu hne
  | cons f u => rwa [hu] at hd

theorem newline (h : Begins t ls) : Begins (t ++ [CodePoint.ofChar '\n']) (ls ++ [.newline]) :=
  h.lexeme (l := .newline) trivial nofun (Text.apart_of_separator rfl (by decide))

end Begins

/-- A whole text can be gone on with on its next line. -/
theorem Lexes.begins {t : Text} {ls : List Lexeme} (h : Lexes t ls) :
    Begins (t ++ [CodePoint.ofChar '\n']) (ls ++ [.newline]) := by
  intro rest ms _ hrest
  rw [List.append_assoc, List.append_assoc]
  exact h.line hrest

end GlyphFormat
