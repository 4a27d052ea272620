import GlyphFormat.Proofs.Token.Written

/-!
# Texts in pieces

A text is a row of lexemes with blanks between them. A `Piece` is a lexeme as it stands there, and
`Cut` says that a text begins with pieces, none of which runs into what comes next. In how a text is
cut to its end there is no choice (`Cut.unique`).

A text is cut to its end just when it spells lexemes, so this is the grammar of the whole source:
which sources are accepted, and with which tokens.
-/

namespace GlyphFormat

open Scanner (isSpace)

/-- A lexeme as it stands in a text, with the blanks in front of it. -/
structure Piece where
  gap : Text
  body : Text
  lexeme : Lexeme

namespace Piece

/-- The text that pieces make up. -/
def textOf (ps : List Piece) : Text := ps.flatMap fun p => p.gap ++ p.body

theorem textOf_cons (p : Piece) (ps : List Piece) :
    textOf (p :: ps) = p.gap ++ (p.body ++ textOf ps) := by
  rw [textOf, List.flatMap_cons, List.append_assoc]
  rfl

theorem textOf_append (ps qs : List Piece) : textOf (ps ++ qs) = textOf ps ++ textOf qs :=
  List.flatMap_append

end Piece

/-- The text is cut into pieces and a rest. Every piece is a lexeme as it is written, behind spaces
and tabs, and apart from what follows it. -/
inductive Cut : List Piece → Text → Text → Prop
  | nil (s : Text) : Cut [] s s
  | cons {p : Piece} {ps : List Piece} {s rest : Text} (hgap : ∀ c ∈ p.gap, isSpace c = true)
      (hbody : p.lexeme.Written p.body) (hapart : p.lexeme.Apart p.body s) (h : Cut ps s rest) :
      Cut (p :: ps) (p.gap ++ (p.body ++ s)) rest

/-- The text is cut into the pieces, up to blanks at its end. -/
def Text.CutInto (s : Text) (ps : List Piece) : Prop :=
  ∃ w, (∀ c ∈ w, isSpace c = true) ∧ Cut ps s w

namespace Cut

variable {ps qs : List Piece} {s t rest : Text}

theorem eq (h : Cut ps s rest) : s = Piece.textOf ps ++ rest := by
  induction h with
  | nil => rfl
  | cons _ _ _ _ ih => rw [ih, Piece.textOf_cons, List.append_assoc, List.append_assoc]

theorem mem (h : Cut ps s rest) : ∀ p ∈ ps, (∀ c ∈ p.gap, isSpace c = true) ∧
    p.lexeme.Written p.body := by
  induction h with
  | nil => exact nofun
  | cons hgap hbody _ _ ih => exact List.forall_mem_cons.mpr ⟨⟨hgap, hbody⟩, ih⟩

/-- A cut text spells the lexemes of its pieces, if blanks are all that is left. -/
theorem lexes (h : Cut ps s rest) (hrest : ∀ c ∈ rest, isSpace c = true) :
    Lexes s (ps.map Piece.lexeme) := by
  induction h with
  | nil s => exact List.append_nil s ▸ Lexes.spaces .done hrest
  | @cons p ps s rest hgap hbody hapart _ ih =>
      obtain ⟨hne, hfirst, -⟩ := hbody.first
      refine Lexes.spaces (.lexeme ?_ (hbody.scan_append hapart) ?_) hgap
      · obtain ⟨c, u, hu⟩ := List.exists_cons_of_ne_nil hne
        rw [hu] at hfirst ⊢
        exact hfirst
      · rw [List.drop_left]
        exact ih hrest

/-- The blanks in front of a piece end where its lexeme begins. -/
theorem takeWhile_gap {p : Piece} (hgap : ∀ c ∈ p.gap, isSpace c = true)
    (hbody : p.lexeme.Written p.body) (s : Text) :
    (p.gap ++ (p.body ++ s)).takeWhile isSpace = p.gap := by
  obtain ⟨hne, hfirst, -⟩ := hbody.first
  obtain ⟨c, u, hu⟩ := List.exists_cons_of_ne_nil hne
  rw [hu] at hfirst ⊢
  exact Text.takeWhile_run hgap fun d hd => Option.some.inj hd ▸ hfirst

/-- The first piece is known from the text. -/
theorem first_unique {p q : Piece} (hp : ∀ c ∈ p.gap, isSpace c = true)
    (hq : ∀ c ∈ q.gap, isSpace c = true) (hpbody : p.lexeme.Written p.body)
    (hqbody : q.lexeme.Written q.body) (hpapart : p.lexeme.Apart p.body s)
    (hqapart : q.lexeme.Apart q.body t) (heq : p.gap ++ (p.body ++ s) = q.gap ++ (q.body ++ t)) :
    p = q ∧ s = t := by
  have hgap : p.gap = q.gap := by
    rw [← takeWhile_gap hp hpbody s, heq, takeWhile_gap hq hqbody t]
  rw [hgap] at heq
  replace heq := List.append_cancel_left heq
  have hscan : Scan.found p.body.length p.lexeme = .found q.body.length q.lexeme := by
    rw [← hpbody.scan_append hpapart, heq, hqbody.scan_append hqapart]
  obtain ⟨hlen, hlexeme⟩ := Scan.mk.inj hscan
  obtain ⟨hbody, hrest⟩ := List.append_inj heq hlen
  obtain ⟨gap, body, lexeme⟩ := p
  obtain ⟨gap', body', lexeme'⟩ := q
  cases hgap
  cases hbody
  cases Except.ok.inj hlexeme
  exact ⟨rfl, hrest⟩

/-- No piece stands in blanks. -/
theorem not_blank {p : Piece} (hbody : p.lexeme.Written p.body)
    (hblank : ∀ c ∈ p.gap ++ (p.body ++ s), isSpace c = true) : False := by
  obtain ⟨hne, hfirst, -⟩ := hbody.first
  obtain ⟨c, u, hu⟩ := List.exists_cons_of_ne_nil hne
  rw [hu] at hfirst hblank
  exact absurd (hfirst.symm.trans (hblank c (by simp))) (by decide)

/-- There is one way only to cut a text to its end. -/
theorem unique {w w' : Text} (hp : Cut ps s w) (hq : Cut qs s w')
    (hw : ∀ c ∈ w, isSpace c = true) (hw' : ∀ c ∈ w', isSpace c = true) : ps = qs := by
  induction hp generalizing qs w' with
  | nil s =>
      cases hq with
      | nil => rfl
      | cons _ hbody _ _ => exact (not_blank hbody hw).elim
  | @cons p ps s w hgap hbody hapart _ ih =>
      generalize htext : p.gap ++ (p.body ++ s) = t at hq
      cases hq with
      | nil => exact (not_blank hbody (htext ▸ hw')).elim
      | @cons q qs t _ hgap' hbody' hapart' hrest =>
          obtain ⟨rfl, rfl⟩ := first_unique hgap hgap' hbody hbody' hapart hapart' htext
          rw [ih hrest hw hw']

end Cut

/-- What spells lexemes is cut into them. -/
theorem Lexes.cutInto {s : Text} {ls : List Lexeme} (h : Lexes s ls) :
    ∃ ps, s.CutInto ps ∧ ps.map Piece.lexeme = ls := by
  induction h with
  | done => exact ⟨[], ⟨[], nofun, .nil []⟩, rfl⟩
  | @space c s ls hc _ ih =>
      obtain ⟨ps, ⟨w, hw, hcut⟩, hls⟩ := ih
      cases hcut with
      | nil => exact ⟨[], ⟨c :: s, List.forall_mem_cons.mpr ⟨hc, hw⟩, .nil _⟩, hls⟩
      | @cons p ps t _ hgap hbody hapart hrest =>
          have hgap' : ∀ d ∈ c :: p.gap, isSpace d = true := List.forall_mem_cons.mpr ⟨hc, hgap⟩
          exact ⟨{ p with gap := c :: p.gap } :: ps,
            ⟨w, hw, .cons (p := { p with gap := c :: p.gap }) hgap' hbody hapart hrest⟩, hls⟩
  | @lexeme s n l ls _ hscan _ ih =>
      obtain ⟨u, v, rfl, rfl, hbody, hapart⟩ := Lexeme.exists_written hscan
      rw [List.drop_left] at ih
      obtain ⟨ps, ⟨w, hw, hcut⟩, hls⟩ := ih
      exact ⟨⟨[], u, l⟩ :: ps, ⟨w, hw, .cons (p := ⟨[], u, l⟩) nofun hbody hapart hcut⟩,
        congrArg (l :: ·) hls⟩

/-- The lexical grammar: a source is scanned without a fault just when it is a row of lexemes and
blanks in which no lexeme runs on, the tokens are these lexemes and the end of input, and there is
one such row only. -/
theorem tokenize_iff_cutInto (s : Text) :
    (∀ ls, ((tokenize s).2 = none ∧
        (tokenize s).1.map Token.lexeme = ls ++ [.endOfInput]) ↔
      ∃ ps, s.CutInto ps ∧ ps.map Piece.lexeme = ls) ∧
      ∀ ps qs, s.CutInto ps → s.CutInto qs → ps = qs := by
  refine ⟨fun ls => lexes_iff.symm.trans ⟨Lexes.cutInto, ?_⟩, ?_⟩
  · rintro ⟨ps, ⟨w, hw, hcut⟩, rfl⟩
    exact hcut.lexes hw
  · rintro ps qs ⟨w, hw, hcut⟩ ⟨w', hw', hcut'⟩
    exact hcut.unique hcut' hw hw'

end GlyphFormat
