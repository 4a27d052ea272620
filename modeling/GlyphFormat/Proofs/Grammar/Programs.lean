import GlyphFormat.Proofs.Grammar.Faults
import GlyphFormat.Proofs.Grammar.Lines
import GlyphFormat.Proofs.Token.Lexes

/-!
# Derivations of programs

A program is a sequence of lines, each but the last with a line break behind it. Blank lines between
two others leave one item. Reading reports nothing exactly when the tokens can be derived, and then
the items are those of the derivation (`parse_iff`). What holds of the reading of a program is shown
from line to line (`Cursor.line_induction`).
-/

namespace GlyphFormat

/-- No token is left but the end of input. -/
def AtEnd (ts : List Token) : Prop := ∀ t ∈ ts.head?, t.lexeme = .endOfInput

/-- The end of input is the last of the tokens and no other one. -/
def EndsInput (ts : List Token) : Prop :=
  ∃ us t, ts = us ++ [t] ∧ t.lexeme = .endOfInput ∧ ∀ u ∈ us, u.lexeme ≠ .endOfInput

theorem EndsInput.behind {us ts : List Token} (h : EndsInput (us ++ ts))
    (hus : ∀ u ∈ us, u.lexeme ≠ .endOfInput) : EndsInput ts := by
  obtain ⟨vs, t, heq, ht, hvs⟩ := h
  rcases List.eq_nil_or_concat ts with rfl | ⟨ws, u, rfl⟩
  · rw [List.append_nil] at heq
    exact absurd ht (hus t (by rw [heq]; simp))
  · rw [List.concat_eq_append, ← List.append_assoc] at heq
    obtain ⟨rfl, hu⟩ := List.append_inj' heq rfl
    obtain rfl := List.singleton_inj.mp hu
    exact ⟨ws, u, List.concat_eq_append, ht, fun v hv => hvs v (List.mem_append_right _ hv)⟩

theorem EndsInput.behind_newline {t : Token} {ts : List Token} (h : EndsInput (t :: ts))
    (ht : t.lexeme = .newline) : EndsInput ts :=
  @EndsInput.behind [t] ts h (List.forall_mem_singleton.mpr (by rw [ht]; exact nofun))

/-- Where the first token is the end of input, it is the only one. -/
theorem EndsInput.of_atEnd {ts : List Token} (h : EndsInput ts) (hts : AtEnd ts) :
    ∃ t, ts = [t] ∧ t.lexeme = .endOfInput := by
  obtain ⟨us, t, rfl, ht, hus⟩ := h
  cases us with
  | nil => exact ⟨t, rfl, ht⟩
  | cons u us => exact absurd (hts u rfl) (hus u List.mem_cons_self)

/-- The tokens of a source end with the only end of input. -/
theorem endsInput_tokenize {s : Text} (h : (tokenize s).2 = none) : EndsInput (tokenize s).1 := by
  have hls := lexes_lexemes h
  obtain ⟨us, vs, hsplit, hus, hvs⟩ := List.map_eq_append_iff.mp (lexes_iff.mp hls).2
  obtain ⟨t, rfl, ht⟩ := List.map_eq_singleton_iff.mp hvs
  refine ⟨us, t, hsplit, ht, fun u hu hend => ?_⟩
  have hvalid := hls.valid u.lexeme (by rw [← hus]; exact List.mem_map_of_mem hu)
  rw [hend] at hvalid
  exact hvalid

/-- The item for the blank lines in front of a line. -/
def gapItems (blank : Option Span) : List Item :=
  (blank.map fun s => Item.newlines (some s)).toList

/-- The tokens make up the items of the remaining lines. As in reading, `started` tells that there
was a line before, and `blank` is the first of the blank lines since then. -/
inductive DerivesLines (path : Option Path) :
    Bool → Option Span → List Token → List Item → Prop
  | done {started : Bool} {blank : Option Span} {ts : List Token} (h : AtEnd ts) :
      DerivesLines path started blank ts []
  | blank {started : Bool} {blank : Option Span} {t : Token} {ts : List Token} {is : List Item}
      (ht : t.lexeme = .newline)
      (h : DerivesLines path started
        (if started && blank.isNone then some (t.span path) else blank) ts is) :
      DerivesLines path started blank (t :: ts) is
  | line {started : Bool} {blank : Option Span} {us : List Token} {t : Token} {ts : List Token}
      {items is : List Item} (hl : DerivesLine path items us) (ht : t.lexeme = .newline)
      (h : DerivesLines path true none ts is) :
      DerivesLines path started blank (us ++ t :: ts) (gapItems blank ++ items ++ is)
  | last {started : Bool} {blank : Option Span} {us ts : List Token} {items : List Item}
      (hl : DerivesLine path items us) (hts : AtEnd ts) :
      DerivesLines path started blank (us ++ ts) (gapItems blank ++ items)

/-- The first token of a line is neither a line break nor the end. -/
theorem DerivesLine.first {path : Option Path} {items : List Item} {ts : List Token}
    (h : DerivesLine path items ts) : ∃ t us, ts = t :: us ∧ t.lexeme ≠ .newline ∧
      t.lexeme ≠ .endOfInput := by
  have hstatement : ∀ {item : Item} {ts us : List Token}, DerivesStatement path item ts →
      ∃ t vs, ts ++ us = t :: vs ∧ t.lexeme ≠ .newline ∧ t.lexeme ≠ .endOfInput := by
    intro item ts us hs
    obtain ⟨t, vs, rfl, ht⟩ := Cursor.startsWord_of_statement hs
    refine ⟨t, vs ++ us, rfl, fun hl => ?_, fun hl => ?_⟩ <;>
      · rw [hl] at ht
        cases ht
  cases h with
  | comment ht => exact ⟨_, _, rfl, by rw [ht]; exact nofun, by rw [ht]; exact nofun⟩
  | statement hs =>
      obtain ⟨t, vs, hts, hne⟩ := @hstatement _ _ [] hs
      rw [List.append_nil] at hts
      exact ⟨t, vs, hts, hne⟩
  | commented hs ht => exact hstatement hs

namespace Cursor

variable {c d : Cursor} {started : Bool} {blank : Option Span} {items : List Item}

/-! ## The loop over lines -/

theorem lines_end (h : c.atEnd = true) : c.lines started blank = (.empty, c) := by
  rw [lines, dif_pos h]

theorem lines_blank (ha : c.atEnd = false) (hn : c.sees .newline = true) :
    c.lines started blank =
      c.advance.lines started (if started && blank.isNone then some c.here else blank) := by
  rw [lines, dif_neg (Bool.eq_false_iff.mp ha), dif_pos hn]

theorem lines_of_gives (ha : c.atEnd = false) (hn : c.sees .newline = false)
    (h : c.line.Gives items d) : c.lines started blank =
      ((d.lines true none).1.withItems (gapItems blank ++ items), (d.lines true none).2) := by
  obtain ⟨hd, hline⟩ := h
  rw [lines, dif_neg (Bool.eq_false_iff.mp ha), dif_neg (Bool.eq_false_iff.mp hn)]
  split
  · rename_i items' d' _ hline'
    obtain ⟨rfl, rfl⟩ := Read.Gives.unique ⟨hd, hline⟩ ⟨_, hline'⟩
    rfl
  · rename_i hline'
    rw [hline] at hline'
    cases hline'

theorem lines_line (ha : c.atEnd = false) (hn : c.sees .newline = false)
    (h : c.line.Gives items d) :
    (c.lines started blank).1 = (d.lines true none).1.withItems (gapItems blank ++ items) := by
  rw [lines_of_gives ha hn h]

/-- A line that does not fit leaves its error, and reading goes on behind it. -/
theorem lines_of_faults {e : ParseError} (ha : c.atEnd = false) (hn : c.sees .newline = false)
    (h : c.line.Faults e d) : c.lines started blank =
      (((d.recover.lines true none).1.withDiagnostic (e.diagnostic c.path)).withItems
        (gapItems blank), (d.recover.lines true none).2) := by
  rw [lines, dif_neg (Bool.eq_false_iff.mp ha), dif_neg (Bool.eq_false_iff.mp hn)]
  split
  · rename_i items d' hd' hline'
    exact absurd h (Read.Gives.not_faults ⟨hd', hline'⟩)
  · rename_i e' d' hd' hline'
    obtain ⟨hd, hline⟩ := h
    obtain ⟨rfl, rfl⟩ := Read.faults_fail.mp ⟨hd, hline'.symm.trans hline⟩
    rfl

theorem lines_error {e : ParseError} (ha : c.atEnd = false) (hn : c.sees .newline = false)
    (h : c.line.Faults e d) : (c.lines started blank).1 =
      ((d.recover.lines true none).1.withDiagnostic (e.diagnostic c.path)).withItems
        (gapItems blank) := by
  rw [lines_of_faults ha hn h]

/-- Induction from line to line, just as the lines are read: there is nothing left, or a blank line
in front, or a line that is read, or one that does not fit and is skipped. -/
@[elab_as_elim]
theorem line_induction {motive : Cursor → Prop}
    (ended : ∀ c : Cursor, c.atEnd = true → motive c)
    (blank : ∀ c : Cursor, c.atEnd = false → c.sees .newline = true → motive c.advance → motive c)
    (line : ∀ (c : Cursor) (items : List Item) (d : Cursor), c.atEnd = false →
      c.sees .newline = false → c.line.Gives items d → motive d → motive c)
    (error : ∀ (c : Cursor) (e : ParseError) (d : Cursor), c.atEnd = false →
      c.sees .newline = false → c.line.Faults e d → motive d.recover → motive c)
    (c : Cursor) : motive c := by
  by_cases ha : c.atEnd = true
  · exact ended c ha
  have ha := Bool.eq_false_iff.mpr ha
  by_cases hn : c.sees .newline = true
  · have hlt := (follows_advance_of_sees hn (by decide)).le
    exact blank c ha hn (line_induction ended blank line error c.advance)
  have hn := Bool.eq_false_iff.mpr hn
  rcases Read.gives_or_faults c.line with ⟨items, d, hline⟩ | ⟨e, d, hline⟩
  · have hlt := line_lt hline.choose_spec hn ha
    exact line c items d ha hn hline (line_induction ended blank line error d)
  · have hlt := recover_lt hline.follows ha
    exact error c e d ha hn hline (line_induction ended blank line error d.recover)
termination_by c.remaining

theorem atEnd_of_rest (h : c.atEnd = true) : AtEnd c.rest := by
  intro t ht
  have hl := (sees_iff rfl).mp h
  cases hr : c.rest with
  | nil => rw [hr] at ht; cases ht
  | cons u us =>
      rw [hr] at ht
      obtain rfl : u = t := Option.some.inj ht
      rwa [current_of_rest hr] at hl

theorem atEnd_iff : c.atEnd = true ↔ AtEnd c.rest := by
  refine ⟨atEnd_of_rest, fun h => (sees_iff rfl).mpr ?_⟩
  cases hr : c.rest with
  | nil => rw [current, hr]
  | cons u us =>
      rw [hr] at h
      rw [current_of_rest hr]
      exact h u rfl

/-- A program that is read without a report is derived. By induction from line to line. -/
theorem derives_lines (h : (c.lines started blank).1.diagnostics = []) (hdepth : c.depth = 0) :
    DerivesLines c.path started blank c.rest (c.lines started blank).1.items := by
  induction c using line_induction generalizing started blank with
  | ended c ha =>
      rw [lines_end ha]
      exact .done (atEnd_iff.mp ha)
  | blank c ha hn ih =>
      rw [lines_blank ha hn] at h ⊢
      rw [rest_of_sees hn (by decide)]
      exact .blank ((sees_iff rfl).mp hn) (ih h hdepth)
  | line c items f ha hn hline ih =>
      rw [lines_line ha hn hline] at h ⊢
      obtain ⟨ts, d, htakes, hder, hend⟩ := derives_line hline ⟨hn, ha, hdepth⟩
      rw [htakes.rest]
      rcases gives_expectLineEnd_iff.mp hend with ⟨hs, rfl⟩ | ⟨hs, rfl⟩
      · have hrest := ih h (htakes.depth.trans hdepth)
        rw [show d.advance.path = c.path from htakes.path] at hrest
        rw [rest_of_sees hs (by decide)]
        exact .line hder ((sees_iff rfl).mp hs) hrest
      · rw [lines_end hs]
        have hlast : DerivesLines c.path started blank (ts ++ _) (gapItems blank ++ items) :=
          .last hder (atEnd_iff.mp hs)
        rwa [← List.append_nil (gapItems blank ++ items)] at hlast
  | error c e f ha hn hline _ =>
      rw [lines_error ha hn hline] at h
      exact absurd h (List.cons_ne_nil _ _)

theorem takes_past {us vs : List Token} (h : c.rest = us ++ vs) :
    c.Takes us (c.past us.length) ∧ (c.past us.length).rest = vs := by
  have hrest : (c.past us.length).rest = vs := by rw [rest_past, h, List.drop_left]
  exact ⟨⟨by rw [hrest, h], rfl⟩, hrest⟩

theorem startsLine_of_derives {path : Option Path} {us vs : List Token}
    (h : DerivesLine path items us) (hr : c.rest = us ++ vs) :
    c.sees .newline = false ∧ c.atEnd = false := by
  obtain ⟨t, us, rfl, hnewline, hend⟩ := h.first
  have hcur := current_of_rest hr
  refine ⟨Bool.eq_false_iff.mpr fun hs => hnewline ?_, Bool.eq_false_iff.mpr fun hs => hend ?_⟩
  · rw [← hcur]
    exact (sees_iff rfl).mp hs
  · rw [← hcur]
    exact (sees_iff rfl).mp hs

/-- A program that is derived is read without a report. -/
theorem lines_of_derives {path : Option Path} {ts : List Token} {is : List Item}
    (h : DerivesLines path started blank ts is) :
    ∀ {c : Cursor}, c.rest = ts → c.path = path → c.depth = 0 →
      (c.lines started blank).1 = ⟨is, []⟩ := by
  induction h with
  | done h =>
      rintro c rfl - -
      rw [lines_end (atEnd_iff.mpr h)]
      rfl
  | @blank started blank t ts is ht h ih =>
      rintro c hr rfl hdepth
      have hcur := current_of_rest hr
      have hl : c.current.lexeme = .newline := by rw [hcur, ht]
      rw [lines_blank (sees_eq hl _) (sees_eq hl _)]
      have hadvance : c.advance.rest = ts := by rw [advance, hr]; rfl
      have := ih hadvance rfl hdepth
      rwa [here, hcur]
  | @line started blank us t ts items is hl ht h ih =>
      rintro c hr rfl hdepth
      obtain ⟨htakes, hrest⟩ := takes_past hr
      obtain ⟨hn, ha⟩ := startsLine_of_derives hl hr
      have hs : (c.past us.length).sees .newline = true :=
        (sees_iff rfl).mpr (by rw [current_of_rest hrest, ht])
      have hend := gives_expectLineEnd_iff.mpr (Or.inl ⟨hs, rfl⟩)
      have hadvance : (c.past us.length).advance.rest = ts := by rw [advance, hrest]; rfl
      rw [lines_line ha hn (gives_line hl htakes rfl hdepth hend),
        ih hadvance htakes.path (htakes.depth.trans hdepth)]
      rfl
  | @last started blank us ts items hl hts =>
      rintro c hr rfl hdepth
      obtain ⟨htakes, hrest⟩ := takes_past hr
      obtain ⟨hn, ha⟩ := startsLine_of_derives hl hr
      have hs : (c.past us.length).atEnd = true := atEnd_iff.mpr (by rw [hrest]; exact hts)
      have hend := gives_expectLineEnd_iff.mpr (Or.inr ⟨hs, rfl⟩)
      rw [lines_line ha hn (gives_line hl htakes rfl hdepth hend), lines_end hs]
      show (⟨gapItems blank ++ items ++ [], []⟩ : Program) = _
      rw [List.append_nil]

end Cursor

/-- A fault that stops the scan is all that is read. -/
theorem parse_of_fault {s : Text} {path : Option Path} {e : LexError}
    (h : (tokenize s).2 = some e) : parse s path = ⟨[], [e.diagnostic path]⟩ := by
  unfold parse
  split
  · rename_i ts f heq
    rw [heq] at h
    rw [Option.some.inj h]
  · rename_i ts heq
    rw [heq] at h
    cases h

theorem parse_of_tokens {s : Text} {path : Option Path} (h : (tokenize s).2 = none) :
    parse s path = ((Cursor.ofTokens path (tokenize s).1).lines false none).1 := by
  unfold parse
  split
  · rename_i ts e heq
    rw [heq] at h
    cases h
  · rename_i ts heq
    rw [heq]
    rfl

/-- Reading a source reports nothing exactly when its tokens make up a program, and then it gives
the items of that program. -/
theorem parse_iff {s : Text} {path : Option Path} {is : List Item} :
    parse s path = ⟨is, []⟩ ↔
      (tokenize s).2 = none ∧ DerivesLines path false none (tokenize s).1 is := by
  unfold parse
  split
  · rename_i ts e heq
    rw [heq]
    exact ⟨fun h => (List.cons_ne_nil _ _ (Program.mk.inj h).2).elim, fun h => nomatch h.1⟩
  · rename_i ts heq
    rw [heq]
    constructor
    · intro h
      have hdiag : ((Cursor.ofTokens path ts).lines false none).1.diagnostics = [] := by
        rw [show ((Cursor.ofTokens path ts).lines false none).1 = _ from h]
      have := Cursor.derives_lines hdiag rfl
      rw [show ((Cursor.ofTokens path ts).lines false none).1 = _ from h] at this
      exact ⟨rfl, this⟩
    · exact fun h => Cursor.lines_of_derives h.2 rfl rfl rfl

end GlyphFormat
