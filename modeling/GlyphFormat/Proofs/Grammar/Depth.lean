import GlyphFormat.Proofs.Grammar.LogicalLines

/-!
# The count of open brackets

A cursor counts the open brackets, and the count is exact whatever the tokens are. A phrase that is
read leaves the count as it was, and its brackets are nested and match in kind; a phrase that fails,
in the middle of brackets maybe, has raised it by the brackets that it opened and did not close
(`Read.KeepsCount`).

Lines are read where no bracket counts as open, however many lines failed before
(`Cursor.depth_of_mem_lineStarts`).
-/

namespace GlyphFormat

/-! ## Brackets of phrases -/

/-- The brackets among the tokens are nested and match in kind: behind them the same brackets are
open as in front. -/
def Matched (ts : List Token) : Prop :=
  ∀ stack ls, Lexeme.nested stack (ts.map Token.lexeme ++ ls) = Lexeme.nested stack ls

namespace Matched

variable {ts us : List Token} {t o : Token}

theorem nested (h : Matched ts) : Lexeme.nested [] (ts.map Token.lexeme) = true := by
  have hnested := h [] []
  rwa [List.append_nil] at hnested

theorem nil : Matched [] := fun _ _ => rfl

theorem append (h : Matched ts) (h' : Matched us) : Matched (ts ++ us) := by
  intro stack ls
  rw [List.map_append, List.append_assoc, h, h']

theorem cons (ht : t.lexeme.nesting = 0) (h : Matched ts) : Matched (t :: ts) := by
  intro stack ls
  rw [List.map_cons, List.cons_append, ← h stack ls]
  cases hl : t.lexeme <;> rw [hl] at ht <;> first | rfl | cases ht

theorem gap {inside : Bool} (h : Gap inside ts) : Matched ts := by
  induction ts with
  | nil => exact nil
  | cons t ts ih =>
      obtain ⟨-, ht, hts⟩ := gap_cons.mp h
      exact cons (by rw [ht]; rfl) (ih hts)

/-- What matches still does between two brackets of a kind. -/
theorem bracketed (h : Matched ts) (hot : o.lexeme = .openSquare ∧ t.lexeme = .closeSquare ∨
    o.lexeme = .openRound ∧ t.lexeme = .closeRound) : Matched (o :: (ts ++ [t])) := by
  intro stack ls
  rw [List.map_cons, List.map_append, List.cons_append, List.append_assoc]
  rcases hot with ⟨ho, ht⟩ | ⟨ho, ht⟩ <;>
    · rw [ho, Lexeme.nested, h, List.map_cons, ht]
      simp [Lexeme.nested]

end Matched

/-- The brackets of a phrase match. -/
theorem Derives.matched {path : Option Path} {inside : Bool} {φ : Phrase} {ts : List Token}
    (h : Derives path inside φ ts) : Matched ts := by
  induction h with
  | wordsNil hg => exact .gap hg
  | wordsCons hg _ _ ihw ihws => exact (Matched.gap hg).append (ihw.append ihws)
  | modified hm hg _ ih =>
      have hplain := Lexeme.nesting_of_isPlain (Token.isPlain_of_modifier? hm)
      exact .cons hplain ((Matched.gap hg).append ih)
  | lone _ _ ih => exact ih
  | strand _ _ _ ihw ihvs => exact ihw.append ihvs
  | membersNil | bodiesNil => exact .nil
  | membersCons ht hg _ _ ihw ihws =>
      exact .cons (by rw [ht]; rfl) ((Matched.gap hg).append (ihw.append ihws))
  | atom h => exact .cons (Lexeme.nesting_of_isPlain (Token.isPlain_of_atom? h)) .nil
  | array ho _ ht ih => exact ih.bracketed (.inl ⟨ho, ht⟩)
  | func ho _ ht ih => exact ih.bracketed (.inr ⟨ho, ht⟩)
  | funcArray ho _ _ ht ihb ihbs =>
      rw [← List.append_assoc]
      exact (ihb.append ihbs).bracketed (.inr ⟨ho, ht⟩)
  | bodiesCons ht _ _ ihb ihbs => exact .cons (by rw [ht]; rfl) (ihb.append ihbs)

/-! ## Reads -/

/-- The count of open brackets is exact behind the read, whether it succeeds or fails. -/
structure Read.KeepsCount {c : Cursor} {k : Nat} {α : Type} (r : Read c k α) : Prop where
  gives : ∀ x d, r.Gives x d → ∃ ts, c.rest = ts ++ d.rest ∧ d.depth = c.depth ∧
    Lexeme.nested [] (ts.map Token.lexeme) = true
  faults : ∀ e d, r.Faults e d → ∃ ts, c.rest = ts ++ d.rest ∧
    d.depth - c.depth = Lexeme.balance (ts.map Token.lexeme) ∧ 0 ≤ d.depth - c.depth

namespace Cursor

variable {c d f : Cursor} {e : ParseError}

theorem BreaksOff.balance (h : c.BreaksOff e f) : ∃ ts, c.rest = ts ++ f.rest ∧
    f.depth - c.depth = Lexeme.balance (ts.map Token.lexeme) ∧ 0 ≤ f.depth - c.depth := by
  obtain ⟨ts, hts, hle, -⟩ := h
  have heq := hts.crosses.balance
  exact ⟨ts, hts.rest, by omega, by omega⟩

/-- Taking the tokens leads from the one cursor to the other, and their brackets match. -/
def Crossed (c d : Cursor) : Prop := ∃ ts, c.Takes ts d ∧ Matched ts

theorem Crossed.trans (h : c.Crossed d) (h' : d.Crossed f) : c.Crossed f := by
  obtain ⟨ts, hts, hm⟩ := h
  obtain ⟨us, hus, hm'⟩ := h'
  exact ⟨ts ++ us, hts.trans hus, hm.append hm'⟩

theorem Crossed.count (h : c.Crossed d) : ∃ ts, c.rest = ts ++ d.rest ∧ d.depth = c.depth ∧
    Lexeme.nested [] (ts.map Token.lexeme) = true := by
  obtain ⟨ts, hts, hm⟩ := h
  exact ⟨ts, hts.rest, hts.depth, hm.nested⟩

theorem crossed_of_words {ws : List Word} (h : c.words.Gives ws d) (hdepth : 0 ≤ c.depth) :
    c.Crossed d := by
  obtain ⟨ts, hts, hder⟩ := derives_words h hdepth
  exact ⟨ts, hts, hder.matched⟩

theorem crossed_of_word {w : Word} (h : c.word.Gives w d) (hdepth : 0 ≤ c.depth) :
    c.Crossed d := by
  obtain ⟨ts, hts, hder⟩ := derives_word h hdepth
  exact ⟨ts, hts, hder.matched⟩

theorem crossed_of_term {w : Word} (h : c.term.Gives w d) (hdepth : 0 ≤ c.depth) :
    c.Crossed d := by
  obtain ⟨ts, hts, hder, -⟩ := derives_term h hdepth
  exact ⟨ts, hts, hder.matched⟩

theorem crossed_of_members {ws : List Word} (h : c.members.Gives ws d) (hdepth : 0 ≤ c.depth) :
    c.Crossed d := by
  obtain ⟨ts, hts, hder⟩ := derives_members h hdepth
  exact ⟨ts, hts, hder.matched⟩

/-- A strand crosses its first term and its members. No word need be derived from it: a modifier may
stand in front, where a word would take it with its operand. -/
theorem crossed_of_strand {w : Word} (h : c.strand.Gives w f) (hdepth : 0 ≤ c.depth) :
    c.Crossed f := by
  obtain ⟨t, d, ht, h⟩ := gives_strand_iff.mp h
  have hd := crossed_of_term ht hdepth
  have hdepth' : 0 ≤ d.depth := by
    obtain ⟨ts, hts, -⟩ := hd
    rw [hts.depth]
    exact hdepth
  rcases h with ⟨hmembers, -⟩ | ⟨u, us, hmembers, -⟩ <;>
    exact hd.trans (crossed_of_members hmembers hdepth')

theorem crossed_of_array {w : Word} (h : c.array.Gives w d) (hdepth : 0 ≤ c.depth) :
    c.Crossed d :=
  crossed_of_term (gives_term_iff.mpr (.inr (.inl h))) hdepth

theorem crossed_of_func {w : Word} (h : c.func.Gives w d) (hdepth : 0 ≤ c.depth) :
    c.Crossed d :=
  crossed_of_term (gives_term_iff.mpr (.inr (.inr h))) hdepth

/-- Every phrase that a word is made of keeps the count, from wherever it is read. -/
theorem keepsCount (hdepth : 0 ≤ c.depth) :
    c.words.KeepsCount ∧ c.word.KeepsCount ∧ c.strand.KeepsCount ∧ c.term.KeepsCount ∧
      c.array.KeepsCount ∧ c.func.KeepsCount :=
  ⟨⟨fun _ _ h => (crossed_of_words h hdepth).count,
      fun _ _ h => (breaksOff_words h hdepth).balance⟩,
    ⟨fun _ _ h => (crossed_of_word h hdepth).count,
      fun _ _ h => (breaksOff_word h hdepth).balance⟩,
    ⟨fun _ _ h => (crossed_of_strand h hdepth).count,
      fun _ _ h => (breaksOff_strand h hdepth).balance⟩,
    ⟨fun _ _ h => (crossed_of_term h hdepth).count,
      fun _ _ h => (breaksOff_term h hdepth).balance⟩,
    ⟨fun _ _ h => (crossed_of_array h hdepth).count,
      fun _ _ h => (breaksOff_array h hdepth).balance⟩,
    ⟨fun _ _ h => (crossed_of_func h hdepth).count,
      fun _ _ h => (breaksOff_func h hdepth).balance⟩⟩

/-! ## Lines -/

/-- The places where the lines of a program are read. -/
def lineStarts (c : Cursor) : List Cursor :=
  if _ : c.atEnd then []
  else if _ : c.sees .newline then lineStarts c.advance
  else
    c :: match _ : c.line with
      | .ok _ d _ => lineStarts d
      | .fail _ d _ => lineStarts d.recover
termination_by c.remaining
decreasing_by
  · exact (follows_advance_of_sees ‹_› (by decide)).le
  · exact line_lt ‹_› (by simp_all) (by simp_all)
  · exact recover_lt ‹_› (by simp_all)

/-- The items of a line that is read here. -/
def lineItems (c : Cursor) : List Item :=
  match c.line with
  | .ok items _ _ => items
  | .fail _ _ _ => []

/-- The report about a line that does not fit here. -/
def lineFault? (c : Cursor) : Option Diagnostic :=
  match c.line with
  | .ok _ _ _ => none
  | .fail e _ _ => some (e.diagnostic c.path)

theorem lineStarts_end (ha : c.atEnd = true) : c.lineStarts = [] := by
  rw [lineStarts, dif_pos ha]

theorem lineStarts_blank (ha : c.atEnd = false) (hn : c.sees .newline = true) :
    c.lineStarts = c.advance.lineStarts := by
  rw [lineStarts, dif_neg (Bool.eq_false_iff.mp ha), dif_pos hn]

theorem lineStarts_line {items : List Item} (ha : c.atEnd = false) (hn : c.sees .newline = false)
    (h : c.line.Gives items d) : c.lineStarts = c :: d.lineStarts := by
  obtain ⟨hd, hline⟩ := h
  rw [lineStarts, dif_neg (Bool.eq_false_iff.mp ha), dif_neg (Bool.eq_false_iff.mp hn)]
  split
  · rename_i items' d' _ hline'
    obtain ⟨rfl, rfl⟩ := Read.Gives.unique ⟨hd, hline⟩ ⟨_, hline'⟩
    rfl
  · rename_i hline'
    rw [hline] at hline'
    cases hline'

theorem lineStarts_error (ha : c.atEnd = false) (hn : c.sees .newline = false)
    (h : c.line.Faults e d) : c.lineStarts = c :: d.recover.lineStarts := by
  rw [lineStarts, dif_neg (Bool.eq_false_iff.mp ha), dif_neg (Bool.eq_false_iff.mp hn)]
  split
  · rename_i items d' hd' hline'
    exact absurd h (Read.Gives.not_faults ⟨hd', hline'⟩)
  · rename_i e' d' hd' hline'
    obtain ⟨hd, hline⟩ := h
    obtain ⟨rfl, rfl⟩ := Read.faults_fail.mp ⟨hd, hline'.symm.trans hline⟩
    rfl

/-- What is read from line to line: the items of the lines and, between them, those for blank lines;
and the reports about the lines that do not fit. -/
theorem lines_eq_lineStarts (c : Cursor) (started : Bool) (blank : Option Span) :
    (c.lines started blank).1.items.filter (!·.isNewlines) =
        (c.lineStarts.flatMap lineItems).filter (!·.isNewlines) ∧
      (c.lines started blank).1.diagnostics = c.lineStarts.filterMap lineFault? := by
  induction c using line_induction generalizing started blank with
  | ended c ha =>
      rw [lines_end ha, lineStarts_end ha]
      exact ⟨rfl, rfl⟩
  | blank c ha hn ih =>
      rw [lines_blank ha hn, lineStarts_blank ha hn]
      exact ih started _
  | line c items d ha hn hline ih =>
      obtain ⟨hd, heq⟩ := id hline
      obtain ⟨hitems, hfaults⟩ := ih true none
      have hlines : c.lineItems = items ∧ c.lineFault? = none := by
        rw [lineItems, lineFault?, heq]
        exact ⟨rfl, rfl⟩
      rw [lines_line ha hn hline, lineStarts_line ha hn hline, List.flatMap_cons,
        List.filterMap_cons_none hlines.2, hlines.1, List.filter_append, ← hitems]
      refine ⟨?_, hfaults⟩
      show (gapItems blank ++ items ++ _).filter _ = _
      rw [List.filter_append, List.filter_append, filter_gapItems, List.nil_append]
  | error c e d ha hn hline ih =>
      obtain ⟨hd, heq⟩ := id hline
      obtain ⟨hitems, hfaults⟩ := ih true none
      have hlines : c.lineItems = [] ∧ c.lineFault? = some (e.diagnostic c.path) := by
        rw [lineItems, lineFault?, heq]
        exact ⟨rfl, rfl⟩
      rw [lines_error ha hn hline, lineStarts_error ha hn hline, List.flatMap_cons,
        List.filterMap_cons_some hlines.2, hlines.1, List.nil_append, ← hitems, ← hfaults]
      refine ⟨?_, rfl⟩
      show (gapItems blank ++ _).filter _ = _
      rw [List.filter_append, filter_gapItems, List.nil_append]
      rfl

/-- Where no bracket counts as open in front of the first line, none does in front of any other. -/
theorem depth_of_mem_lineStarts (hdepth : c.depth = 0) : ∀ d ∈ c.lineStarts, d.depth = 0 := by
  induction c using line_induction with
  | ended c ha =>
      rw [lineStarts_end ha]
      exact nofun
  | blank c ha hn ih =>
      rw [lineStarts_blank ha hn]
      exact ih hdepth
  | line c items d ha hn hline ih =>
      obtain ⟨ts, f, htakes, -, hend⟩ := derives_line hline ⟨hn, ha, hdepth⟩
      have hnext := nextLine_of_expectLineEnd hend (htakes.depth.trans hdepth)
      rw [lineStarts_line ha hn hline]
      exact List.forall_mem_cons.mpr ⟨hdepth, ih hnext.depth⟩
  | error c e d ha hn hline ih =>
      rw [lineStarts_error ha hn hline]
      exact List.forall_mem_cons.mpr ⟨hdepth, ih (nextLine_recover d).depth⟩

/-- The count of open brackets is exact behind every phrase, from wherever it is read, and zero
wherever a line of a program is read. -/
theorem depth_exact {c : Cursor} (hdepth : 0 ≤ c.depth) (path : Option Path)
    (tokens : List Token) :
    (c.words.KeepsCount ∧ c.word.KeepsCount ∧ c.strand.KeepsCount ∧ c.term.KeepsCount ∧
      c.array.KeepsCount ∧ c.func.KeepsCount) ∧
    ((ofTokens path tokens).program.1.items.filter (!·.isNewlines) =
        ((ofTokens path tokens).lineStarts.flatMap lineItems).filter (!·.isNewlines) ∧
      (ofTokens path tokens).program.1.diagnostics =
        (ofTokens path tokens).lineStarts.filterMap lineFault?) ∧
    ∀ d ∈ (ofTokens path tokens).lineStarts, d.depth = 0 :=
  ⟨keepsCount hdepth, lines_eq_lineStarts _ false none, depth_of_mem_lineStarts rfl⟩

/-- An array behind an open bracket, with a round bracket in it that a square one closes, and lines
that do not fit. -/
theorem depth_exact_unclosed :
    0 ≤ (ofTokens none (tokenize "[1 (2_3] 4)").1).opened.depth ∧
      (ofTokens none (tokenize "[1 (2_3] 4)").1).opened.array.KeepsCount ∧
      ∀ d ∈ (ofTokens none (tokenize "1 ]\n(2]\n) 3\n4)\n5").1).lineStarts, d.depth = 0 := by
  have hdepth : 0 ≤ (ofTokens none (tokenize "[1 (2_3] 4)").1).opened.depth :=
    Int.zero_le_ofNat 1
  have h := depth_exact hdepth none (tokenize "1 ]\n(2]\n) 3\n4)\n5").1
  exact ⟨hdepth, h.1.2.2.2.2.1, h.2.2⟩

end Cursor

end GlyphFormat
