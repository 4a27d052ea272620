import GlyphFormat.Proofs.Formatter.Phases

/-!
# The order of reports

What reading a source reports goes strictly downwards: no two diagnostics start on one line of the
source, and none goes back to a place above one before it (`reports_parse`). A diagnostic may stand
at a bracket lines above the token where reading stopped, but both are of the same logical line.
Such a line ends with a line break, so the next one starts on a later line of the source.
-/

namespace GlyphFormat

open Cursor (depthAfter)

variable {s : Text} {path : Option Path}

/-! ## Tokens line by line -/

/-- The second token does not start on a line above the first one, and behind a line break it
starts on a later line. -/
def Token.Before (t u : Token) : Prop :=
  t.start.line ≤ u.start.line ∧ (t.lexeme = .newline → t.start.line < u.start.line)

theorem Text.line_place_append (a b : Text) :
    (a ++ b).place.line = a.place.line + b.count (CodePoint.ofChar '\n') := by
  rw [place, place, List.count_append, Nat.add_assoc]

theorem Lexeme.Written.of_newline {u : Text} (h : Lexeme.Written u .newline) :
    u = "\n" ∨ u = "\r\n" := by
  cases h with
  | mark hmark => simp [Lexeme.marks] at hmark
  | newline h => exact h

/-- What stands behind a piece is not above it, and below it if the piece is a line break. -/
theorem Piece.token_before {p : Piece} (hbody : p.lexeme.Written p.body) {t u : Token} {a b : Text}
    (hlexeme : t.lexeme = p.lexeme) (ht : t.start = a.place)
    (hu : u.start = (a ++ p.body ++ b).place) : t.Before u := by
  have hline : u.start.line = t.start.line + p.body.count (CodePoint.ofChar '\n') +
      b.count (CodePoint.ofChar '\n') := by
    rw [hu, ht, Text.line_place_append, Text.line_place_append]
  refine ⟨by omega, fun hnewline => ?_⟩
  have hcount : p.body.count (CodePoint.ofChar '\n') = 1 := by
    rw [← hlexeme, hnewline] at hbody
    obtain hfeed | hfeed := hbody.of_newline <;> rw [hfeed] <;> rfl
  omega

/-- The tokens of a row of pieces, with the end of input behind them. By induction on the row: all
that follows a piece starts behind its body. -/
theorem Cut.tokens_before {ps : List Piece} {r rest : Text} (h : Cut ps r rest) (a : Text)
    (last : Token) (hlast : last.start = (a ++ r).place) :
    (Piece.tokens a ps ++ [last]).Pairwise Token.Before := by
  induction h generalizing a with
  | nil => exact List.pairwise_singleton _ _
  | @cons p ps r rest hgap hbody _ h ih =>
      have hlast' : last.start = (a ++ p.gap ++ p.body ++ r).place := by
        rw [hlast]
        simp only [List.append_assoc]
      refine .cons (fun u hu => ?_) (ih _ hlast')
      rcases List.mem_append.mp hu with hu | hu
      · obtain ⟨b, -, -, hstart⟩ := Piece.start_of_mem hu
        exact Piece.token_before hbody rfl rfl hstart
      · obtain rfl := List.mem_singleton.mp hu
        exact Piece.token_before hbody rfl rfl hlast'

theorem tokens_before (hlex : (tokenize s).2 = none) :
    (tokenize s).1.Pairwise Token.Before := by
  obtain ⟨ps, w, r, hcut, -, ⟨-, -, htokens⟩ | ⟨e, he, -⟩⟩ := tokenize_cut s
  · rw [htokens]
    exact hcut.tokens_before [] _ rfl
  · rw [hlex] at he
    cases he

/-! ## Logical lines -/

theorem ne_nil_of_mem_logicalLines {tally : Int → Token → Int} {depth : Int} {ts l : List Token}
    (hl : l ∈ logicalLines tally depth ts) : l ≠ [] := by
  induction ts generalizing depth with
  | nil => cases hl
  | cons t ts ih =>
      rw [logicalLines] at hl
      split at hl
      · rcases List.mem_cons.mp hl with rfl | hl
        · exact List.cons_ne_nil _ _
        · exact ih hl
      · split at hl
        · obtain rfl := List.mem_singleton.mp hl
          exact List.cons_ne_nil _ _
        · rename_i heq
          rcases List.mem_cons.mp hl with rfl | hl
          · exact List.cons_ne_nil _ _
          · exact ih (heq ▸ List.mem_cons_of_mem _ hl)

/-- All tokens of the second line start below all tokens of the first. -/
def LinesApart (l m : List Token) : Prop := ∀ t ∈ l, ∀ u ∈ m, t.start.line < u.start.line

/-- By induction on the tokens. A token that does not end its line is not below the tokens behind
it on that line, of which there are some if another line follows. -/
theorem logicalLines_apart {tally : Int → Token → Int} {depth : Int} {ts : List Token}
    (h : ts.Pairwise Token.Before) : (logicalLines tally depth ts).Pairwise LinesApart := by
  induction ts generalizing depth with
  | nil => exact .nil
  | cons t ts ih =>
      obtain ⟨hfirst, hrest⟩ := List.pairwise_cons.mp h
      have hlines : (logicalLines tally (tally depth t) ts).Pairwise LinesApart := ih hrest
      rw [logicalLines]
      split
      · rename_i hstop
        refine .cons (fun m hm v hv u hu => ?_) (ih hrest)
        obtain rfl := List.mem_singleton.mp hv
        exact (hfirst u (mem_of_mem_logicalLines hm u hu)).2 hstop.1
      · cases hcut : logicalLines tally (tally depth t) ts with
        | nil => exact List.pairwise_singleton _ _
        | cons l ls =>
            rw [hcut] at hlines
            obtain ⟨hl, hls⟩ := List.pairwise_cons.mp hlines
            have hmem : l ∈ logicalLines tally (tally depth t) ts := hcut ▸ List.mem_cons_self
            refine .cons (fun m hm v hv u hu => ?_) hls
            rcases List.mem_cons.mp hv with rfl | hv
            · obtain ⟨w, hw⟩ := List.exists_mem_of_ne_nil l (ne_nil_of_mem_logicalLines hmem)
              have hle := (hfirst w (mem_of_mem_logicalLines hmem w hw)).1
              exact Nat.lt_of_le_of_lt hle (hl m hm w hw u hu)
            · exact hl m hm v hv u hu

/-- On lines that are apart the diagnostics are apart, since each line has one at most. -/
theorem Judged.lines_lt {ls : List (List Token)} {ds : List Diagnostic} {is : List Item}
    (h : Judged path ls ds is) (hls : ls.Pairwise LinesApart) :
    ds.Pairwise fun d e => d.span.start.line < e.span.start.line := by
  induction h with
  | done => exact .nil
  | blank _ ih | fits _ _ ih => exact ih hls.of_cons
  | malformed _ _ _ ht hspan h ih =>
      obtain ⟨hfirst, hrest⟩ := List.pairwise_cons.mp hls
      refine .cons (fun e he => ?_) (ih hrest)
      obtain ⟨-, l, hl, u, hu, hspan'⟩ := h.of_mem e he
      rw [hspan, hspan']
      exact hfirst l hl _ ht u hu

/-! ## Sources -/

/-- The diagnostics that reading a source reports, if it scans, stand at tokens of it, the end of
input among them. Each starts behind the one before it, and on a later line of the source. -/
theorem reports_parse (path : Option Path) (hlex : (tokenize s).2 = none) :
    ((parse s path).diagnostics.Pairwise fun d e =>
        d.span.start < e.span.start ∧ d.span.start.line < e.span.start.line) ∧
      ∀ d ∈ (parse s path).diagnostics, ∃ t ∈ (tokenize s).1, d.span = t.span path := by
  have hjudged : Judged path (logicalLines depthAfter 0 (tokenize s).1)
      (parse s path).diagnostics ((parse s path).items.filter (!·.isNewlines)) := by
    rw [parse_of_tokens hlex]
    exact Cursor.judged_lines (c := .ofTokens path (tokenize s).1) rfl (endsInput_tokenize hlex)
  constructor
  · refine (hjudged.lines_lt (logicalLines_apart (tokens_before hlex))).imp fun hline => ?_
    exact ⟨.inl hline, hline⟩
  · intro d hd
    obtain ⟨-, l, hl, t, ht, hspan⟩ := hjudged.of_mem d hd
    exact ⟨t, mem_of_mem_logicalLines hl t ht, hspan⟩

/-- A mark that does not belong into a bracket over three lines, a bracket that closes nothing, and
one that is never closed, which is reported where it opens. -/
theorem reports_parse_brackets :
    (tokenize "[ x\n(1 =\n) ]\n]\n[ (\nx").2 = none ∧
    (parse "[ x\n(1 =\n) ]\n]\n[ (\nx" none).diagnostics.map (·.span.start) =
      [⟨2, 4⟩, ⟨4, 1⟩, ⟨5, 3⟩] ∧
    ((parse "[ x\n(1 =\n) ]\n]\n[ (\nx" none).diagnostics.Pairwise fun d e =>
        d.span.start < e.span.start ∧ d.span.start.line < e.span.start.line) ∧
      ∀ d ∈ (parse "[ x\n(1 =\n) ]\n]\n[ (\nx" none).diagnostics,
        ∃ t ∈ (tokenize "[ x\n(1 =\n) ]\n]\n[ (\nx").1, d.span = t.span none := by
  have hlex : (tokenize "[ x\n(1 =\n) ]\n]\n[ (\nx").2 = none := by decide +kernel
  exact ⟨hlex, by decide +kernel, reports_parse none hlex⟩

end GlyphFormat
