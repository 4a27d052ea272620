import GlyphFormat.Proofs.Grammar.Faults

/-!
# Where reads end

What a read finds depends on what stands in the source, but where it goes on to and whether it fails
do not depend on what was found before. `Read.ending` forgets the value, and each function of the
grammar is, up to its value, a chain of endings: one equation for each.
-/

namespace GlyphFormat

namespace Read

variable {α : Type} {c d : Cursor} {k : Nat} {e : ParseError}

/-- Where a read ends, and its error if it fails. -/
def ending : Read c k α → Except (ParseError × Cursor) Cursor
  | .ok _ d _ => .ok d
  | .fail e d _ => .error (e, d)

theorem ending_eq_ok_iff {r : Read c k α} : r.ending = .ok d ↔ ∃ x, r.Gives x d := by
  cases r with
  | ok x f h =>
      constructor
      · intro heq
        obtain rfl := Except.ok.inj heq
        exact ⟨x, h, rfl⟩
      · rintro ⟨y, hy⟩
        rw [(gives_ok.mp hy).2]
        rfl
  | fail e' f h => exact ⟨nofun, fun ⟨y, hy⟩ => absurd hy not_gives_fail⟩

theorem ending_eq_error_iff {r : Read c k α} : r.ending = .error (e, d) ↔ r.Faults e d := by
  cases r with
  | ok x f h => exact ⟨nofun, fun hf => absurd hf not_faults_ok⟩
  | fail e' f h =>
      rw [faults_fail]
      constructor
      · intro heq
        obtain ⟨rfl, rfl⟩ := Prod.mk.inj (Except.error.inj heq)
        exact ⟨rfl, rfl⟩
      · rintro ⟨rfl, rfl⟩
        rfl

theorem follows_of_ending {r : Read c k α} (h : r.ending = .ok d) : d.Follows c k := by
  obtain ⟨x, hx⟩ := ending_eq_ok_iff.mp h
  exact hx.follows

end Read

namespace Cursor

variable (c : Cursor)

open Read (ending)

/-- The ending of a read that fails at the current token. -/
def stuck (f : ParseFault) : Except (ParseError × Cursor) Cursor := .error (⟨f, c.current⟩, c)

theorem ending_skipLayout : c.skipLayout.ending =
    if c.depth = 0 then .ok c
    else if c.sees .comment then c.stuck .commentInBrackets
    else if c.sees .newline then c.advance.skipLayout.ending
    else .ok c := by
  rw [skipLayout]
  by_cases hdepth : c.depth = 0
  · rw [if_pos hdepth, if_pos hdepth]
    rfl
  rw [if_neg hdepth, if_neg hdepth]
  by_cases hcomment : c.sees .comment = true
  · rw [if_pos hcomment, if_pos hcomment]
    rfl
  rw [if_neg hcomment, if_neg hcomment]
  by_cases hs : c.sees .newline = true
  · rw [dif_pos hs, if_pos hs]
    cases c.advance.skipLayout <;> rfl
  · rw [dif_neg hs, if_neg hs]
    rfl

theorem ending_close (opening : Token) (closer : Lexeme.Kind) (text : Text) :
    (c.close opening closer text).ending =
      if c.sees closer then .ok c.advance.closed
      else if c.atEnd then .error (⟨.unclosed opening.lexeme, opening⟩, c)
      else c.stuck (.expectedCloser text opening.lexeme c.current.lexeme) := by
  unfold close
  split
  · rfl
  · split <;> rfl

theorem ending_words : c.words.ending = c.skipLayout.ending >>= fun d =>
    if d.startsWord then d.word.ending >>= fun f => f.words.ending else .ok d := by
  rw [words]
  cases c.skipLayout with
  | fail e d h => rfl
  | ok u d h =>
      show ending (if d.startsWord = true then _ else _) = if d.startsWord = true then _ else _
      by_cases hs : d.startsWord = true
      · rw [if_pos hs, if_pos hs]
        cases d.word with
        | fail e f hf => rfl
        | ok w f hf =>
            show _ = f.words.ending
            dsimp only
            cases f.words <;> rfl
      · rw [if_neg hs, if_neg hs]
        rfl

theorem ending_word_of_strand (hm : c.modifier? = none) : c.word.ending = c.strand.ending := by
  rw [word]
  split
  · rfl
  · rename_i m hm'
    rw [hm] at hm'
    cases hm'

theorem ending_word_of_modifier {m : Word} (hm : c.modifier? = some m) :
    c.word.ending = c.advance.skipLayout.ending >>= fun d =>
      if d.startsWord then d.word.ending
      else .error (⟨.missingOperand c.current.lexeme, c.current⟩, d) := by
  rw [word]
  split
  · rename_i hm'
    rw [hm] at hm'
    cases hm'
  · dsimp only
    cases c.advance.skipLayout with
    | fail e d h => rfl
    | ok u d h =>
        show ending (if d.startsWord = true then _ else _) = if d.startsWord = true then _ else _
        by_cases hs : d.startsWord = true
        · rw [if_pos hs, if_pos hs]
          cases d.word <;> rfl
        · rw [if_neg hs, if_neg hs]
          rfl

theorem ending_strand : c.strand.ending = c.term.ending >>= fun d => d.members.ending := by
  rw [strand]
  cases c.term with
  | fail e d h => rfl
  | ok t d h =>
      show _ = d.members.ending
      dsimp only
      cases d.members with
      | fail e f hf => rfl
      | ok us f hf => cases us <;> rfl

theorem ending_members : c.members.ending =
    if c.sees .underscore then c.advance.skipLayout.ending >>= fun d =>
      d.term.ending >>= fun f => f.members.ending
    else .ok c := by
  rw [members]
  by_cases hs : c.sees .underscore = true
  · rw [dif_pos hs, if_pos hs]
    dsimp only
    cases c.advance.skipLayout with
    | fail e d h => rfl
    | ok u d h =>
        show _ = d.term.ending >>= _
        dsimp only
        cases d.term with
        | fail e f hf => rfl
        | ok t f hf =>
            show _ = f.members.ending
            dsimp only
            cases f.members <;> rfl
  · rw [dif_neg hs, if_neg hs]
    rfl

theorem ending_term : c.term.ending =
    if (c.current.atom? c.path).isSome then .ok c.advance
    else if c.sees .openSquare then c.array.ending
    else if c.sees .openRound then c.func.ending
    else c.stuck (.expectedWord c.current.lexeme) := by
  rw [term]
  split
  · rename_i w hatom
    rw [if_pos (by rw [hatom]; rfl)]
    rfl
  · rename_i hatom
    have hnone : ¬(c.current.atom? c.path).isSome = true := by
      rw [hatom]
      decide
    rw [if_neg hnone]
    split
    · rfl
    · split <;> rfl

theorem ending_array : c.array.ending =
    if c.sees .openSquare then c.advance.opened.words.ending >>= fun d =>
      (d.close c.current .closeSquare "]").ending
    else c.stuck (.expected .openSquare c.current.lexeme) := by
  rw [array]
  by_cases hs : c.sees .openSquare = true
  · rw [dif_pos hs, if_pos hs]
    dsimp only
    cases c.advance.opened.words with
    | fail e d h => rfl
    | ok ws d h =>
        show _ = (d.close c.current .closeSquare "]").ending
        dsimp only
        cases d.close c.current .closeSquare "]" <;> rfl
  · rw [dif_neg hs, if_neg hs]
    rfl

theorem ending_func : c.func.ending =
    if c.sees .openRound then c.advance.opened.words.ending >>= fun d =>
      d.alternatives.ending >>= fun f => (f.close c.current .closeRound ")").ending
    else c.stuck (.expected .openRound c.current.lexeme) := by
  rw [func]
  by_cases hs : c.sees .openRound = true
  · rw [dif_pos hs, if_pos hs]
    dsimp only
    cases c.advance.opened.words with
    | fail e d h => rfl
    | ok b d h =>
        show _ = d.alternatives.ending >>= _
        dsimp only
        cases d.alternatives with
        | fail e f hf => rfl
        | ok bs f hf =>
            show _ = (f.close c.current .closeRound ")").ending
            dsimp only
            cases f.close c.current .closeRound ")" <;> rfl
  · rw [dif_neg hs, if_neg hs]
    rfl

theorem ending_alternatives : c.alternatives.ending =
    if c.sees .pipe then c.advance.words.ending >>= fun d => d.alternatives.ending
    else .ok c := by
  rw [alternatives]
  by_cases hs : c.sees .pipe = true
  · rw [dif_pos hs, if_pos hs]
    dsimp only
    cases c.advance.words with
    | fail e d h => rfl
    | ok b d h =>
        show _ = d.alternatives.ending
        dsimp only
        cases d.alternatives <;> rfl
  · rw [dif_neg hs, if_neg hs]
    rfl

theorem ending_statement : c.statement.ending =
    if c.boundName?.isSome then c.advance.advance.words.ending else c.words.ending := by
  unfold statement
  cases c.boundName? with
  | none =>
      dsimp only
      cases c.words <;> rfl
  | some name =>
      dsimp only
      cases c.advance.advance.words <;> rfl

theorem ending_expectLineEnd : c.expectLineEnd.ending =
    if c.sees .newline then .ok c.advance
    else if c.atEnd then .ok c
    else c.stuck (.unexpected c.current.lexeme) := by
  unfold expectLineEnd
  split
  · rfl
  · split <;> rfl

theorem ending_lineTail : c.lineTail.ending =
    if c.comment?.isSome then c.advance.expectLineEnd.ending else c.expectLineEnd.ending := by
  unfold lineTail
  cases c.comment? with
  | none =>
      dsimp only
      cases c.expectLineEnd <;> rfl
  | some text =>
      dsimp only
      cases c.advance.expectLineEnd <;> rfl

theorem ending_line : c.line.ending =
    if c.comment?.isSome then c.lineTail.ending
    else c.statement.ending >>= fun d => d.lineTail.ending := by
  unfold line
  split
  · rfl
  · cases c.statement with
    | fail e d h => rfl
    | ok item d h =>
        show _ = d.lineTail.ending
        dsimp only
        cases d.lineTail <;> rfl

end Cursor

end GlyphFormat
