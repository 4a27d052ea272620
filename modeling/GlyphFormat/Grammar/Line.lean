import GlyphFormat.Grammar.Word

/-!
# The grammar of lines

    line ::= comment | (name "=" word* | word*) comment?

A line ends at a line break or at the end of input. It gives the item it holds and one more for a
comment behind it.
-/

namespace GlyphFormat.Cursor

/-- The text of the current token, if it is a comment. -/
def comment? (c : Cursor) : Option Text :=
  match c.current.lexeme with
  | .comment t => some t
  | _ => none

/-- The name that a line binds when it begins here. -/
def boundName? (c : Cursor) : Option Text :=
  match c.current.lexeme with
  | .ident n => if (c.peek 1).kind = .assign then some n else none
  | _ => none

/-- The item of a line that is not only a comment. -/
def statement (c : Cursor) : Read c 0 Item :=
  match c.boundName? with
  | some name =>
    match c.advance.advance.words with
    | .fail e d h => .fail e d h.past.past
    | .ok ws d h => .ok (.binding name ws c.here (d.spanFrom c.current)) d h.past.past
  | none =>
    match c.words with
    | .fail e d h => .fail e d h
    | .ok ws d h => .ok (.words ws (d.spanFrom c.current)) d h

/-- What may stand behind the item of a line: a comment, and the line's end. -/
def lineTail (c : Cursor) : Read c 0 (List Item) :=
  match c.comment? with
  | some text =>
    match c.advance.expectLineEnd with
    | .fail e d h => .fail e d h.past
    | .ok _ d h => .ok [.comment text c.here] d h.past
  | none =>
    match c.expectLineEnd with
    | .fail e d h => .fail e d h
    | .ok _ d h => .ok [] d h

def line (c : Cursor) : Read c 0 (List Item) :=
  if c.comment?.isSome then c.lineTail
  else
    match c.statement with
    | .fail e d h => .fail e d h
    | .ok item d h =>
      match d.lineTail with
      | .fail e f hf => .fail e f (hf.after h)
      | .ok items f hf => .ok (item :: items) f (hf.after h)

/-! ## Progress -/

theorem current_eq_of_rest_eq {c d : Cursor} (h : d.rest = c.rest) (hc : c.atEnd = false) :
    d.current = c.current := by
  match hr : c.rest with
  | [] => simp [atEnd, sees, current, hr, Token.kind, Lexeme.kind] at hc
  | t :: ts => simp [current, h, hr]

/-- Behind a cursor that is not at the end, a cursor at another token has fewer tokens left. -/
theorem Follows.lt_of_current_ne {c d : Cursor} {k : Nat} (h : d.Follows c k)
    (hc : c.atEnd = false) (hne : d.current ≠ c.current) : d.remaining < c.remaining := by
  refine Nat.lt_of_not_le fun hle => hne ?_
  exact current_eq_of_rest_eq (h.rest_eq hle) hc

theorem sees_or_atEnd_of_expectLineEnd {c d : Cursor} {u : Unit} {h : d.Follows c 0}
    (he : c.expectLineEnd = .ok u d h) : c.sees .newline = true ∨ c.atEnd = true := by
  unfold expectLineEnd at he
  split at he
  · exact .inl ‹_›
  · split at he
    · exact .inr ‹_›
    · simp [failHere] at he

theorem ne_end_of_comment? {c : Cursor} {t : Text} (h : c.comment? = some t) :
    c.current.lexeme ≠ .endOfInput := by
  intro he
  simp [comment?, he] at h

/-- Where a line does not end, its tail takes a token. -/
theorem lineTail_lt {c d : Cursor} {items : List Item} {h : d.Follows c 0}
    (he : c.lineTail = .ok items d h) (hn : c.sees .newline = false) (ha : c.atEnd = false) :
    d.remaining < c.remaining := by
  unfold lineTail at he
  split at he
  · rename_i hc
    split at he
    · simp at he
    · rename_i f hf _
      simp only [Read.ok.injEq] at he
      have h₁ := (follows_advance_of_ne_end (ne_end_of_comment? hc)).le
      have h₂ := hf.le
      rw [← he.2]
      omega
  · split at he
    · simp at he
    · rename_i hx
      rcases sees_or_atEnd_of_expectLineEnd hx with h' | h' <;> simp_all

/-- A line that begins at a token of its own takes at least that token. -/
theorem line_lt {c d : Cursor} {items : List Item} {h : d.Follows c 0}
    (he : c.line = .ok items d h) (hn : c.sees .newline = false) (ha : c.atEnd = false) :
    d.remaining < c.remaining := by
  unfold line at he
  split at he
  · exact lineTail_lt he hn ha
  · split at he
    · simp at he
    · rename_i item e hfe _
      split at he
      · simp at he
      · rename_i items' f hf htail
        simp only [Read.ok.injEq] at he
        rw [← he.2]
        have h₁ := hf.le
        have h₂ := hfe.le
        by_cases hcur : e.current = c.current
        · have h₃ : e.sees .newline = false := by simp only [sees, hcur]; exact hn
          have h₄ : e.atEnd = false := by simp only [atEnd, sees, hcur]; exact ha
          have := lineTail_lt htail h₃ h₄
          omega
        · have := hfe.lt_of_current_ne ha hcur
          omega

theorem follows_toLineEnd (c : Cursor) : c.toLineEnd.Follows c 0 := by
  fun_induction toLineEnd c with
  | case1 => exact .refl _
  | case2 => exact .refl _
  | case3 c _ _ ih => exact (Follows.trans ih (c := { c.advance with depth := _ })
      (b := c) (j := 0) c.follows_advance)

theorem toLineEnd_stops (c : Cursor) :
    c.toLineEnd.atEnd = true ∨ c.toLineEnd.sees .newline = true := by
  fun_induction toLineEnd c with
  | case1 c h => exact .inl h
  | case2 c _ h => exact .inr (by simp_all)
  | case3 c _ _ ih => exact ih

/-- After a fault, recovery leaves fewer tokens than the line began with. -/
theorem recover_lt {c d : Cursor} (h : d.Follows c 0) (ha : c.atEnd = false) :
    d.recover.remaining < c.remaining := by
  have h₁ := d.follows_toLineEnd.trans h
  have h₂ := h₁.le
  unfold recover skip
  split
  · rename_i hs
    have := (follows_advance_of_sees hs (by decide)).le
    simp only [remaining] at *
    omega
  · rename_i hs
    rcases d.toLineEnd_stops with he | he
    · refine h₁.lt_of_current_ne ha fun hcur => ?_
      simp only [atEnd, sees, hcur] at he ha
      simp [ha] at he
    · exact absurd he hs

end GlyphFormat.Cursor
