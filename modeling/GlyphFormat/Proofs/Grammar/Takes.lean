import GlyphFormat.Proofs.Grammar.Reads

/-!
# Taking tokens

A phrase is read by taking its tokens one after the other. `Takes` says that taking tokens leads
from one cursor to another; the spans that reading makes are spans over the tokens that were taken.
-/

namespace GlyphFormat

/-- From the start of the first token to the stop of the last one. -/
def Token.spanOver (path : Option Path) (ts : List Token) : Span :=
  ⟨path, (ts.head?.getD Cursor.noToken).start, (ts.getLast?.getD Cursor.noToken).stop⟩

/-- The only lexeme of a kind, where lexemes of the kind carry no value. -/
def Lexeme.Kind.mark? : Lexeme.Kind → Option Lexeme
  | .underscore => some .underscore
  | .openSquare => some .openSquare
  | .closeSquare => some .closeSquare
  | .openRound => some .openRound
  | .closeRound => some .closeRound
  | .pipe => some .pipe
  | .assign => some .assign
  | .newline => some .newline
  | .endOfInput => some .endOfInput
  | _ => none

namespace Cursor

variable {c d e : Cursor} {ts us : List Token} {t : Token}

/-- The cursor that many tokens further. -/
def past (c : Cursor) : Nat → Cursor
  | 0 => c
  | n + 1 => c.advance.past n

theorem past_add (c : Cursor) (m n : Nat) : c.past (m + n) = (c.past m).past n := by
  induction m generalizing c with
  | zero => rw [Nat.zero_add]; rfl
  | succ m ih => rw [Nat.succ_add]; exact ih c.advance

theorem past_opened (c : Cursor) (n : Nat) : c.opened.past n = (c.past n).opened := by
  induction n generalizing c with
  | zero => rfl
  | succ n ih => exact ih c.advance

theorem closed_opened (c : Cursor) : c.opened.closed = c := by
  simp only [opened, closed, Int.add_sub_cancel]

/-- Taking the tokens leads from the one cursor to the other. -/
structure Takes (c : Cursor) (ts : List Token) (d : Cursor) : Prop where
  rest : c.rest = ts ++ d.rest
  eq : d = c.past ts.length

theorem Takes.refl (c : Cursor) : c.Takes [] c := ⟨rfl, rfl⟩

theorem Takes.advance (h : c.rest = t :: us) : c.Takes [t] c.advance where
  rest := by rw [h]; simp [Cursor.advance, h]
  eq := rfl

theorem Takes.trans (h : c.Takes ts d) (h' : d.Takes us e) : c.Takes (ts ++ us) e where
  rest := by rw [h.rest, h'.rest, List.append_assoc]
  eq := by rw [h'.eq, h.eq, List.length_append, past_add]

theorem Takes.cons (h : c.rest = t :: us) (h' : c.advance.Takes ts d) : c.Takes (t :: ts) d :=
  (Takes.advance h).trans h'

/-- Brackets change nothing but the count of open ones. -/
theorem Takes.closed (h : c.opened.Takes ts d) : c.Takes ts d.closed where
  rest := h.rest
  eq := by rw [h.eq, past_opened, closed_opened]

/-- What stands between brackets, with the brackets. -/
theorem Takes.bracketed {o : Token} {vs : List Token} (h : c.advance.opened.Takes ts d)
    (hc : c.rest = o :: us) (hd : d.rest = t :: vs) :
    c.Takes (o :: (ts ++ [t])) d.advance.closed :=
  .cons hc (h.trans (.advance hd)).closed

theorem Takes.path (h : c.Takes ts d) : d.path = c.path := by
  have hpast : ∀ n (c : Cursor), (c.past n).path = c.path := by
    intro n
    induction n with
    | zero => exact fun c => rfl
    | succ n ih => exact fun c => ih c.advance
  rw [h.eq, hpast]

theorem Takes.depth (h : c.Takes ts d) : d.depth = c.depth := by
  have hpast : ∀ n (c : Cursor), (c.past n).depth = c.depth := by
    intro n
    induction n with
    | zero => exact fun c => rfl
    | succ n ih => exact fun c => ih c.advance
  rw [h.eq, hpast]

theorem Takes.depth_nonneg (h : c.Takes ts d) (hdepth : 0 ≤ c.depth) : 0 ≤ d.depth := by
  rw [h.depth]
  exact hdepth

theorem current_of_rest (h : c.rest = t :: us) : c.current = t := by
  rw [current, h]

theorem Takes.current (h : c.Takes (t :: ts) d) : c.current = t := current_of_rest h.rest

theorem rest_past (c : Cursor) (n : Nat) : (c.past n).rest = c.rest.drop n := by
  induction n generalizing c with
  | zero => rfl
  | succ n ih => rw [past, ih, advance, List.drop_tail]

/-- Tokens are taken one after the other. -/
theorem Takes.split (h : c.Takes (ts ++ us) e) : ∃ d, c.Takes ts d ∧ d.Takes us e := by
  have hrest := h.rest
  refine ⟨c.past ts.length, ⟨?_, rfl⟩, ⟨?_, ?_⟩⟩
  · rw [rest_past, hrest, List.append_assoc, List.drop_left]
  · rw [rest_past, hrest, List.append_assoc, List.drop_left]
  · rw [h.eq, List.length_append, past_add]

theorem Takes.tail (h : c.Takes (t :: ts) d) : c.advance.Takes ts d where
  rest := by
    have := h.rest
    simp only [Cursor.advance, this]
    rfl
  eq := h.eq

theorem Takes.nil (h : c.Takes [] d) : d = c := h.eq

theorem Takes.opened (h : c.Takes ts d) : c.opened.Takes ts d.opened where
  rest := h.rest
  eq := by rw [h.eq, past_opened]

/-- Behind taken tokens the last of them is the previous one. -/
theorem Takes.previous (h : c.Takes ts d) (hne : ts ≠ []) :
    ts.getLast? = some d.previous := by
  induction ts generalizing c with
  | nil => exact absurd rfl hne
  | cons t ts ih =>
      have hadvance := h.tail
      cases ts with
      | nil =>
          rw [hadvance.eq]
          show some t = some c.current
          rw [h.current]
      | cons u us =>
          rw [List.getLast?_cons_cons]
          exact ih hadvance (by simp)

theorem Takes.spanFrom (h : c.Takes ts d) (hne : ts ≠ []) :
    d.spanFrom c.current = Token.spanOver c.path ts := by
  cases ts with
  | nil => exact absurd rfl hne
  | cons t ts =>
      rw [Token.spanOver, h.previous hne, h.current, Cursor.spanFrom, h.path]
      rfl

/-- A token of a kind other than the end is there. -/
theorem rest_of_sees {k : Lexeme.Kind} (h : c.sees k = true) (hk : k ≠ .endOfInput) :
    c.rest = c.current :: c.advance.rest := by
  have hne := ne_end_of_sees h hk
  cases hr : c.rest with
  | nil => exact absurd (by rw [current, hr]) hne
  | cons t us => rw [current, advance, hr]; rfl

/-- Behind an opening bracket fewer tokens are left. -/
theorem opened_lt {k : Lexeme.Kind} (h : c.sees k = true) (hk : k ≠ .endOfInput) :
    c.advance.opened.remaining < c.remaining := (follows_advance_of_sees h hk).le

theorem sees_iff {k : Lexeme.Kind} {l : Lexeme} (hk : k.mark? = some l) :
    c.sees k = true ↔ c.current.lexeme = l := by
  unfold sees Token.kind
  cases k <;> cases hk <;> cases c.current.lexeme <;> simp [Lexeme.kind]

/-- Some bracket is open. -/
def inside (c : Cursor) : Bool := c.depth ≠ 0

theorem depth_of_inside (h : c.inside = true) : c.depth ≠ 0 := of_decide_eq_true h

theorem Takes.inside (h : c.Takes ts d) : d.inside = c.inside := by
  rw [Cursor.inside, h.depth, Cursor.inside]

theorem inside_opened (h : 0 ≤ c.depth) : c.opened.inside = true := by
  have : c.depth + 1 ≠ 0 := by omega
  exact decide_eq_true this

/-- Behind a gap stands a token that counts, and no comment. -/
def GapEnds (d : Cursor) : Prop :=
  d.inside = true → d.sees .newline = false ∧ d.sees .comment = false

end Cursor

end GlyphFormat
