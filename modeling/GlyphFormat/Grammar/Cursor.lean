import GlyphFormat.Token.Basic

/-!
# Cursors

A cursor is a place in a list of tokens, with what the grammar must know about the way there: the
token before it and how many brackets are open. Behind the last token stands an end of input without
extent.

`Follows` says that a cursor lies behind another; reading never goes back.
-/

namespace GlyphFormat

structure Cursor where
  /-- The file that spans name. -/
  path : Option Path
  rest : List Token
  taken : Nat
  /-- The token before the cursor; at the very start, the first token itself. -/
  previous : Token
  /-- Opened brackets less closed ones. -/
  depth : Int

namespace Cursor

/-- The end of input of an empty list of tokens. -/
def noToken : Token := ⟨.endOfInput, ⟨0, 0⟩, ⟨0, 0⟩⟩

def ofTokens (path : Option Path) (tokens : List Token) : Cursor :=
  ⟨path, tokens, 0, tokens.head?.getD noToken, 0⟩

def current (c : Cursor) : Token :=
  match c.rest with
  | t :: _ => t
  | [] => ⟨.endOfInput, c.previous.stop, ⟨0, 0⟩⟩

/-- The token that lies `n` places ahead. -/
def peek (c : Cursor) (n : Nat) : Token := (c.rest[n]?).getD noToken

def advance (c : Cursor) : Cursor :=
  { c with rest := c.rest.tail, taken := c.taken + 1, previous := c.current }

/-- The current token is of the kind. -/
def sees (c : Cursor) (k : Lexeme.Kind) : Bool := c.current.kind = k

def atEnd (c : Cursor) : Bool := c.sees .endOfInput

def skip (c : Cursor) (k : Lexeme.Kind) : Cursor := if c.sees k then c.advance else c

def opened (c : Cursor) : Cursor := { c with depth := c.depth + 1 }

def closed (c : Cursor) : Cursor := { c with depth := c.depth - 1 }

def here (c : Cursor) : Span := c.current.span c.path

/-- From the start of a token to the end of the one before the cursor. -/
def spanFrom (c : Cursor) (t : Token) : Span := ⟨c.path, t.start, c.previous.stop⟩

/-- How many tokens are left. -/
def remaining (c : Cursor) : Nat := c.rest.length

/-- The cursor `d` lies at least `k` tokens behind `c`. -/
def Follows (d c : Cursor) (k : Nat) : Prop :=
  ∃ between : List Token, k ≤ between.length ∧ c.rest = between ++ d.rest

theorem Follows.refl (c : Cursor) : c.Follows c 0 := ⟨[], Nat.le_refl _, rfl⟩

theorem Follows.trans {b c d : Cursor} {j k : Nat} (h : d.Follows c k) (h' : c.Follows b j) :
    d.Follows b (j + k) := by
  obtain ⟨s, hs, hd⟩ := h
  obtain ⟨t, ht, hc⟩ := h'
  exact ⟨t ++ s, by simp; omega, by rw [hc, hd, List.append_assoc]⟩

theorem Follows.mono {c d : Cursor} {j k : Nat} (h : d.Follows c k) (hj : j ≤ k) :
    d.Follows c j := by
  obtain ⟨s, hs, hd⟩ := h
  exact ⟨s, by omega, hd⟩

theorem Follows.le {c d : Cursor} {k : Nat} (h : d.Follows c k) :
    d.remaining + k ≤ c.remaining := by
  obtain ⟨s, hs, hd⟩ := h
  simp only [remaining, hd, List.length_append]
  omega

/-- A cursor that follows another with as many tokens left sees the same tokens. -/
theorem Follows.rest_eq {c d : Cursor} {k : Nat} (h : d.Follows c k)
    (hr : c.remaining ≤ d.remaining) : d.rest = c.rest := by
  obtain ⟨s, hs, hd⟩ := h
  have : s = [] := by
    simp only [remaining, hd, List.length_append] at hr
    exact List.eq_nil_of_length_eq_zero (by omega)
  rw [hd, this, List.nil_append]

theorem follows_advance (c : Cursor) : c.advance.Follows c 0 := by
  match h : c.rest with
  | [] => exact ⟨[], Nat.le_refl _, by simp [advance, h]⟩
  | t :: ts => exact ⟨[t], Nat.zero_le _, by simp [advance, h]⟩

theorem follows_advance_of_ne_end {c : Cursor} (h : c.current.lexeme ≠ .endOfInput) :
    c.advance.Follows c 1 := by
  match hr : c.rest with
  | [] => simp [current, hr] at h
  | t :: ts => exact ⟨[t], Nat.le_refl _, by simp [advance, hr]⟩

theorem ne_end_of_sees {c : Cursor} {k : Lexeme.Kind} (h : c.sees k = true)
    (hk : k ≠ .endOfInput) : c.current.lexeme ≠ .endOfInput := by
  intro he
  simp only [sees, Token.kind, he, decide_eq_true_eq] at h
  exact hk h.symm

theorem follows_advance_of_sees {c : Cursor} {k : Lexeme.Kind} (h : c.sees k = true)
    (hk : k ≠ .endOfInput) : c.advance.Follows c 1 :=
  follows_advance_of_ne_end (ne_end_of_sees h hk)

theorem Follows.past {c d : Cursor} (h : d.Follows c.advance 0) : d.Follows c 0 :=
  h.trans c.follows_advance

theorem Follows.after {b c d : Cursor} (h : d.Follows c 0) (h' : c.Follows b 0) :
    d.Follows b 0 := h.trans h'

end Cursor

end GlyphFormat
