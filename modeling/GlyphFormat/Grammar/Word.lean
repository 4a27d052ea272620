import GlyphFormat.Grammar.Read
import GlyphFormat.Tree.Selector

/-!
# The grammar of words

    word    ::= modifier word | strand
    strand  ::= term ("_" term)*
    term    ::= atom | "[" word* "]" | "(" word* ("|" word*)* ")"

An atom is a literal, a name, a selector or a primitive. A modifier is a primitive of that kind,
spelled by its glyph or by its name; at the head of a word it always takes the next word. Inside
brackets, line breaks may stand before a word and in front of `|` and closing brackets.
-/

namespace GlyphFormat

namespace Lexeme

/-- A word may begin with the lexeme. -/
def startsWord : Lexeme → Bool
  | .number _ | .char _ | .string _ | .ident _ | .selector _ | .primitive _ | .openSquare
  | .openRound => true
  | _ => false

end Lexeme

namespace Token

/-- The word that a token is by itself. -/
def atom? (path : Option Path) (t : Token) : Option Word :=
  let span := some (t.span path)
  match t.lexeme with
  | .number x => some (.number x span)
  | .char s => some (.char s span)
  | .string s => some (.string s span)
  | .ident n => some (.ident n span)
  | .selector letters => some (.selector (.ofLetters letters) span)
  | .primitive p => some (.prim p span)
  | _ => none

/-- The word that a token is when it modifies the next one. -/
def modifier? (path : Option Path) (t : Token) : Option Word :=
  match t.lexeme with
  | .primitive p => if p.isModifier then some (.prim p (t.span path)) else none
  | .ident n => if Primitive.isModifierName n then some (.ident n (t.span path)) else none
  | _ => none

theorem ne_end_of_atom? {path : Option Path} {t : Token} {w : Word} (h : t.atom? path = some w) :
    t.lexeme ≠ .endOfInput := by
  intro he
  simp [atom?, he] at h

theorem ne_end_of_modifier? {path : Option Path} {t : Token} {w : Word}
    (h : t.modifier? path = some w) : t.lexeme ≠ .endOfInput := by
  intro he
  simp [modifier?, he] at h

end Token

namespace Cursor

def startsWord (c : Cursor) : Bool := c.current.lexeme.startsWord

/-- The current token, as a modifier. -/
def modifier? (c : Cursor) : Option Word := c.current.modifier? c.path

mutual

/-- As many words as there are. -/
def words (c : Cursor) : Read c 0 (List Word) :=
  match c.skipLayout with
  | .fail e d h => .fail e d h
  | .ok _ d h =>
    if d.startsWord then
      match word d with
      | .fail e f hf => .fail e f (hf.trans h)
      | .ok w f hf =>
        match words f with
        | .fail e g hg => .fail e g ((hg.trans (hf.trans h)).mono (Nat.zero_le _))
        | .ok ws g hg => .ok (w :: ws) g ((hg.trans (hf.trans h)).mono (Nat.zero_le _))
    else .ok [] d h
termination_by 8 * c.remaining + 5
decreasing_by
  · have := h.le; omega
  · have := h.le; have := hf.le; omega

def word (c : Cursor) : Read c 1 Word :=
  match hm : c.modifier? with
  | none => strand c
  | some m =>
    have ha : c.advance.Follows c 1 := follows_advance_of_ne_end (Token.ne_end_of_modifier? hm)
    match c.advance.skipLayout with
    | .fail e d h => .fail e d ((h.trans ha).mono (Nat.zero_le _))
    | .ok _ d h =>
      if d.startsWord then
        match word d with
        | .fail e f hf => .fail e f ((hf.trans (h.trans ha)).mono (Nat.zero_le _))
        | .ok w f hf =>
          .ok (.modified m w (f.spanFrom c.current)) f
            ((hf.trans (h.trans ha)).mono (by omega))
      else
        .fail ⟨.missingOperand c.current.lexeme, c.current⟩ d ((h.trans ha).mono (Nat.zero_le _))
termination_by 8 * c.remaining + 4
decreasing_by
  · omega
  · have := (h.trans ha).le; omega

/-- Terms joined by underscores; one term alone is no strand. -/
def strand (c : Cursor) : Read c 1 Word :=
  match term c with
  | .fail e d h => .fail e d h
  | .ok t d h =>
    match members d with
    | .fail e f hf => .fail e f ((hf.trans h).mono (Nat.zero_le _))
    | .ok [] f hf => .ok t f (hf.trans h)
    | .ok (u :: us) f hf => .ok (.strand (t :: u :: us) (f.spanFrom c.current)) f (hf.trans h)
termination_by 8 * c.remaining + 3
decreasing_by
  · omega
  · have := h.le; omega

/-- The further members of a strand, each behind an underscore. -/
def members (c : Cursor) : Read c 0 (List Word) :=
  if hs : c.sees .underscore then
    have ha : c.advance.Follows c 1 := follows_advance_of_sees hs (by decide)
    match c.advance.skipLayout with
    | .fail e d h => .fail e d ((h.trans ha).mono (Nat.zero_le _))
    | .ok _ d h =>
      match term d with
      | .fail e f hf => .fail e f ((hf.trans (h.trans ha)).mono (Nat.zero_le _))
      | .ok t f hf =>
        match members f with
        | .fail e g hg => .fail e g ((hg.trans (hf.trans (h.trans ha))).mono (Nat.zero_le _))
        | .ok ts g hg => .ok (t :: ts) g ((hg.trans (hf.trans (h.trans ha))).mono (Nat.zero_le _))
  else .ok [] c (.refl c)
termination_by 8 * c.remaining
decreasing_by
  · have := (h.trans ha).le; omega
  · have := (hf.trans (h.trans ha)).le; omega

def term (c : Cursor) : Read c 1 Word :=
  match ht : c.current.atom? c.path with
  | some w => .ok w c.advance (follows_advance_of_ne_end (Token.ne_end_of_atom? ht))
  | none =>
    if c.sees .openSquare then array c
    else if c.sees .openRound then func c
    else c.failHere (.expectedWord c.current.lexeme)
termination_by 8 * c.remaining + 2

def array (c : Cursor) : Read c 1 Word :=
  if hs : c.sees .openSquare then
    have ha : c.advance.opened.Follows c 1 := follows_advance_of_sees hs (by decide)
    match words c.advance.opened with
    | .fail e d h => .fail e d ((h.trans ha).mono (Nat.zero_le _))
    | .ok ws d h =>
      match d.close c.current .closeSquare "]" with
      | .fail e f hf => .fail e f ((hf.trans (h.trans ha)).mono (Nat.zero_le _))
      | .ok _ f hf => .ok (.array ws (f.spanFrom c.current)) f (hf.trans (h.trans ha))
  else c.failHere (.expected .openSquare c.current.lexeme)
termination_by 8 * c.remaining + 1
decreasing_by have := ha.le; omega

def func (c : Cursor) : Read c 1 Word :=
  if hs : c.sees .openRound then
    have ha : c.advance.opened.Follows c 1 := follows_advance_of_sees hs (by decide)
    match words c.advance.opened with
    | .fail e d h => .fail e d ((h.trans ha).mono (Nat.zero_le _))
    | .ok body d h =>
      match alternatives d with
      | .fail e f hf => .fail e f ((hf.trans (h.trans ha)).mono (Nat.zero_le _))
      | .ok bodies f hf =>
        match f.close c.current .closeRound ")" with
        | .fail e g hg => .fail e g ((hg.trans (hf.trans (h.trans ha))).mono (Nat.zero_le _))
        | .ok _ g hg =>
          let span := g.spanFrom c.current
          let w : Word := if bodies.isEmpty then .func body span
            else .funcArray (body :: bodies) span
          .ok w g (hg.trans (hf.trans (h.trans ha)))
  else c.failHere (.expected .openRound c.current.lexeme)
termination_by 8 * c.remaining + 1
decreasing_by
  · have := ha.le; omega
  · have := (h.trans ha).le; omega

/-- The further bodies of a function, each behind a bar. -/
def alternatives (c : Cursor) : Read c 0 (List (List Word)) :=
  if hs : c.sees .pipe then
    have ha : c.advance.Follows c 1 := follows_advance_of_sees hs (by decide)
    match words c.advance with
    | .fail e d h => .fail e d ((h.trans ha).mono (Nat.zero_le _))
    | .ok body d h =>
      match alternatives d with
      | .fail e f hf => .fail e f ((hf.trans (h.trans ha)).mono (Nat.zero_le _))
      | .ok bodies f hf => .ok (body :: bodies) f ((hf.trans (h.trans ha)).mono (Nat.zero_le _))
  else .ok [] c (.refl c)
termination_by 8 * c.remaining
decreasing_by
  · have := ha.le; omega
  · have := (h.trans ha).le; omega

end

end Cursor

end GlyphFormat
