import GlyphFormat.Grammar.Cursor

/-!
# Reading phrases

Reading a phrase at a cursor ends behind it with a value, or at a token that does not fit with an
error. The type keeps that reading only goes forward, and by how many tokens at least.
-/

namespace GlyphFormat

/-- What is wrong with the tokens of a line. -/
inductive ParseFault where
  | stated (message : Text)
  | expected (k : Lexeme.Kind) (found : Lexeme)
  | expectedWord (found : Lexeme)
  | unexpected (found : Lexeme)
  | commentInBrackets
  | missingOperand (modifier : Lexeme)
  | unclosed (opening : Lexeme)
  | expectedCloser (closer : Text) (opening found : Lexeme)
  deriving DecidableEq

def ParseFault.message : ParseFault → Text
  | .stated m => m
  | .expected k found => "Expected " ++ Text.ofString k.name ++ ", got " ++ found.describe
  | .expectedWord found => "Expected a word, got " ++ found.describe
  | .unexpected found => "Unexpected " ++ found.describe
  | .commentInBrackets => "Comments are not allowed inside brackets"
  | .missingOperand modifier => "Modifier '" ++ modifier.valueText ++ "' is missing its operand"
  | .unclosed opening => "Unclosed '" ++ opening.valueText ++ "'"
  | .expectedCloser closer opening found =>
    "Expected '" ++ closer ++ "' to close '" ++ opening.valueText ++ "', got " ++ found.describe

/-- A fault and the token at which it is reported. -/
structure ParseError where
  fault : ParseFault
  token : Token
  deriving DecidableEq

/-- Reading from `c`: on success, `next` is at least `k` tokens further. -/
inductive Read (c : Cursor) (k : Nat) (α : Type) where
  | ok (value : α) (next : Cursor) (follows : next.Follows c k)
  | fail (error : ParseError) (next : Cursor) (follows : next.Follows c 0)

namespace Read

def next {c : Cursor} {k : Nat} : Read c k α → Cursor
  | .ok _ d _ | .fail _ d _ => d

def result {c : Cursor} {k : Nat} : Read c k α → Except ParseError α
  | .ok a _ _ => .ok a
  | .fail e _ _ => .error e

end Read

namespace Cursor

/-- A fault at the current token. -/
def failHere {k : Nat} (c : Cursor) (f : ParseFault) : Read c k α :=
  .fail ⟨f, c.current⟩ c (.refl c)

/-- Takes a token of the given kind. -/
def expect (c : Cursor) (k : Lexeme.Kind) (message : Text) : Read c 0 Token :=
  if c.sees k then .ok c.current c.advance c.follows_advance
  else c.failHere (if message = [] then .expected k c.current.lexeme else .stated message)

/-- Inside brackets, line breaks do not count and comments must not stand. -/
def skipLayout (c : Cursor) : Read c 0 Unit :=
  if c.depth = 0 then .ok () c (.refl c)
  else if c.sees .comment then c.failHere .commentInBrackets
  else if _ : c.sees .newline then
    match c.advance.skipLayout with
    | .ok _ d hd => .ok () d hd.past
    | .fail e d hd => .fail e d hd.past
  else .ok () c (.refl c)
termination_by c.remaining
decreasing_by exact (follows_advance_of_sees ‹_› (by decide)).le

/-- Takes the bracket that closes `opening`. -/
def close (c : Cursor) (opening : Token) (closer : Lexeme.Kind) (text : Text) : Read c 0 Unit :=
  if c.sees closer then .ok () c.advance.closed c.follows_advance
  else if c.atEnd then .fail ⟨.unclosed opening.lexeme, opening⟩ c (.refl c)
  else c.failHere (.expectedCloser text opening.lexeme c.current.lexeme)

/-- Takes the line break at the end of a line. The end of input ends a line too. -/
def expectLineEnd (c : Cursor) : Read c 0 Unit :=
  if c.sees .newline then .ok () c.advance c.follows_advance
  else if c.atEnd then .ok () c (.refl c)
  else c.failHere (.unexpected c.current.lexeme)

/-- The number of open brackets after a token. -/
def depthAfter (depth : Int) (t : Token) : Int :=
  match t.lexeme with
  | .openSquare | .openRound => depth + 1
  | .closeSquare | .closeRound => depth - 1
  | _ => depth

/-- Goes to the line break that ends the line, past those inside brackets. -/
def toLineEnd (c : Cursor) : Cursor :=
  if _ : c.atEnd then c
  else if c.sees .newline && c.depth ≤ 0 then c
  else toLineEnd { c.advance with depth := depthAfter c.depth c.current }
termination_by c.remaining
decreasing_by
  have hne : c.current.lexeme ≠ .endOfInput := by
    intro he
    simp_all [atEnd, sees, Token.kind, Lexeme.kind]
  exact (follows_advance_of_ne_end hne).le

/-- Goes to the start of the next line, with no bracket open. -/
def recover (c : Cursor) : Cursor := ({ c.toLineEnd with depth := 0 } : Cursor).skip .newline

end Cursor

end GlyphFormat
