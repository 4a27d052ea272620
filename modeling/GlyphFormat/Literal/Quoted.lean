import GlyphFormat.Text.Printable

/-!
# Quoted literals

Between its quotes a literal holds printable characters as themselves; its own quote, the backslash
and all else is written as an escape: a backslash and a letter where the language has one, else the
hexadecimal number of the code point in braces.
-/

namespace GlyphFormat

namespace Escape

/-- The letters that may follow a backslash, with the code point each stands for. -/
def letters : List (CodePoint × CodePoint) :=
  [('n', '\n'), ('t', '\t'), ('r', '\r'), ('0', '\x00'), ('\\', '\\'), ('\'', '\''), ('"', '"')]

/-- The code point that a letter behind a backslash stands for. -/
def meaning? (letter : CodePoint) : Option CodePoint :=
  (letters.find? fun p => p.1 = letter).map (·.2)

/-- The letter that a code point needs when it is no quote. Quotes stand for themselves inside the
other kind of literal. -/
def letter? (c : CodePoint) : Option CodePoint :=
  if c = '\'' || c = '"' then none else (letters.find? fun p => p.2 = c).map (·.1)

/-- An escape by number. -/
def byNumber (c : CodePoint) : Text :=
  "\\u\x7b" ++ Text.numeral 16 c.val ++ "\x7d"

end Escape

/-- One code point of a literal with the given quote. -/
def quoteOne (quote : Option CodePoint) (c : CodePoint) : Text :=
  if some c = quote then ['\\', c]
  else match Escape.letter? c with
    | some l => ['\\', l]
    | none => if c.isPrintable then [c] else Escape.byNumber c

/-- The inside of a literal with the given quote; without one, no code point counts as a quote. -/
def quoteText (quote : Option CodePoint) (t : Text) : Text := t.flatMap (quoteOne quote)

/-- A character literal. -/
def quoteChar (t : Text) : Text := "'" ++ quoteText (some '\'') t ++ "'"

/-- A string literal. -/
def quoteString (t : Text) : Text := "\"" ++ quoteText (some '"') t ++ "\""

end GlyphFormat
