import GlyphFormat.Token.Literal

/-!
# Scanning one lexeme

The first character decides which lexeme stands at the front of a text. Glyphs come before letters,
so no glyph begins a name.
-/

namespace GlyphFormat.Lexeme

/-- A line break: a line feed, alone or behind a carriage return. -/
def scanNewline (s : Text) : Scan Lexeme :=
  if Text.first s = '\r' then
    if Text.first s.tail = '\n' then .found 2 .newline else .fault 0 .bareCarriageReturn
  else .found 1 .newline

/-- A comment without its mark runs to the end of the line. One leading space is dropped. -/
def scanComment (s : Text) : Scan Lexeme :=
  let text := s.takeWhile (!·.isLineBreak)
  .found text.length (.comment (if Text.first text = ' ' then text.tail else text))

def scanIdent (s : Text) : Scan Lexeme :=
  let name := s.takeWhile CodePoint.isLetter
  .found name.length (.ident name)

/-- A selector, behind its colon. -/
def scanSelector (s : Text) : Scan Lexeme :=
  let letters := s.takeWhile CodePoint.isSmallLetter
  if letters = [] then .fault 0 .emptySelector else .found letters.length (.selector letters)

/-- A scan of what follows one character. -/
def afterOne (scan : Text → Scan Lexeme) (s : Text) : Scan Lexeme := (scan s.tail).after 1

/-- What a first character promises. -/
inductive Opening where
  | comment | newline | string | char | number | selector
  | glyph (p : Primitive)
  | letter
  | punctuation (l : Lexeme)
  | nothing

def Opening.of (c : CodePoint) : Opening :=
  if c = '#' then .comment
  else if c.isLineBreak then .newline
  else if c = '"' then .string
  else if c = '\'' then .char
  else if c.isDigit then .number
  else if c = ':' then .selector
  else match Primitive.ofGlyph? c with
    | some p => .glyph p
    | none =>
      if c.isLetter then .letter
      else match ofPunctuation? c with
        | some l => .punctuation l
        | none => .nothing

/-- The lexeme at the front of a text. -/
def scan (s : Text) : Scan Lexeme :=
  match Opening.of (Text.first s) with
  | .comment => afterOne scanComment s
  | .newline => scanNewline s
  | .string => afterOne scanString s
  | .char => afterOne scanChar s
  | .number => scanNumber s
  | .selector => afterOne scanSelector s
  | .glyph p => .found 1 (.primitive p)
  | .letter => scanIdent s
  | .punctuation l => .found 1 l
  | .nothing => .fault 0 (.unexpected (Text.first s))

end GlyphFormat.Lexeme
