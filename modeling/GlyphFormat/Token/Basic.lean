import GlyphFormat.Diagnostic
import GlyphFormat.Literal.Number
import GlyphFormat.Primitive

/-!
# Tokens

A lexeme is what a piece of source text means to the grammar: its kind, and the value that a
literal, a name, a primitive or a comment carries. A token is a lexeme with its place.
-/

namespace GlyphFormat

inductive Lexeme where
  | number (value : Binary64)
  /-- The content of a character literal, which the scanner lets be one code point only. -/
  | char (content : Text)
  | string (content : Text)
  | ident (name : Text)
  /-- The letters behind the colon. -/
  | selector (letters : Text)
  | primitive (p : Primitive)
  | underscore
  | openSquare
  | closeSquare
  | openRound
  | closeRound
  | pipe
  | assign
  | newline
  | comment (text : Text)
  | endOfInput
  deriving DecidableEq

namespace Lexeme

inductive Kind where
  | number | char | string | ident | selector | primitive | underscore | openSquare | closeSquare
  | openRound | closeRound | pipe | assign | newline | comment | endOfInput
  deriving DecidableEq

def kind : Lexeme → Kind
  | .number _ => .number
  | .char _ => .char
  | .string _ => .string
  | .ident _ => .ident
  | .selector _ => .selector
  | .primitive _ => .primitive
  | .underscore => .underscore
  | .openSquare => .openSquare
  | .closeSquare => .closeSquare
  | .openRound => .openRound
  | .closeRound => .closeRound
  | .pipe => .pipe
  | .assign => .assign
  | .newline => .newline
  | .comment _ => .comment
  | .endOfInput => .endOfInput

/-- The name of a kind in messages and dumps. -/
def Kind.name : Kind → String
  | .number => "NUMBER"
  | .char => "CHAR"
  | .string => "STRING"
  | .ident => "IDENT"
  | .selector => "SELECTOR"
  | .primitive => "PRIMITIVE"
  | .underscore => "UNDERSCORE"
  | .openSquare => "LSQB"
  | .closeSquare => "RSQB"
  | .openRound => "LPAR"
  | .closeRound => "RPAR"
  | .pipe => "PIPE"
  | .assign => "ASSIGN"
  | .newline => "NEWLINE"
  | .comment => "COMMENT"
  | .endOfInput => "EOF"

/-- The value of a lexeme as text. A primitive shows its canonical form. -/
def valueText : Lexeme → Text
  | .number x => x.inMessage
  | .char t | .string t | .ident t | .selector t | .comment t => t
  | .primitive p => p.display
  | .underscore => "_"
  | .openSquare => "["
  | .closeSquare => "]"
  | .openRound => "("
  | .closeRound => ")"
  | .pipe => "|"
  | .assign => "="
  | .newline => "\n"
  | .endOfInput => "None"

/-- How a message calls a lexeme. -/
def describe (l : Lexeme) : Text :=
  match l with
  | .endOfInput => "end of input"
  | .newline => "end of line"
  | .comment _ => "comment"
  | .number _ => "number"
  | .char _ => "char"
  | .string _ => "string"
  | .selector _ => "selector"
  | _ => "'" ++ l.valueText ++ "'"

/-- The character that a punctuation mark is written with. -/
def ofPunctuation? (c : CodePoint) : Option Lexeme :=
  if c = '_' then some .underscore
  else if c = '[' then some .openSquare
  else if c = ']' then some .closeSquare
  else if c = '(' then some .openRound
  else if c = ')' then some .closeRound
  else if c = '|' then some .pipe
  else if c = '=' then some .assign
  else none

end Lexeme

/-- The characters that begin or make up tokens of their own, so that no glyph may use them. -/
def reservedCharacters : Text := "\"#'():=[]_|"

theorem glyph_not_reserved {p : Primitive} {g : CodePoint} (h : p.glyph? = some g) :
    g ∉ reservedCharacters := by
  cases p <;> simp only [Primitive.glyph?, Option.some.injEq, reduceCtorEq] at h <;>
    subst h <;> decide

structure Token where
  lexeme : Lexeme
  start : Position
  stop : Position
  deriving DecidableEq

namespace Token

def kind (t : Token) : Lexeme.Kind := t.lexeme.kind

def span (path : Option Path) (t : Token) : Span := ⟨path, t.start, t.stop⟩

/-- A plain view of a token: its kind, its quoted value and where it starts. The line break shows as
an escape. -/
def inspect (t : Token) : Text :=
  let value : Text :=
    match t.lexeme with
    | .endOfInput => "None"
    | .newline => "'\\n'"
    | l => "'" ++ l.valueText ++ "'"
  "Tok(" ++ Text.ofString t.kind.name ++ ", " ++ value ++ ", " ++ Text.ofNat t.start.line ++ ":" ++
    Text.ofNat t.start.column ++ ")"

end Token

end GlyphFormat
