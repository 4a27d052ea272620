import GlyphFormat.Path

/-!
# Places in a source and findings about it

Lines and columns count code points from one. A span runs from its start up to its stop, the stop
excluded. A diagnostic says what is wrong with the part of a source that a span marks.
-/

namespace GlyphFormat

structure Position where
  line : Nat
  column : Nat
  deriving DecidableEq

/-- The message of a fault at a place. -/
def Position.locate (p : Position) (message : Text) : Text :=
  message ++ " at line " ++ Text.ofNat p.line ++ ", col " ++ Text.ofNat p.column

structure Span where
  /-- The file, when the source has one. -/
  path : Option Path
  start : Position
  stop : Position
  deriving DecidableEq

namespace Span

/-- The span of what has no place in a source. -/
def nowhere : Span := ⟨none, ⟨0, 0⟩, ⟨0, 0⟩⟩

/-- What a source is called in messages. -/
def sourceName (path : Option Path) : Text :=
  match path with
  | some p => p.toText
  | none => "<input>"

/-- From the start of the first span to the stop of the second. -/
def merge (a b : Span) : Span := ⟨a.path, a.start, b.stop⟩

def toText (s : Span) : Text :=
  sourceName s.path ++ ":" ++ Text.ofNat s.start.line ++ ":" ++ Text.ofNat s.start.column

end Span

/-- The phase that finds a fault. -/
inductive Phase where
  | lex | parse | resolve
  deriving DecidableEq

structure Diagnostic where
  message : Text
  span : Span
  phase : Phase := .parse
  deriving DecidableEq

namespace Diagnostic

def toText (d : Diagnostic) : Text := d.span.toText ++ ": " ++ d.message

/-- One line for a list of diagnostics: how many there are, and the first. -/
def summary (ds : List Diagnostic) : Text :=
  Text.ofNat ds.length ++ " diagnostic(s)" ++
    match ds with
    | [] => []
    | d :: _ => ": " ++ d.toText

end Diagnostic

end GlyphFormat
