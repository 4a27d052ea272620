import GlyphFormat.Command.Settings
import GlyphFormat.File.Source

/-!
# The log

What the parts of the program tell about themselves, each with its weight and where it comes from.
-/

namespace GlyphFormat

structure LogEntry where
  level : Level
  /-- The part of the program that speaks. -/
  origin : String
  message : Text

namespace LogEntry

def toText (e : LogEntry) : Text :=
  Text.ofString e.level.name ++ " " ++ Text.ofString e.origin ++ ": " ++ e.message

def ofNote : BindingNote → LogEntry
  | .rebinds name => ⟨.debug, "glyph_ref.compiler", "rebinding '" ++ name ++ "'"⟩
  | .shadows name =>
    ⟨.debug, "glyph_ref.compiler",
      "'" ++ name ++ "' now shadows the primitive of the same name"⟩

def ofFormatEvent : FormatEvent → LogEntry
  | .parsed n path =>
    ⟨.debug, "glyph_ref.formatter",
      "parsed " ++ Text.ofNat n ++ " item(s) from " ++ Span.sourceName path⟩
  | .noted note => ofNote note
  | .unresolved n =>
    ⟨.debug, "glyph_ref.formatter",
      "resolution produced " ++ Text.ofNat n ++ " diagnostic(s)"⟩

def ofFileEvent : FileEvent → LogEntry
  | .format e => ofFormatEvent e
  | .unchanged p => ⟨.debug, "glyph_ref.formatter", p.toText ++ " unchanged"⟩
  | .wrote p => ⟨.debug, "glyph_ref.formatter", "wrote " ++ p.toText⟩

def formatting (p : Path) : LogEntry :=
  ⟨.info, "glyph_ref.runner", "formatting " ++ p.toText⟩

end LogEntry

end GlyphFormat
