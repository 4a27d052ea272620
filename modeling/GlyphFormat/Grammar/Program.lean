import GlyphFormat.Grammar.Line
import GlyphFormat.Token.Scanner

/-!
# The grammar of programs

A program is its lines in order. A line that does not fit the grammar gives one diagnostic and no
item, and reading goes on behind it. Of a run of blank lines one item remains; blank lines before
the first line and behind the last one leave nothing.
-/

namespace GlyphFormat

structure Program where
  items : List Item
  diagnostics : List Diagnostic

namespace Program

def empty : Program := ⟨[], []⟩

def withItems (items : List Item) (p : Program) : Program := { p with items := items ++ p.items }

def withDiagnostic (d : Diagnostic) (p : Program) : Program :=
  { p with diagnostics := d :: p.diagnostics }

end Program

/-- The diagnostic for a line that does not fit. -/
def ParseError.diagnostic (path : Option Path) (e : ParseError) : Diagnostic :=
  ⟨e.fault.message, e.token.span path, .parse⟩

/-- The diagnostic for a fault that stops the scan. -/
def LexError.diagnostic (path : Option Path) (e : LexError) : Diagnostic :=
  ⟨e.fault.message, ⟨path, e.position, ⟨e.position.line, e.position.column + 1⟩⟩, .lex⟩

namespace Cursor

/-- Reads lines to the end. `started` tells that there was a line before; `blank` is the first of
the blank lines since then. -/
def lines (c : Cursor) (started : Bool) (blank : Option Span) : Program × Cursor :=
  if _ : c.atEnd then (.empty, c)
  else if _ : c.sees .newline then
    lines c.advance started (if started && blank.isNone then some c.here else blank)
  else
    let gap := (blank.map fun s => Item.newlines (some s)).toList
    match _ : c.line with
    | .ok items d _ =>
      let (p, e) := lines d true none
      (p.withItems (gap ++ items), e)
    | .fail error d _ =>
      let (p, e) := lines d.recover true none
      ((p.withDiagnostic (error.diagnostic c.path)).withItems gap, e)
termination_by c.remaining
decreasing_by
  · exact (follows_advance_of_sees ‹_› (by decide)).le
  · exact line_lt ‹_› (by simp_all) (by simp_all)
  · exact recover_lt ‹_› (by simp_all)

/-- Reads a whole program. -/
def program (c : Cursor) : Program × Cursor := c.lines false none

end Cursor

/-- The program that a source spells. A fault that stops the scan is the only diagnostic. -/
def parse (source : Text) (path : Option Path) : Program :=
  match tokenize source with
  | (_, some e) => ⟨[], [e.diagnostic path]⟩
  | (tokens, none) => (Cursor.ofTokens path tokens).program.1

end GlyphFormat
