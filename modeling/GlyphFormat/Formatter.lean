import GlyphFormat.Grammar.Program
import GlyphFormat.Resolver
import GlyphFormat.Text.Blank
import GlyphFormat.Writing

/-!
# Formatting

A program is written item by item and then loses the blanks at its end. It has a canonical text only
if nothing was reported: not by the scan, not by the grammar, not by the scope. Each phase reports
alone; a later one does not begin before the earlier ones are content.
-/

namespace GlyphFormat

/-- Why there is no canonical text. -/
inductive FormatFailure where
  | reported (diagnostics : List Diagnostic)
  | unwritable (fault : WriteFault)
  deriving DecidableEq

/-- The canonical text of items under a scope, and the scope at the end. -/
def formatItems {σ : Type} [Scope σ] (items : List Item) (scope : σ) :
    Except FormatFailure Text × σ :=
  match (Writing.items items).onSheet scope with
  | (.error f, sheet) => (.error (.unwritable f), sheet.scope)
  | (.ok (), sheet) =>
    match Scope.diagnostics sheet.scope with
    | [] => (.ok (sheet.layout.text.trimRight ++ "\n"), sheet.scope)
    | ds => (.error (.reported ds), sheet.scope)

/-- What formatting a source tells about itself. -/
inductive FormatEvent where
  | parsed (items : Nat) (path : Option Path)
  | noted (note : BindingNote)
  | unresolved (faults : Nat)
  deriving DecidableEq

/-- The outcome of formatting a source, with the events on the way. -/
structure Formatting where
  outcome : Except FormatFailure Text
  events : List FormatEvent

/-- Formats a source; the path only labels diagnostics. -/
def format (source : Text) (path : Option Path) : Formatting :=
  let program := parse source path
  let start := FormatEvent.parsed program.items.length path
  match program.diagnostics with
  | [] =>
    let (outcome, resolver) := formatItems program.items ({} : Resolver)
    let last := match outcome with
      | .error (.reported ds) => [FormatEvent.unresolved ds.length]
      | _ => []
    ⟨outcome, start :: resolver.notes.map .noted ++ last⟩
  | ds => ⟨.error (.reported ds), [start]⟩

/-- The canonical text of a source. -/
def formatSource (source : Text) (path : Option Path) : Except FormatFailure Text :=
  (format source path).outcome

end GlyphFormat
