import GlyphFormat.Scope

/-!
# Name resolution

A name stands for the binding that came before it or else for a primitive. An item is resolved as a
whole: its own binding counts from the next item on. A later binding of a name takes the place of an
earlier one, and of a primitive.
-/

namespace GlyphFormat

/-- Something worth knowing about a binding that is no fault. -/
inductive BindingNote where
  | rebinds (name : Text)
  | shadows (name : Text)
  deriving DecidableEq

inductive ResolveFault where
  | unknown (name : Text)
  | noValue (name : Text)
  deriving DecidableEq

def ResolveFault.message : ResolveFault → Text
  | .unknown name => "Unknown identifier '" ++ name ++ "'"
  | .noValue name => "Binding '" ++ name ++ "' has no value"

structure Resolver where
  /-- The bound names, each once, with the span of the name in its last binding. -/
  bindings : List (Text × Option Span) := []
  faults : List Diagnostic := []
  notes : List BindingNote := []

namespace Resolver

def isBound (r : Resolver) (name : Text) : Bool := r.bindings.any (·.1 = name)

/-- A name that stands for something here. -/
def knows (r : Resolver) (name : Text) : Bool :=
  r.isBound name || (Primitive.ofName? name).isSome

def report (r : Resolver) (f : ResolveFault) (span : Option Span) : Resolver :=
  { r with faults := r.faults ++ [⟨f.message, span.getD .nowhere, .resolve⟩] }

/-- Reports the names of an item that stand for nothing. -/
def resolve (r : Resolver) (names : List (Text × Option Span)) : Resolver :=
  names.foldl (fun r n => if r.knows n.1 then r else r.report (.unknown n.1) n.2) r

/-- What there is to note when the name is bound. -/
def note? (r : Resolver) (name : Text) : Option BindingNote :=
  if r.isBound name then some (.rebinds name)
  else if (Primitive.ofName? name).isSome then some (.shadows name)
  else none

/-- The bindings with a new one for the name. -/
def setBinding (name : Text) (span : Option Span) :
    List (Text × Option Span) → List (Text × Option Span)
  | [] => [(name, span)]
  | b :: bs => if b.1 = name then (name, span) :: bs else b :: setBinding name span bs

def bind (r : Resolver) (name : Text) (ws : List Word) (nameSpan span : Option Span) : Resolver :=
  let r := if ws.isEmpty then r.report (.noValue name) span else r
  { r with
    notes := r.notes ++ (r.note? name).toList
    bindings := setBinding name nameSpan r.bindings }

def register (r : Resolver) (item : Item) : Resolver :=
  let r := r.resolve item.idents
  match item with
  | .binding name ws nameSpan span => r.bind name ws nameSpan span
  | _ => r

instance : Scope Resolver where
  isBound name r := (r.isBound name, r)
  register item r := r.register item
  diagnostics r := r.faults

end Resolver

end GlyphFormat
