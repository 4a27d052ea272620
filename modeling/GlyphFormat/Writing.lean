import GlyphFormat.Layout
import GlyphFormat.Literal.Number
import GlyphFormat.Literal.Quoted
import GlyphFormat.Scope
import GlyphFormat.Tree.Selector

/-!
# Canonical text

Writing puts the canonical text of items, one line each, behind the text that is there. A name that
the scope does not bind and that names a primitive is written as that primitive. What was written
and asked before a fault stays.
-/

namespace GlyphFormat

/-- Why a tree has no text. -/
inductive WriteFault where
  | noWord
  | noCharacter
  deriving DecidableEq

def WriteFault.message : WriteFault → Text
  | .noWord => "Not a word: None"
  | .noCharacter => "chr() arg not in range(0x110000)"

/-- The text written so far and the scope that is asked about names. -/
structure Sheet (σ : Type) where
  layout : Layout := {}
  scope : σ

abbrev Writing (σ : Type) := ExceptT WriteFault (StateM (Sheet σ))

namespace Writing

variable {σ : Type}

def onLayout (f : Layout → Layout) : Writing σ Unit :=
  modify fun s => { s with layout := f s.layout }

def push (t : Text) : Writing σ Unit := onLayout (·.push t)

/-- Notes that a strand ends here. -/
def endStrand : Writing σ Unit := onLayout ({ · with afterStrand := true })

def isBound [Scope σ] (name : Text) : Writing σ Bool :=
  modifyGet fun s =>
    let (b, scope) := Scope.isBound name s.scope
    (b, { s with scope })

def register [Scope σ] (item : Item) : Writing σ Unit :=
  modify fun s => { s with scope := Scope.register item s.scope }

def primitive (p : Primitive) : Writing σ Unit := do
  if p.startsWithLetter then onLayout Layout.spaceAfterAlphanumeric
  push p.display

/-- A literal, which keeps apart from a letter or digit before it. -/
def literal (t : Text) : Writing σ Unit := do
  onLayout Layout.spaceAfterAlphanumeric
  push t

/-- The primitive that a name stands for here, if it stands for one. -/
def primitiveOf? [Scope σ] (name : Text) : Writing σ (Option Primitive) := do
  if ← isBound name then return none
  return Primitive.ofName? name

mutual

def word [Scope σ] : Word → Writing σ Unit
  | .number x _ => literal x.format
  | .char t _ => literal (quoteChar t)
  | .string t _ => literal (quoteString t)
  | .ident name _ => do
    match ← primitiveOf? name with
    | some p => primitive p
    | none =>
      onLayout Layout.spaceAfterLetter
      push name
  | .selector s _ => do
    onLayout Layout.spaceAfterLetter
    match s.toText? with
    | some t => push t
    | none => throw .noCharacter
  | .prim p _ => primitive p
  | .strand [] _ => endStrand
  | .strand (w :: ws) _ => do
    word w
    members ws
    endStrand
  | .array ws _ => do
    push "["
    words ws
    push "]"
  | .func ws _ => do
    push "("
    words ws
    push ")"
  | .funcArray [] _ => do
    push "("
    push ")"
  | .funcArray (b :: bs) _ => do
    push "("
    words b
    alternatives bs
    push ")"
  | .modified m w _ => do
    word m
    word w
  | .missing => throw .noWord

def words [Scope σ] : List Word → Writing σ Unit
  | [] => pure ()
  | w :: ws => do
    word w
    words ws

/-- Members of a strand, each behind an underscore. -/
def members [Scope σ] : List Word → Writing σ Unit
  | [] => pure ()
  | w :: ws => do
    push "_"
    word w
    members ws

/-- Bodies of a function, each behind a bar. -/
def alternatives [Scope σ] : List (List Word) → Writing σ Unit
  | [] => pure ()
  | b :: bs => do
    push "|"
    words b
    alternatives bs

end

/-- The text of an item without the end of its line. -/
def itemText [Scope σ] : Item → Writing σ Unit
  | .words ws _ => words ws
  | .binding name ws _ _ => do
    push name
    push " = "
    words ws
  | .comment t _ => do
    push "# "
    push t
  | .newlines _ => pure ()
  | .missing => pure ()

def item [Scope σ] (i : Item) : Writing σ Unit := do
  itemText i
  register i
  push "\n"

def items [Scope σ] : List Item → Writing σ Unit
  | [] => pure ()
  | i :: is => do
    item i
    items is

/-- What happens on a fresh sheet: the outcome, and the sheet at the end. -/
def onSheet (w : Writing σ α) (scope : σ) : Except WriteFault α × Sheet σ := w.run { scope }

end Writing

end GlyphFormat
