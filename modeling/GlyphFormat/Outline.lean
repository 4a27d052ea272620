import GlyphFormat.Literal.Quoted
import GlyphFormat.Token.Basic
import GlyphFormat.Tree.Selector

/-!
# Outlines

The outline of a program is a tree of labels whose leaves are the tokens that carry content, each
with its canonical text. It is shown with one node a line, deeper nodes further to the right.
-/

namespace GlyphFormat

inductive Outline where
  | node (label : String) (children : List Outline)
  | leaf (kind : Lexeme.Kind) (text : Text) (span : Option Span)

namespace Outline

/-- Why a tree has no outline. -/
inductive Fault where
  | noNode
  | noCharacter
  deriving DecidableEq

def Fault.message : Fault → Text
  | .noNode => "Not a syntax node: None"
  | .noCharacter => "chr() arg not in range(0x110000)"

mutual

def ofWord : Word → Except Fault Outline
  | .number x span => .ok (.leaf .number x.format span)
  | .char t span => .ok (.leaf .char (quoteChar t) span)
  | .string t span => .ok (.leaf .string (quoteString t) span)
  | .ident name span => .ok (.leaf .ident name span)
  | .selector s span =>
    match s.toText? with
    | some t => .ok (.leaf .selector t span)
    | none => .error .noCharacter
  | .prim p span => .ok (.leaf .primitive p.name span)
  | .strand ws _ => do return .node "strand" (← ofWords ws)
  | .array ws _ => do return .node "array" (← ofWords ws)
  | .func ws _ => do return .node "func" (← ofWords ws)
  | .funcArray bodies _ => do return .node "func_array" (← ofBodies bodies)
  | .modified m w _ => do
    let o ← ofWord m
    return .node "modified" [o, ← ofWord w]
  | .missing => .error .noNode

def ofWords : List Word → Except Fault (List Outline)
  | [] => .ok []
  | w :: ws => do
    let o ← ofWord w
    return o :: (← ofWords ws)

def ofBodies : List (List Word) → Except Fault (List Outline)
  | [] => .ok []
  | b :: bs => do
    let os ← ofWords b
    return .node "body" os :: (← ofBodies bs)

end

def ofItem : Item → Except Fault Outline
  | .words ws _ => do return .node "words" (← ofWords ws)
  | .binding name ws nameSpan _ => do
    return .node "binding" [.leaf .ident name nameSpan, .node "words" (← ofWords ws)]
  | .comment t span => .ok (.node "comment" [.leaf .comment t span])
  | .newlines _ => .ok (.node "newlines" [])
  | .missing => .error .noNode

def ofItems : List Item → Except Fault (List Outline)
  | [] => .ok []
  | i :: is => do
    let o ← ofItem i
    return o :: (← ofItems is)

/-- The outline of a program. -/
def ofProgram (items : List Item) : Except Fault Outline := do
  return .node "start" (← ofItems items)

/-- Two spaces for each level. -/
def indent (level : Nat) : Text := List.replicate (2 * level) ' '

mutual

/-- The lines of an outline at a level. A lone leaf stands on its parent's line, behind a tab. -/
def showAt (level : Nat) : Outline → Text
  | .leaf _ t _ => indent level ++ t ++ "\n"
  | .node label [.leaf _ t _] => indent level ++ Text.ofString label ++ "\t" ++ t ++ "\n"
  | .node label children =>
    indent level ++ Text.ofString label ++ "\n" ++ showAllAt (level + 1) children

def showAllAt (level : Nat) : List Outline → Text
  | [] => []
  | o :: os => showAt level o ++ showAllAt level os

end

def toText (o : Outline) : Text := showAt 0 o

end Outline

end GlyphFormat
