import GlyphFormat.Text.Letter

/-!
# Primitives

The built-in words of the language. Each has a name; most have a glyph, a single character that
stands for the same word. The canonical form of a primitive is its glyph, or its name where there is
no glyph.
-/

namespace GlyphFormat

inductive Primitive where
  | dup | over | flip | pop
  | pi | infinity | now | rand
  | not | sign | negate | abs | sqrt | floor | ceiling | round | length | shape | range | first
  | reverse | deshape | transpose | grade | shows | trace
  | add | subtract | multiply | divide | modulus | power | less | greater | minimum | maximum
  | matches | join | couple | pick | select | take | drop | rotate | assert
  | reduce | scan | each | rows | table | repeats
  deriving DecidableEq

namespace Primitive

/-- How a primitive takes its operands. A modifier takes the word behind it. -/
inductive Kind where
  | stack | constant | monadic | dyadic | modifier
  deriving DecidableEq

/-- Every primitive, in the order of the language's own list. -/
def all : List Primitive :=
  [.dup, .over, .flip, .pop, .pi, .infinity, .now, .rand, .not, .sign, .negate, .abs, .sqrt,
  .floor, .ceiling, .round, .length, .shape, .range, .first, .reverse, .deshape, .transpose,
  .grade, .shows, .trace, .add, .subtract, .multiply, .divide, .modulus, .power, .less, .greater,
  .minimum, .maximum, .matches, .join, .couple, .pick, .select, .take, .drop, .rotate, .assert,
  .reduce, .scan, .each, .rows, .table, .repeats]

theorem mem_all (p : Primitive) : p ∈ all := by
  cases p <;> decide

def spelling : Primitive → String
  | .dup => "dup"
  | .over => "over"
  | .flip => "flip"
  | .pop => "pop"
  | .pi => "pi"
  | .infinity => "infinity"
  | .now => "now"
  | .rand => "rand"
  | .not => "not"
  | .sign => "sign"
  | .negate => "negate"
  | .abs => "abs"
  | .sqrt => "sqrt"
  | .floor => "floor"
  | .ceiling => "ceiling"
  | .round => "round"
  | .length => "length"
  | .shape => "shape"
  | .range => "range"
  | .first => "first"
  | .reverse => "reverse"
  | .deshape => "deshape"
  | .transpose => "transpose"
  | .grade => "grade"
  | .shows => "show"
  | .trace => "trace"
  | .add => "add"
  | .subtract => "subtract"
  | .multiply => "multiply"
  | .divide => "divide"
  | .modulus => "modulus"
  | .power => "power"
  | .less => "less"
  | .greater => "greater"
  | .minimum => "minimum"
  | .maximum => "maximum"
  | .matches => "match"
  | .join => "join"
  | .couple => "couple"
  | .pick => "pick"
  | .select => "select"
  | .take => "take"
  | .drop => "drop"
  | .rotate => "rotate"
  | .assert => "assert"
  | .reduce => "reduce"
  | .scan => "scan"
  | .each => "each"
  | .rows => "rows"
  | .table => "table"
  | .repeats => "repeat"

/-- The name by which a program may call the primitive. -/
def name (p : Primitive) : Text := p.spelling

def glyph? : Primitive → Option CodePoint
  | .dup => some '⋅'
  | .over => some ','
  | .flip => some '∶'
  | .pop => some ';'
  | .infinity => some '∞'
  | .not => some '¬'
  | .sign => some '±'
  | .negate => some '¯'
  | .abs => some '⌵'
  | .sqrt => some '√'
  | .floor => some '⌊'
  | .ceiling => some '⌈'
  | .round => some '⁅'
  | .length => some '⧻'
  | .shape => some '△'
  | .range => some '⇡'
  | .first => some '⊢'
  | .reverse => some '⇌'
  | .deshape => some '♭'
  | .transpose => some '⍉'
  | .grade => some '⍋'
  | .add => some '+'
  | .subtract => some '-'
  | .multiply => some '×'
  | .divide => some '÷'
  | .modulus => some '◿'
  | .power => some '^'
  | .less => some '<'
  | .greater => some '>'
  | .minimum => some '↧'
  | .maximum => some '↥'
  | .matches => some '≅'
  | .join => some '⊂'
  | .couple => some '⊟'
  | .pick => some '⊡'
  | .select => some '⊏'
  | .take => some '↙'
  | .drop => some '↘'
  | .rotate => some '↻'
  | .reduce => some '/'
  | .scan => some '\\'
  | .each => some '∵'
  | .rows => some '≡'
  | .table => some '⊞'
  | .repeats => some '⍥'
  | _ => none

def kind : Primitive → Kind
  | .dup | .over | .flip | .pop => .stack
  | .pi | .infinity | .now | .rand => .constant
  | .not | .sign | .negate | .abs | .sqrt | .floor | .ceiling | .round | .length | .shape
  | .range | .first | .reverse | .deshape | .transpose | .grade | .shows | .trace => .monadic
  | .add | .subtract | .multiply | .divide | .modulus | .power | .less | .greater | .minimum
  | .maximum | .matches | .join | .couple | .pick | .select | .take | .drop | .rotate
  | .assert => .dyadic
  | .reduce | .scan | .each | .rows | .table | .repeats => .modifier

def isModifier (p : Primitive) : Bool := p.kind = .modifier

/-- The canonical form. -/
def display (p : Primitive) : Text :=
  match p.glyph? with
  | some g => [g]
  | none => p.name

/-- The canonical form begins with a letter, so a letter or digit before it would run into it. -/
def startsWithLetter (p : Primitive) : Bool := p.display.head?.any CodePoint.isLetter

def ofName? (name : Text) : Option Primitive := all.find? fun p => p.name = name

def ofGlyph? (c : CodePoint) : Option Primitive := all.find? fun p => p.glyph? = some c

/-- A name that stands for a modifier. -/
def isModifierName (name : Text) : Bool := (ofName? name).any isModifier

end Primitive

end GlyphFormat
