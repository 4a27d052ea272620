import GlyphFormat.Text.Basic
import GlyphFormat.Text.Blank
import GlyphFormat.Text.DecimalDigit

/-!
# Hexadecimal numerals

The numerals that may stand between the braces of a `\u` escape. Around the numeral there may be
blanks. It may begin with a sign and with `0x`; single underscores may stand between digits, and one
after `0x`; any decimal digit of any script may stand for `0` to `9`.
-/

namespace GlyphFormat.HexNumeral

/-- The letters `a` to `f` in both cases have the values ten to fifteen. -/
def letterValue? (c : CodePoint) : Option Nat :=
  if c.between 'a' 'f' then some (c.val - 0x57)
  else if c.between 'A' 'F' then some (c.val - 0x37)
  else none

def digitValue? (c : CodePoint) : Option Nat :=
  c.decimalValue? <|> letterValue? c

/-- A blank that may surround a numeral; the information separators may not. -/
def isMargin (c : CodePoint) : Bool :=
  c.isBlank && !c.between '\x1c' '\x1f'

/-- The values of one or more digits with single underscores between them. -/
def digitValues? : Text → Option (List Nat)
  | [] => none
  | [c] => (digitValue? c).map ([·])
  | c :: d :: rest =>
    match digitValue? c with
    | none => none
    | some v =>
      if d = '_' then (digitValues? rest).map (v :: ·)
      else (digitValues? (d :: rest)).map (v :: ·)

/-- Drops a leading `0x`, in either case of the letter, and one underscore behind it. -/
def dropBase (t : Text) : Text :=
  match t with
  | z :: x :: rest =>
    if z.decimalValue? = some 0 ∧ (x = 'x' ∨ x = 'X') then
      match rest with
      | u :: rest' => if u = '_' then rest' else rest
      | [] => []
    else t
  | _ => t

/-- The number that a numeral denotes; none if the text is no numeral. -/
def value? (t : Text) : Option Int :=
  let core := Text.dropRightWhile isMargin (t.dropWhile isMargin)
  let magnitude? (s : Text) : Option Int :=
    (digitValues? (dropBase s)).map fun ds => (Text.value 16 ds : Nat)
  match core with
  | c :: rest =>
    if c = '-' then (magnitude? rest).map (- ·)
    else if c = '+' then magnitude? rest
    else magnitude? core
  | [] => none

/-- The code point that a numeral names, if it is a numeral and names one. -/
def codePoint? (t : Text) : Option CodePoint :=
  match value? t with
  | some (.ofNat n) => CodePoint.ofNat? n
  | _ => none

end GlyphFormat.HexNumeral
