import GlyphFormat.Literal.Quoted
import GlyphFormat.Text.HexNumeral
import GlyphFormat.Token.Basic
import GlyphFormat.Token.Scan

/-!
# Scanning literals

Escapes, the quoted literals and numbers. A quoted literal stays on one line. A number is written
with ASCII digits; a point belongs to it only when a digit follows.
-/

namespace GlyphFormat

namespace Escape

/-- A code point that may stand between the braces of an escape by number, as far as the scan is
concerned. -/
def isInside (c : CodePoint) : Bool := c ≠ '\x7d' && c ≠ '\x00' && c ≠ '\n'

/-- The escape by number, behind its opening brace. -/
def scanNumber (s : Text) : Scan CodePoint :=
  let digits := s.takeWhile isInside
  if Text.first (s.drop digits.length) = '\x7d' then
    match HexNumeral.codePoint? digits with
    | some c => .found (digits.length + 1) c
    | none => .fault (digits.length + 1) (.invalidUnicode digits) (.before 0)
  else .fault digits.length .unterminatedUnicode (.before 0)

/-- What is behind the backslash of an escape. Faults are reported at the backslash. -/
def scan : Text → Scan CodePoint
  | [] => .fault 0 .unterminatedEscape (.before 0)
  | c :: rest =>
    match meaning? c with
    | some d => .found 1 d
    | none =>
      if c = 'u' ∧ Text.first rest = '\x7b' then
        let s := scanNumber rest.tail
        match s.result with
        | .ok d => .found (2 + s.taken) d
        | .error f => ⟨2 + s.taken, .error f⟩
      else .fault 1 (.invalidEscape c) (.before 0)

end Escape

/-- The inside of a quoted literal and its closing quote. -/
def scanQuoted (quote : Option CodePoint) (what : Text) : Text → Scan Text
  | [] => .fault 0 (.unterminated what)
  | c :: rest =>
    if c.isLineBreak then .fault 0 (.unterminated what)
    else if some c = quote then .found 1 []
    else if c = '\\' then
      let escape := Escape.scan rest
      match escape.result with
      | .error f => Scan.after 1 ⟨escape.taken, .error f⟩
      | .ok d =>
        ((scanQuoted quote what (rest.drop escape.taken)).map (d :: ·)).after (1 + escape.taken)
    else ((scanQuoted quote what rest).map (c :: ·)).after 1
termination_by s => s.length
decreasing_by all_goals simp only [List.length_drop, List.length_cons]; omega

namespace Lexeme

/-- A string literal, behind its opening quote. -/
def scanString (s : Text) : Scan Lexeme := (scanQuoted (some '"') "string" s).map .string

/-- A character literal, behind its opening quote. -/
def scanChar (s : Text) : Scan Lexeme :=
  let body := scanQuoted (some '\'') "character literal" s
  match body.result with
  | .ok content => if content.length = 1 then .found body.taken (.char content)
    else .fault body.taken .notOneCharacter
  | .error f => ⟨body.taken, .error f⟩

/-- The value of ASCII digits. -/
def digitsValue (t : Text) : Nat := Text.value 10 (t.map (·.val - 0x30))

/-- The digits of a fraction, if a point and a digit come next. -/
def fraction : Text → Text
  | c :: d :: rest => if c = '.' ∧ d.isDigit then (d :: rest).takeWhile CodePoint.isDigit else []
  | _ => []

def scanNumber (s : Text) : Scan Lexeme :=
  let whole := s.takeWhile CodePoint.isDigit
  let places := fraction (s.drop whole.length)
  let taken := if places = [] then whole.length else whole.length + 1 + places.length
  if taken = 0 then .fault 0 .noDigits
  else match Binary64.ofDecimal? (digitsValue (whole ++ places)) places.length with
    | some x => .found taken (.number x)
    | none => .fault taken .outOfRange

end Lexeme

end GlyphFormat
