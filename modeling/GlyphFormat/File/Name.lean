import GlyphFormat.Text.Utf8

/-!
# Names of files

The system knows a name as octets, a program as a text. The text is the UTF-8 of the octets, where
an octet that is part of no code point is kept as one of the code points from U+DC80 to U+DCFF. So
every name has a text, but not every text has octets: no other surrogate stands for any.
-/

namespace GlyphFormat.FileName

/-- The code point stands for an octet. -/
def isEscape (c : CodePoint) : Bool := 0xDC80 ≤ c.val && c.val ≤ 0xDCFF

/-- The code point that stands for an octet above 0x7F. -/
def escape (b : UInt8) : CodePoint := (CodePoint.ofNat? (0xDC00 + b.toNat)).getD default

def encodeOne (c : CodePoint) : Octets :=
  if isEscape c then [UInt8.ofNat (c.val - 0xDC00)] else Utf8.encodeOne c

/-- The octets of a name. -/
def encode (t : Text) : Octets := t.flatMap encodeOne

/-- Reads the octets behind the first `read`, which are read already. -/
def decodeFrom : (read : Nat) → Octets → Text
  | _, [] => []
  | read + 1, _ :: rest => decodeFrom read rest
  | 0, b :: rest =>
    match Utf8.lead b with
    | none => escape b :: decodeFrom 0 rest
    | some (more, bits, lo, hi) =>
      match Utf8.follow more bits lo hi rest with
      | .error _ => escape b :: decodeFrom 0 rest
      | .ok n => (CodePoint.ofNat? n).getD default :: decodeFrom more rest

/-- The text of a name. -/
def decode (s : Octets) : Text := decodeFrom 0 s

/-- The text that a listing gives for a name, however it is spelled. -/
def listed (t : Text) : Text := decode (encode t)

/-- The first place of a text that has no octets: `length` surrogates from `position` on, of which
`codePoint` is the first. -/
structure Fault where
  position : Nat
  length : Nat
  codePoint : CodePoint
  deriving DecidableEq

def Fault.message (f : Fault) : Text :=
  "'utf-8' codec can't encode " ++
    (if f.length = 1 then
      "character '\\u" ++ Text.numeral 16 f.codePoint.val ++ "' in position " ++
        Text.ofNat f.position
     else "characters in position " ++ Text.ofNat f.position ++ "-" ++
       Text.ofNat (f.position + f.length - 1)) ++
    ": surrogates not allowed"

/-- The fault of a text that stands at `position`. -/
def faultAt (position : Nat) : Text → Option Fault
  | [] => none
  | c :: t =>
    if c.isSurrogate && !isEscape c then
      some ⟨position, 1 + (t.takeWhile CodePoint.isSurrogate).length, c⟩
    else faultAt (position + 1) t

def fault? (t : Text) : Option Fault := faultAt 0 t

end GlyphFormat.FileName
