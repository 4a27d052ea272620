import GlyphFormat.Text.Basic

/-!
# UTF-8

Writing a text as octets, and strict reading. A fault names the octets that cannot be read: the
longest beginning of a well-formed sequence, or the one octet that begins none.
-/

namespace GlyphFormat

abbrev Octets := List UInt8

namespace Utf8

def encodeOne (c : CodePoint) : Octets :=
  let n := c.val
  let tail (d : Nat) : UInt8 := UInt8.ofNat (0x80 + n / d % 0x40)
  if n < 0x80 then [UInt8.ofNat n]
  else if n < 0x800 then [UInt8.ofNat (0xC0 + n / 0x40), tail 1]
  else if n < 0x10000 then [UInt8.ofNat (0xE0 + n / 0x1000), tail 0x40, tail 1]
  else [UInt8.ofNat (0xF0 + n / 0x40000), tail 0x1000, tail 0x40, tail 1]

def encode (t : Text) : Octets := t.flatMap encodeOne

inductive Reason where
  | invalidStart
  | invalidContinuation
  | unexpectedEnd
  deriving DecidableEq

def Reason.message : Reason → String
  | .invalidStart => "invalid start byte"
  | .invalidContinuation => "invalid continuation byte"
  | .unexpectedEnd => "unexpected end of data"

/-- The first place where octets are no UTF-8: `length` octets from `position` on, of which `octet`
is the first. -/
structure Fault where
  position : Nat
  length : Nat
  octet : UInt8
  reason : Reason
  deriving DecidableEq

/-- Two small hexadecimal digits. -/
def hexOctet (b : UInt8) : Text :=
  [CodePoint.digit (b.toNat / 16), CodePoint.digit (b.toNat % 16)]

def Fault.message (f : Fault) : Text :=
  "'utf-8' codec can't decode " ++
    (if f.length = 1 then "byte 0x" ++ hexOctet f.octet ++ " in position " ++ Text.ofNat f.position
     else "bytes in position " ++ Text.ofNat f.position ++ "-" ++
       Text.ofNat (f.position + f.length - 1)) ++
    ": " ++ Text.ofString f.reason.message

/-- What a first octet promises: how many octets follow, the bits it holds, and the least and the
greatest octet that may come second. -/
def lead (b : UInt8) : Option (Nat × Nat × Nat × Nat) :=
  let n := b.toNat
  if n < 0x80 then some (0, n, 0x80, 0xBF)
  else if n < 0xC2 then none
  else if n < 0xE0 then some (1, n - 0xC0, 0x80, 0xBF)
  else if n = 0xE0 then some (2, 0, 0xA0, 0xBF)
  else if n = 0xED then some (2, 13, 0x80, 0x9F)
  else if n < 0xF0 then some (2, n - 0xE0, 0x80, 0xBF)
  else if n = 0xF0 then some (3, 0, 0x90, 0xBF)
  else if n < 0xF4 then some (3, n - 0xF0, 0x80, 0xBF)
  else if n = 0xF4 then some (3, 4, 0x80, 0x8F)
  else none

/-- Reads `more` octets behind a first one, the next of them between `lo` and `hi`. Gives the number
whose upper bits are `bits`, or how many octets were right and what is wrong with the next. -/
def follow : (more bits lo hi : Nat) → Octets → Except (Nat × Reason) Nat
  | 0, bits, _, _, _ => .ok bits
  | _ + 1, _, _, _, [] => .error (0, .unexpectedEnd)
  | more + 1, bits, lo, hi, b :: rest =>
    if lo ≤ b.toNat ∧ b.toNat ≤ hi then
      match follow more (bits * 64 + (b.toNat - 0x80)) 0x80 0xBF rest with
      | .ok n => .ok n
      | .error (k, reason) => .error (k + 1, reason)
    else .error (0, .invalidContinuation)

/-- Reads octets that stand at `position`. -/
def decodeAt (position : Nat) : Octets → Except Fault Text
  | [] => .ok []
  | b :: rest =>
    match lead b with
    | none => .error ⟨position, 1, b, .invalidStart⟩
    | some (more, bits, lo, hi) =>
      match follow more bits lo hi rest with
      | .error (k, reason) => .error ⟨position, k + 1, b, reason⟩
      | .ok n =>
        match decodeAt (position + 1 + more) (rest.drop more) with
        | .error f => .error f
        | .ok t => .ok ((CodePoint.ofNat? n).getD default :: t)
termination_by s => s.length
decreasing_by simp only [List.length_drop, List.length_cons]; omega

def decode (s : Octets) : Except Fault Text := decodeAt 0 s

end Utf8

end GlyphFormat
