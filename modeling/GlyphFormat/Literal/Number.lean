import GlyphFormat.Decimal.Shortest
import GlyphFormat.Text.Basic

/-!
# Number literals

A number is written as the shortest decimal that reads back, in positional form: no exponent, no
needless zero, and a point only before a fraction.
-/

namespace GlyphFormat

/-- The decimal `d / 10 ^ k` with `k` places behind the point. -/
def positional (d k : Nat) : Text :=
  if k = 0 then Text.ofNat d
  else
    let fraction := Text.ofNat (d % Nat.pow 10 k)
    Text.ofNat (d / Nat.pow 10 k) ++ "." ++ List.replicate (k - fraction.length) (CodePoint.digit 0) ++
      fraction

namespace Binary64

/-- The canonical text of a number. Zero has no sign. -/
def format (x : Binary64) : Text :=
  let sign : Text := if x.negative && x.magnitude ≠ 0 then "-" else ""
  if x.magnitude < infinity then
    let (d, k) := shortest x.magnitude
    sign ++ positional d k
  else if x.magnitude = infinity then sign ++ "inf"
  else "nan"

/-- The text of a number in messages: at least one place, and an exponent below `1e-4` and from
`1e16` on. -/
def inMessage (x : Binary64) : Text :=
  let (d, p) := significant x.magnitude
  let digits := Text.ofNat d
  let exponent : Int := p + (digits.length - 1 : Nat)
  if d = 0 then "0.0"
  else if -4 ≤ exponent ∧ exponent < 16 then
    if 0 ≤ p then Text.ofNat (d * Nat.pow 10 p.toNat) ++ ".0" else positional d (-p).toNat
  else
    let mark : Text := if exponent < 0 then "e-" else "e+"
    let size := Text.ofNat exponent.natAbs
    digits.take 1 ++ (if digits.length = 1 then [] else .ofChar '.' :: digits.drop 1) ++ mark ++
      (if size.length = 1 then .ofChar '0' :: size else size)

end Binary64

end GlyphFormat
