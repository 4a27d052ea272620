import GlyphFormat.Decimal.Binary64

/-!
# Reading decimals

The double nearest to a decimal fraction; of two that are equally near, the one with the even
magnitude.
-/

namespace GlyphFormat

/-- The natural number nearest to `n / d`; halves go to the even neighbour. -/
def roundHalfEven (n d : Nat) : Nat :=
  let q := n / d
  let r := n % d
  if 2 * r < d then q
  else if d < 2 * r then q + 1
  else if q % 2 = 0 then q else q + 1

namespace Binary64

/-- The magnitude whose value is nearest to `n / d` units. From `2 * run` units on the values stand
`2 ^ shift` apart, and each power of two begins a new run of magnitudes. -/
def nearest (n d : Nat) : Nat :=
  let q := n / d
  let shift := if q < 2 * run then 0 else q.log2 - 52
  shift * run + roundHalfEven n (d * Nat.pow 2 shift)

/-- The magnitude that the decimal `digits / 10 ^ places` reads as. -/
def ofDecimal (digits places : Nat) : Nat := nearest (digits * one) (Nat.pow 10 places)

/-- The double that a decimal reads as, unless it is too large for a finite one. -/
def ofDecimal? (digits places : Nat) : Option Binary64 :=
  let m := ofDecimal digits places
  if h : m < infinity then some ⟨false, m, Nat.lt_trans h (by decide)⟩ else none

end Binary64

end GlyphFormat
