import GlyphFormat.Decimal.Reading

/-!
# The shortest decimal of a double

Of the decimals that read back as a given double, the one with the fewest places, and of those the
nearest to the double's exact value. A whole number below `2 ^ 53` or above needs no places, so the
same rule prints it exactly.

The search goes over grids: multiples of `10 ^ coarse / 10 ^ k` for `k = 0, 1, 2, …`. On each grid
only the two neighbours of the exact value can be the answer, and the last grid holds the value
itself.
-/

namespace GlyphFormat.Binary64

/-- The multiple of `10 ^ coarse / 10 ^ k` reads back as the magnitude `m`. -/
def readsBack (coarse m d k : Nat) : Bool := nearest (d * one * Nat.pow 10 coarse) (Nat.pow 10 k) = m

/-- The first grid from `k` on with a neighbour of the value that reads back, as the pair of the
multiplier and the grid. -/
def shortestFrom (coarse m : Nat) : (fuel k : Nat) → Nat × Nat
  | fuel, k =>
    let scaled := unitsOf m * Nat.pow 10 k
    let unit := one * Nat.pow 10 coarse
    let near := roundHalfEven scaled unit
    let far := if near = scaled / unit then near + 1 else near - 1
    if readsBack coarse m near k then (near, k)
    else if readsBack coarse m far k then (far, k)
    else match fuel with
      | 0 => (near, k)
      | fuel + 1 => shortestFrom coarse m fuel (k + 1)

/-- The digits and the number of places of the shortest decimal for the magnitude `m`. A value has
at most 1074 places. -/
def shortest (m : Nat) : Nat × Nat := shortestFrom 0 m 1074 0

/-- The fewest significant digits for the magnitude `m`, and the power of ten that they count. -/
def significant (m : Nat) : Nat × Int :=
  let (d, k) := shortestFrom 308 m 1382 0
  (d, 308 - (k : Int))

end GlyphFormat.Binary64
