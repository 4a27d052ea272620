/-!
# Double precision numbers as exact values

A double is its sign and its other 63 bits, read as one natural number: the magnitude. Finite
magnitudes count the representable values from zero upwards, so the order of magnitudes is the order
of values and the next magnitude is the next value.

Every finite value is a multiple of the least positive one, `2 ^ (-1074)`, the unit. `unitsOf` gives
the multiple, so values are compared, rounded and printed as natural numbers.
-/

namespace GlyphFormat

structure Binary64 where
  negative : Bool
  magnitude : Nat
  magnitude_lt : magnitude < 0x8000000000000000
  deriving DecidableEq

namespace Binary64

/-- The magnitude of infinity, the first that is not finite. -/
def infinity : Nat := 0x7FF0000000000000

/-- The number of magnitudes from one power of two to the next, `2 ^ 52`. -/
def run : Nat := 0x10000000000000

def isFinite (x : Binary64) : Bool := x.magnitude < infinity

/-- The double whose 64 bits, read as a number, are `n` modulo `2 ^ 64`. -/
def ofBits (n : Nat) : Binary64 where
  negative := n / 0x8000000000000000 % 2 = 1
  magnitude := n % 0x8000000000000000
  magnitude_lt := Nat.mod_lt _ (by decide)

def toBits (x : Binary64) : Nat := (if x.negative then 0x8000000000000000 else 0) + x.magnitude

theorem ofBits_toBits (x : Binary64) : ofBits x.toBits = x := by
  obtain ⟨s, m, h⟩ := x
  cases s <;> simp [ofBits, toBits] <;> omega

/-- How many units a magnitude stands for; at `infinity` the value that would come next. -/
def unitsOf (m : Nat) : Nat :=
  if m < run then m else (run + m % run) * Nat.pow 2 (m / run - 1)

/-- The units in one. -/
def one : Nat := Nat.pow 2 1074

end Binary64

end GlyphFormat
