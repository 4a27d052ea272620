import GlyphFormat.Tree.Basic

/-!
# The text of selectors

A selector is written as a colon and one character for each slot, counted from the letter `a`. A
slot far from the letters may have no character at all.
-/

namespace GlyphFormat.Selector

def ofLetters (letters : Text) : Selector := letters.map fun c => (c.val : Int) - 0x61

/-- The character of a slot. -/
def character? (slot : Int) : Option CodePoint :=
  if 0 ≤ slot + 0x61 then CodePoint.ofNat? (slot + 0x61).toNat else none

def characters? : Selector → Option Text
  | [] => some []
  | slot :: slots => do return (← character? slot) :: (← characters? slots)

/-- The text of a selector whose slots all have characters. -/
def toText? (s : Selector) : Option Text := (characters? s).map (.ofChar ':' :: ·)

/-- Letters come back from the slots they stand for. -/
theorem characters?_ofLetters (letters : Text) :
    characters? (ofLetters letters) = some letters := by
  induction letters with
  | nil => rfl
  | cons c letters ih =>
    have h : character? ((c.val : Int) - 0x61) = some c := by
      simp only [character?, Int.sub_add_cancel, Int.natCast_nonneg, if_true, Int.toNat_natCast]
      exact CodePoint.ofNat?_eq_some_iff.2 rfl
    show characters? (((c.val : Int) - 0x61) :: ofLetters letters) = _
    simp [characters?, h, ih]

end GlyphFormat.Selector
