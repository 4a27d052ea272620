import GlyphFormat.Text.Basic
import GlyphFormat.Text.Ranges

/-!
# Blank characters

The code points that count as white space at the ends of a text, line breaks and the four
information separators included.
-/

namespace GlyphFormat

def blanks : Ranges :=
  [(0x9, 0xD), (0x1C, 0x20), (0x85, 0x85), (0xA0, 0xA0), (0x1680, 0x1680), (0x2000, 0x200A),
  (0x2028, 0x2029), (0x202F, 0x202F), (0x205F, 0x205F), (0x3000, 0x3000)]

def CodePoint.isBlank (c : CodePoint) : Bool := blanks.contains c.val

namespace Text

/-- The text without the blanks at its end. -/
def trimRight (t : Text) : Text := t.dropRightWhile CodePoint.isBlank

/-- The text without the blanks at its two ends. -/
def trim (t : Text) : Text := trimRight (t.dropWhile CodePoint.isBlank)

end Text

end GlyphFormat
