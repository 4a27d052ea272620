import GlyphFormat.Text.Numeric

/-!
# Spacing

The text written so far, and whether it ends in a strand. Before a word that would run into what is
written, a space is put; which words those are depends on the last character alone.
-/

namespace GlyphFormat

structure Layout where
  /-- The text written so far, its last code point first. -/
  reversed : Text := []
  afterStrand : Bool := false

namespace Layout

def text (l : Layout) : Text := l.reversed.reverse

def push (l : Layout) (t : Text) : Layout := ⟨t.reverse ++ l.reversed, false⟩

/-- Keeps what follows a strand from joining it. -/
def spaceAfterStrand (l : Layout) : Layout := if l.afterStrand then l.push " " else l

/-- A space if the last character is in the class. -/
def spaceAfter (l : Layout) (p : CodePoint → Bool) : Layout :=
  let l := l.spaceAfterStrand
  if l.reversed.head?.any p then l.push " " else l

/-- Room for a word that begins with a digit or a quote. -/
def spaceAfterAlphanumeric (l : Layout) : Layout := l.spaceAfter CodePoint.isAlphanumeric

/-- Room for a word that begins with a letter or a colon. -/
def spaceAfterLetter (l : Layout) : Layout := l.spaceAfter CodePoint.isLetter

@[simp] theorem text_push (l : Layout) (t : Text) : (l.push t).text = l.text ++ t := by
  simp [text, push]

@[simp] theorem afterStrand_push (l : Layout) (t : Text) : (l.push t).afterStrand = false := rfl

end Layout

end GlyphFormat
