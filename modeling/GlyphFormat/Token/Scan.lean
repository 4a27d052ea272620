import GlyphFormat.Text.Basic

/-!
# Scans

A scan reads from the front of a text and either finds a value or meets a fault. In both cases it
says how many code points it has taken, so the place where it stopped is known.
-/

namespace GlyphFormat

/-- What is wrong with a piece of source text. -/
inductive LexFault where
  | unexpected (c : CodePoint)
  | bareCarriageReturn
  | unterminated (what : Text)
  | unterminatedEscape
  | unterminatedUnicode
  | invalidUnicode (digits : Text)
  | invalidEscape (letter : CodePoint)
  | notOneCharacter
  | outOfRange
  | noDigits
  | emptySelector
  deriving DecidableEq

def LexFault.message : LexFault → Text
  | .unexpected c => "Unexpected character '" ++ [c] ++ "'"
  | .bareCarriageReturn => "Bare carriage return"
  | .unterminated what => "Unterminated " ++ what
  | .unterminatedEscape => "Unterminated escape sequence"
  | .unterminatedUnicode => "Unterminated unicode escape"
  | .invalidUnicode digits => "Invalid unicode escape '" ++ digits ++ "'"
  | .invalidEscape c => "Invalid escape sequence '\\" ++ [c] ++ "'"
  | .notOneCharacter => "Character literal must hold exactly one character"
  | .outOfRange => "Number literal out of range"
  | .noDigits => "could not convert string to float: ''"
  | .emptySelector => "Empty selector"

/-- Where a fault is reported. -/
inductive Anchor where
  /-- The start of the token. -/
  | token
  /-- The code point in front of the place that many code points behind the scan's beginning. -/
  | before (offset : Nat)
  deriving DecidableEq

structure Scan (α : Type) where
  taken : Nat
  result : Except (LexFault × Anchor) α

namespace Scan

def found (taken : Nat) (a : α) : Scan α := ⟨taken, .ok a⟩

def fault (taken : Nat) (f : LexFault) (anchor : Anchor := .token) : Scan α :=
  ⟨taken, .error (f, anchor)⟩

/-- The scan, seen from `n` code points earlier. -/
def after (n : Nat) (s : Scan α) : Scan α where
  taken := n + s.taken
  result := match s.result with
    | .ok a => .ok a
    | .error (f, .token) => .error (f, .token)
    | .error (f, .before k) => .error (f, .before (n + k))

def map (g : α → β) (s : Scan α) : Scan β where
  taken := s.taken
  result := s.result.map g

end Scan

end GlyphFormat
