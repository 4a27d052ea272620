import GlyphFormat.File.Name

/-!
# Paths

A path is kept in normal form: empty components and `.` are gone, `..` stays. Two leading slashes
are different from one; three or more are one.
-/

namespace GlyphFormat

structure Path where
  /-- The number of leading slashes: none for a relative path, else one or two. -/
  slashes : Nat
  parts : List Text
  deriving DecidableEq

namespace Path

/-- A component that stands for the directory above. -/
def up : Text := ".."

/-- A component that stands for the directory itself. -/
def here : Text := "."

def ofText (t : Text) : Path where
  slashes :=
    let n := (t.takeWhile fun (c : CodePoint) => c = '/').length
    if n ≤ 2 then n else 1
  parts := (Text.splitOn '/' t).filter fun p => p ≠ [] && p ≠ here

def toText (p : Path) : Text :=
  if p.slashes = 0 && p.parts.isEmpty then here
  else List.replicate p.slashes (.ofChar '/') ++ List.intercalate "/" p.parts

/-- The path holds a NUL. -/
def hasNul (p : Path) : Bool := p.toText.contains (.ofChar '\x00')

/-- The names that are looked up one after the other. -/
def names (p : Path) : List Text :=
  if p.slashes = 0 && p.parts.isEmpty then [here] else p.parts.map FileName.listed

/-- The path, further down by the given components. -/
def append (p : Path) (parts : List Text) : Path := { p with parts := p.parts ++ parts }

/-- Order by components, each compared by code points. -/
def partsLe : List Text → List Text → Bool
  | [], _ => true
  | _ :: _, [] => false
  | a :: s, b :: t => if a = b then partsLe s t else Text.le a b

end Path

end GlyphFormat
