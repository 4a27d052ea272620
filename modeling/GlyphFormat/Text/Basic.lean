/-!
# Code points and text

A text is a list of code points. A code point is any number below `0x110000`, surrogates
included: an escape in a literal may name one, so texts that hold literals are wider than
`String`. Characters and string literals coerce to code points and texts.
-/

namespace GlyphFormat

/-- A number that names a place in the code space, whether or not a character lives there. -/
structure CodePoint where
  val : Nat
  isLt : val < 0x110000
  deriving DecidableEq

namespace CodePoint

theorem ext {c d : CodePoint} (h : c.val = d.val) : c = d := by
  cases c; cases d; cases h; rfl

def ofChar (c : Char) : CodePoint where
  val := c.toNat
  isLt := by
    have h : c.val.toNat.isValidChar := c.valid
    simp only [Nat.isValidChar] at h
    show c.val.toNat < 0x110000
    omega

instance : Coe Char CodePoint := ⟨ofChar⟩

instance : Inhabited CodePoint := ⟨ofChar '\x00'⟩

/-- The code point of a number, when the number lies in the code space. -/
def ofNat? (n : Nat) : Option CodePoint :=
  if h : n < 0x110000 then some ⟨n, h⟩ else none

theorem ofNat?_eq_some_iff {n : Nat} {c : CodePoint} : ofNat? n = some c ↔ c.val = n := by
  unfold ofNat?
  split
  · simp only [Option.some.injEq]
    exact ⟨fun h => h ▸ rfl, fun h => ext h.symm⟩
  · rename_i h
    simp only [reduceCtorEq, false_iff]
    intro hc
    exact h (hc ▸ c.isLt)

/-- The digit for a value below 36: `0` to `9`, then `a` to `z`. -/
def digit (d : Nat) : CodePoint :=
  if d < 10 then (ofNat? (0x30 + d)).getD default else (ofNat? (0x57 + d)).getD default

/-- The code point stands between `lo` and `hi`, both included. -/
def between (lo hi : Char) (c : CodePoint) : Bool :=
  lo.toNat ≤ c.val && c.val ≤ hi.toNat

/-- One of the ten digits of ASCII. -/
def isDigit (c : CodePoint) : Bool := c.between '0' '9'

/-- One of the small letters of ASCII. -/
def isSmallLetter (c : CodePoint) : Bool := c.between 'a' 'z'

/-- Half of a two-part encoding, which stands for no character. -/
def isSurrogate (c : CodePoint) : Bool := 0xD800 ≤ c.val && c.val ≤ 0xDFFF

/-- A code point that ends a line. -/
def isLineBreak (c : CodePoint) : Bool := c = '\n' || c = '\r'

end CodePoint

abbrev Text := List CodePoint

namespace Text

def ofString (s : String) : Text := s.toList.map CodePoint.ofChar

instance : Coe String Text := ⟨ofString⟩

/-- The text as a string; a surrogate becomes the replacement character. -/
def toString (t : Text) : String :=
  String.ofList (t.map fun c => if c.isSurrogate then '\ufffd' else Char.ofNat c.val)

/-- The first code point, or NUL where there is none. -/
def first (t : Text) : CodePoint := t.head?.getD '\x00'

/-! ## Numerals -/

/-- The digits of `n` in base `b`, the most significant first; at least one. -/
def digits (b n : Nat) : List Nat :=
  if n < b ∨ b < 2 then [n] else digits b (n / b) ++ [n % b]
termination_by n
decreasing_by exact Nat.div_lt_self (by omega) (by omega)

/-- The number that digits denote in base `b`. -/
def value (b : Nat) (ds : List Nat) : Nat := ds.foldl (fun n d => n * b + d) 0

theorem value_append (b : Nat) (ds : List Nat) (d : Nat) :
    value b (ds ++ [d]) = value b ds * b + d := by
  simp [value]

/-- Digits denote the number they were made from. -/
theorem value_digits (b n : Nat) : value b (digits b n) = n := by
  fun_induction digits b n with
  | case1 n h => simp [value]
  | case2 n h ih => rw [value_append, ih]; exact Nat.div_add_mod' n b

/-- Every digit is below the base. -/
theorem lt_of_mem_digits {b n d : Nat} (hb : 2 ≤ b) (h : d ∈ digits b n) : d < b := by
  fun_induction digits b n with
  | case1 n hn => simp only [List.mem_singleton] at h; omega
  | case2 n hn ih =>
    rcases List.mem_append.1 h with h | h
    · exact ih h
    · simp only [List.mem_singleton] at h
      exact h ▸ Nat.mod_lt _ (by omega)

/-- The numeral of `n` in base `b`, with small letters above nine. -/
def numeral (b n : Nat) : Text := (digits b n).map CodePoint.digit

def ofNat (n : Nat) : Text := numeral 10 n

def ofInt : Int → Text
  | .ofNat n => ofNat n
  | .negSucc n => '-' :: ofNat (n + 1)

/-! ## Order and division -/

/-- Lexicographic order by code point. -/
def le : Text → Text → Bool
  | [], _ => true
  | _ :: _, [] => false
  | c :: s, d :: t => c.val < d.val || (c = d && le s t)

/-- The pieces between the separators, one more than there are separators. -/
def splitOn (sep : CodePoint) : Text → List Text
  | [] => [[]]
  | c :: s =>
    if c = sep then [] :: splitOn sep s
    else match splitOn sep s with
      | [] => [[c]]
      | piece :: pieces => (c :: piece) :: pieces

/-- The text without the longest suffix of code points in the class. -/
def dropRightWhile (p : CodePoint → Bool) (t : Text) : Text :=
  (t.reverse.dropWhile p).reverse

end Text

end GlyphFormat
