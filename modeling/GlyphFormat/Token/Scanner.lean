import GlyphFormat.Token.Lexeme

/-!
# The scanner

A scanner is a place in a source: the text that is left, how much has been taken, the line and
column, and where the current token starts. Spaces and tabs stand between tokens; a step either
skips them or scans one token. Past the end the scanner still moves and meets the character NUL.

Every step that succeeds before the end takes something, so the tokens of a source are a list that
ends.
-/

namespace GlyphFormat

/-- A fault in source text with its place. -/
structure LexError where
  fault : LexFault
  position : Position
  deriving DecidableEq

structure Scanner where
  rest : Text
  taken : Nat
  position : Position
  /-- Where the token being scanned starts. -/
  mark : Position
  deriving DecidableEq

namespace Scanner

def ofText (source : Text) : Scanner := ⟨source, 0, ⟨1, 1⟩, ⟨1, 1⟩⟩

/-- Takes `n` code points of the current line. -/
def advance (s : Scanner) (n : Nat) : Scanner where
  rest := s.rest.drop n
  taken := s.taken + n
  position := ⟨s.position.line, s.position.column + n⟩
  mark := s.mark

/-- The code point that lies `n` places ahead. -/
def peek (s : Scanner) (n : Nat) : CodePoint := (s.rest[n]?).getD '\x00'

/-- The next `n` code points. -/
def ahead (s : Scanner) (n : Nat) : Text :=
  s.rest.take n ++ List.replicate (n - s.rest.length) (.ofChar '\x00')

/-- The next token starts here. -/
def markHere (s : Scanner) : Scanner := { s with mark := s.position }

def nextLine (s : Scanner) : Scanner := { s with position := ⟨s.position.line + 1, 1⟩ }

/-- The token that runs from the mark to here. -/
def token (s : Scanner) (l : Lexeme) : Token := ⟨l, s.mark, s.position⟩

/-- Where a fault of a scan that begins here is reported. -/
def locate (s : Scanner) : Anchor → Position
  | .token => s.mark
  | .before n => ⟨s.position.line, s.position.column + n - 1⟩

/-- A scan's result with the places of its faults. -/
def located (s : Scanner) : Except (LexFault × Anchor) α → Except LexError α
  | .ok a => .ok a
  | .error (f, anchor) => .error ⟨f, s.locate anchor⟩

/-- Runs a scan from here. -/
def run (s : Scanner) (scan : Text → Scan α) : Except LexError α × Scanner :=
  let r := scan s.rest
  (s.located r.result, s.advance r.taken)

/-- Runs the scan of a lexeme and makes it a token. A line break moves to the next line. -/
def scanToken (s : Scanner) (scan : Text → Scan Lexeme) : Except LexError Token × Scanner :=
  match s.run scan with
  | (.error e, t) => (.error e, t)
  | (.ok l, t) => (.ok (t.token l), if l = .newline then t.nextLine else t)

def isSpace (c : CodePoint) : Bool := c = ' ' || c = '\t'

/-- How many spaces and tabs come next. -/
def spaces (s : Scanner) : Nat := (s.rest.takeWhile isSpace).length

/-- Skips the spaces that come next or, if there are none, scans a token. -/
def step (s : Scanner) : Except LexError (Option Token) × Scanner :=
  if s.spaces = 0 then
    match s.markHere.scanToken Lexeme.scan with
    | (.error e, t) => (.error e, t)
    | (.ok token, t) => (.ok (some token), t)
  else (.ok none, s.advance s.spaces)

end Scanner

/-! ## Progress -/

theorem Lexeme.afterOne_taken_pos (f : Text → Scan Lexeme) (s : Text) :
    0 < (afterOne f s).taken := by
  simp only [afterOne, Scan.after]; omega

theorem Lexeme.Opening.isLetter_of_letter {c : CodePoint} (h : Opening.of c = .letter) :
    c.isLetter = true := by
  unfold Opening.of at h
  repeat' split at h
  all_goals simp_all

theorem Lexeme.scanIdent_taken_pos {s : Text} (h : (Text.first s).isLetter = true) :
    0 < (scanIdent s).taken := by
  cases s with
  | nil => exact absurd h (by decide)
  | cons c s =>
    have hc : c.isLetter = true := h
    simp [scanIdent, Scan.found, hc]

theorem Lexeme.scanNumber_taken_pos {s : Text} {l : Lexeme} (h : (scanNumber s).result = .ok l) :
    0 < (scanNumber s).taken := by
  unfold scanNumber at h ⊢
  extract_lets at h ⊢
  split at h
  · simp [Scan.fault] at h
  · rename_i ht
    rw [if_neg ht]
    split <;> exact Nat.pos_of_ne_zero ht

/-- A scan that finds a lexeme takes something. -/
theorem Lexeme.taken_pos_of_scan_ok {s : Text} {l : Lexeme} (h : (scan s).result = .ok l) :
    0 < (scan s).taken := by
  unfold scan at h ⊢
  split at h
  case h_1 => exact afterOne_taken_pos _ _
  case h_3 => exact afterOne_taken_pos _ _
  case h_4 => exact afterOne_taken_pos _ _
  case h_6 => exact afterOne_taken_pos _ _
  case h_2 =>
    unfold scanNewline at h ⊢
    split at h
    · split at h
      · simp [*, Scan.found]
      · simp [Scan.fault] at h
    · simp [*, Scan.found]
  case h_5 => exact scanNumber_taken_pos h
  case h_7 => simp [Scan.found]
  case h_8 ho => exact scanIdent_taken_pos (Opening.isLetter_of_letter ho)
  case h_9 => simp [Scan.found]
  case h_10 => simp [Scan.fault] at h

namespace Scanner

theorem run_fst_eq_ok_iff {s : Scanner} {scan : Text → Scan α} {a : α} :
    (s.run scan).1 = .ok a ↔ (scan s.rest).result = .ok a := by
  simp only [run, located]
  split <;> simp_all

theorem run_snd (s : Scanner) (scan : Text → Scan α) :
    (s.run scan).2 = s.advance (scan s.rest).taken := rfl

/-- A scan that finds a lexeme takes what it says. -/
theorem rest_scanToken {s t : Scanner} {scan : Text → Scan Lexeme} {token : Token}
    (h : s.scanToken scan = (.ok token, t)) :
    (∃ l, (scan s.rest).result = .ok l) ∧ t.rest = s.rest.drop (scan s.rest).taken := by
  unfold scanToken at h
  split at h
  · simp at h
  · rename_i l u hrun
    have hl : (s.run scan).1 = .ok l := by rw [hrun]
    have hu : (s.run scan).2 = u := by rw [hrun]
    rw [run_snd] at hu
    refine ⟨⟨l, run_fst_eq_ok_iff.1 hl⟩, ?_⟩
    have ht : t.rest = u.rest := by
      rw [← (Prod.mk.inj h).2]
      split <;> rfl
    rw [ht, ← hu]
    rfl

/-- A step that succeeds before the end leaves less. -/
theorem length_rest_lt_of_step {s t : Scanner} {token : Option Token} (hs : s.rest ≠ [])
    (h : s.step = (.ok token, t)) : t.rest.length < s.rest.length := by
  have hpos : 0 < s.rest.length := List.length_pos_iff.2 hs
  unfold step at h
  split at h
  · split at h
    · simp at h
    · rename_i hscan
      obtain ⟨⟨l, hl⟩, hrest⟩ := rest_scanToken hscan
      have := Lexeme.taken_pos_of_scan_ok hl
      rw [← (Prod.mk.inj h).2, hrest, List.length_drop]
      simp only [markHere] at *
      omega
  · rw [← (Prod.mk.inj h).2]
    simp only [advance, List.length_drop]
    omega

/-- Scans to the end. Gives the tokens, the fault that stopped the scan if there was one, and the
scanner then. A scan that reaches the end has an end token. -/
def tokens (s : Scanner) : List Token × Option LexError × Scanner :=
  if _ : s.rest = [] then
    ([s.markHere.token .endOfInput], none, s.markHere)
  else match _ : s.step with
    | (.error e, t) => ([], some e, t)
    | (.ok token, t) =>
      let (more, e, last) := tokens t
      (token.toList ++ more, e, last)
termination_by s.rest.length
decreasing_by exact length_rest_lt_of_step ‹_› ‹_›

end Scanner

/-- The tokens of a source, and the fault behind them if the scan did not reach the end. -/
def tokenize (source : Text) : List Token × Option LexError :=
  let (tokens, e, _) := (Scanner.ofText source).tokens
  (tokens, e)

end GlyphFormat
