import GlyphFormat.Proofs.Token.Scanned

/-!
# Texts and their lexemes

`Lexes` says what a text spells without the places of the tokens: spaces and tabs are passed over,
and elsewhere the next scan takes one lexeme. The scanner finds no fault in exactly the texts that
spell something (`lexes_iff`), so its tokens are known from that relation, and the relation is
closed under setting texts side by side that do not run into each other (`Lexes.append`). What holds
of a scan is shown from token to token (`Scanner.token_induction`).
-/

namespace GlyphFormat

open Scanner (isSpace)

/-- The text spells the lexemes from its beginning to its end. -/
inductive Lexes : Text → List Lexeme → Prop
  | done : Lexes [] []
  | space {c : CodePoint} {s : Text} {ls : List Lexeme} (hc : isSpace c = true)
      (h : Lexes s ls) : Lexes (c :: s) ls
  | lexeme {s : Text} {n : Nat} {l : Lexeme} {ls : List Lexeme}
      (hfirst : isSpace (Text.first s) = false) (hscan : Lexeme.scan s = .found n l)
      (h : Lexes (s.drop n) ls) : Lexes s (l :: ls)

/-- The lexemes of a text, without the end of input. -/
def Text.lexemes (s : Text) : List Lexeme :=
  ((tokenize s).1.map Token.lexeme).filter (· ≠ .endOfInput)

namespace Lexes

variable {s t : Text} {l : Lexeme} {ls ms : List Lexeme}

/-- Only valid lexemes are spelled. -/
theorem valid (h : Lexes s ls) : ∀ l ∈ ls, l.Valid := by
  induction h with
  | done => exact fun l hl => absurd hl List.not_mem_nil
  | space _ _ ih => exact ih
  | lexeme _ hscan _ ih =>
      intro l hl
      rcases List.mem_cons.mp hl with rfl | hl
      · exact Lexeme.valid_of_scan (by rw [hscan]; rfl)
      · exact ih l hl

/-- Spaces and tabs at the front do not count. -/
theorem dropSpaces (h : Lexes s ls) : Lexes (s.dropWhile isSpace) ls := by
  induction h with
  | done => exact .done
  | space hc _ ih => rwa [List.dropWhile_cons_of_pos hc]
  | @lexeme s n l ls hfirst hscan h ih =>
      cases s with
      | nil => cases hscan
      | cons c s =>
          rw [List.dropWhile_cons_of_neg (by rw [show isSpace c = false from hfirst]; decide)]
          exact .lexeme hfirst hscan h

theorem of_dropSpaces (h : Lexes (s.dropWhile isSpace) ls) : Lexes s ls := by
  induction s with
  | nil => exact h
  | cons c s ih =>
      by_cases hc : isSpace c = true
      · rw [List.dropWhile_cons_of_pos hc] at h
        exact .space hc (ih h)
      · rwa [List.dropWhile_cons_of_neg hc] at h

/-- Where no space stands, one lexeme is scanned. -/
theorem inv (h : Lexes s ls) (hne : s ≠ []) (hfirst : isSpace (Text.first s) = false) :
    ∃ n l ms, Lexeme.scan s = .found n l ∧ ls = l :: ms ∧ Lexes (s.drop n) ms := by
  cases h with
  | done => exact absurd rfl hne
  | space hc _ => exact absurd (hfirst.symm.trans hc) (by decide)
  | lexeme _ hscan h => exact ⟨_, _, _, hscan, rfl, h⟩

/-- The lexeme that is scanned is the first one. -/
theorem of_found (h : Lexes s ls) (hne : s ≠ []) (hfirst : isSpace (Text.first s) = false)
    {n : Nat} {l : Lexeme} (hscan : Lexeme.scan s = .found n l) :
    ∃ ms, ls = l :: ms ∧ Lexes (s.drop n) ms := by
  obtain ⟨n', l', ms, hscan', rfl, hms⟩ := h.inv hne hfirst
  cases hscan.symm.trans hscan'
  exact ⟨ms, rfl, hms⟩

/-- There is a lexeme to be scanned, so no fault. -/
theorem not_failed (h : Lexes s ls) (hne : s ≠ []) (hfirst : isSpace (Text.first s) = false)
    {n : Nat} {fault : LexFault × Anchor} : Lexeme.scan s ≠ ⟨n, .error fault⟩ := by
  intro hscan
  obtain ⟨n', l', ms, hscan', -, -⟩ := h.inv hne hfirst
  cases hscan.symm.trans hscan'

/-- No lexeme begins with a point. -/
theorem head_ne_point (h : Lexes s ls) : ∀ c ∈ s.head?, c ≠ '.' := by
  intro c hc hpoint
  cases s with
  | nil => cases hc
  | cons d s =>
      obtain rfl : d = c := Option.some.inj hc
      rw [hpoint] at h
      cases h with
      | space hspace _ => exact absurd hspace (by decide)
      | lexeme _ hscan _ => cases congrArg Scan.result hscan

theorem eq_nil (h : Lexes [] ls) : ls = [] := by
  cases h with
  | done => rfl
  | lexeme _ hscan _ => cases hscan

/-- In front of more text the same lexeme is found, unless it takes up the text and absorbs what
follows. -/
theorem scan_append {n : Nat} (hscan : Lexeme.scan s = .found n l) (h : Lexes (s.drop n) ls)
    (hpoint : ∀ c ∈ t.head?, c ≠ '.') (hjoin : ls = [] → ∀ c ∈ t.head?, l.absorbs c = false) :
    Lexeme.scan (s ++ t) = .found n l ∧ (s ++ t).drop n = s.drop n ++ t ∧
      Text.first (s ++ t) = Text.first s := by
  obtain ⟨u, v, hs, rfl⟩ := Lexeme.exists_split hscan
  have hdrop : s.drop u.length = v := by rw [hs.eq, List.drop_left]
  rw [hdrop] at h
  have hstops : l.Stops u (v ++ t) := by
    cases v with
    | nil => exact hs.stops.of_head hpoint (Or.inr (hjoin h.eq_nil))
    | cons c v => exact hs.stops.of_head h.head_ne_point (Or.inl rfl)
  refine ⟨?_, ?_, ?_⟩
  · rw [hs.eq, List.append_assoc]
    exact hs.scanned _ hstops
  · rw [hdrop, hs.eq, List.append_assoc, List.drop_left]
  · obtain ⟨c, u, rfl⟩ := List.exists_cons_of_ne_nil hs.nonempty
    rw [hs.eq]
    rfl

/-- Texts side by side, where the first does not end in a lexeme that absorbs what follows. -/
theorem append (hs : Lexes s ls) (ht : Lexes t ms)
    (hjoin : ∀ l ∈ ls.getLast?, ∀ c ∈ t.head?, l.absorbs c = false) :
    Lexes (s ++ t) (ls ++ ms) := by
  induction hs with
  | done => exact ht
  | space hc _ ih => exact .space hc (ih hjoin)
  | @lexeme s n l ls hfirst hscan h ih =>
      have hlast : ∀ k ∈ ls.getLast?, k ∈ (l :: ls).getLast? := fun k hk => by
        rw [List.getLast?_cons, Option.mem_def.mp hk]
        rfl
      obtain ⟨hscan', hdrop, hfirst'⟩ := scan_append hscan h ht.head_ne_point fun hnil => by
        subst hnil
        exact hjoin l rfl
      refine .lexeme (hfirst' ▸ hfirst) hscan' ?_
      rw [hdrop]
      exact ih fun k hk => hjoin k (hlast k hk)

/-- Two texts on two lines. -/
theorem line (hs : Lexes s ls) (ht : Lexes t ms) :
    Lexes (s ++ CodePoint.ofChar '\n' :: t) (ls ++ .newline :: ms) := by
  refine hs.append (.lexeme (n := 1) rfl rfl ht) fun l _ c hc => ?_
  obtain rfl := Option.some.inj hc
  exact l.absorbs_lineBreak rfl

end Lexes

/-! ## The scanner's tokens -/

namespace Scanner

variable {s : Scanner} {k : Nat} {l : Lexeme}

theorem tokens_of_end (h : s.rest = []) :
    s.tokens = ([s.markHere.token .endOfInput], none, s.markHere) := by
  rw [tokens, dif_pos h]

theorem tokens_of_step {token : Option Token} {t : Scanner} (hne : s.rest ≠ [])
    (h : s.step = (.ok token, t)) :
    s.tokens = (token.toList ++ t.tokens.1, t.tokens.2) := by
  rw [tokens, dif_neg hne]
  split
  · rename_i h'
    rw [h] at h'
    cases h'
  · rename_i token' t' h'
    rw [h] at h'
    cases h'
    rfl

theorem tokens_of_fault {e : LexError} {t : Scanner} (hne : s.rest ≠ [])
    (h : s.step = (.error e, t)) : s.tokens = ([], some e, t) := by
  rw [tokens, dif_neg hne]
  split
  · rename_i h'
    rw [h] at h'
    cases h'
    rfl
  · rename_i token' t' h'
    rw [h] at h'
    cases h'

theorem step_of_space (h : s.spaces ≠ 0) : s.step = (.ok none, s.advance s.spaces) := by
  rw [step, if_neg h]

theorem first_of_spaces_eq_zero (h : s.spaces = 0) : isSpace (Text.first s.rest) = false := by
  unfold spaces at h
  cases hr : s.rest with
  | nil => rfl
  | cons c r =>
      rw [hr, List.takeWhile_cons] at h
      by_cases hc : isSpace c = true
      · rw [if_pos hc] at h
        cases h
      · exact Bool.eq_false_iff.mpr hc

theorem spaces_eq_zero (h : isSpace (Text.first s.rest) = false) : s.spaces = 0 := by
  unfold spaces
  cases hr : s.rest with
  | nil => rfl
  | cons c r =>
      rw [hr] at h
      have hc : ¬isSpace c = true := Bool.eq_false_iff.mp h
      rw [List.takeWhile_cons_of_neg hc]
      rfl

/-- The token that is found here when the next `k` code points are the lexeme. -/
def tokenHere (s : Scanner) (k : Nat) (l : Lexeme) : Token :=
  ⟨l, s.position, ⟨s.position.line, s.position.column + k⟩⟩

/-- Where the scanner stands behind it. -/
def behind (s : Scanner) (k : Nat) (l : Lexeme) : Scanner :=
  if l = .newline then (s.markHere.advance k).nextLine else s.markHere.advance k

theorem rest_behind : (s.behind k l).rest = s.rest.drop k := by
  unfold behind
  split <;> rfl

theorem position_behind : (s.behind k l).position =
    if l = .newline then ⟨s.position.line + 1, 1⟩
    else ⟨s.position.line, s.position.column + k⟩ := by
  unfold behind
  split <;> rfl

theorem step_of_found (hs : s.spaces = 0) (hscan : Lexeme.scan s.rest = .found k l) :
    s.step = (.ok (some (s.tokenHere k l)), s.behind k l) := by
  have hrun : s.markHere.run Lexeme.scan = (.ok l, s.markHere.advance k) := by
    show (s.markHere.located (Lexeme.scan s.rest).result,
      s.markHere.advance (Lexeme.scan s.rest).taken) = _
    rw [hscan]
    rfl
  rw [step, if_pos hs, scanToken, hrun]
  rfl

theorem step_of_failed {f : LexFault} {anchor : Anchor} (hs : s.spaces = 0)
    (hscan : Lexeme.scan s.rest = ⟨k, .error (f, anchor)⟩) :
    s.step = (.error ⟨f, s.markHere.locate anchor⟩, s.markHere.advance k) := by
  have hrun : s.markHere.run Lexeme.scan =
      (.error ⟨f, s.markHere.locate anchor⟩, s.markHere.advance k) := by
    show (s.markHere.located (Lexeme.scan s.rest).result,
      s.markHere.advance (Lexeme.scan s.rest).taken) = _
    rw [hscan]
    rfl
  rw [step, if_pos hs, scanToken, hrun]

theorem tokens_of_space (hne : s.rest ≠ []) (hs : s.spaces ≠ 0) :
    s.tokens = (s.advance s.spaces).tokens := by
  rw [tokens_of_step hne (step_of_space hs)]
  rfl

theorem tokens_of_found (hne : s.rest ≠ []) (hs : s.spaces = 0)
    (hscan : Lexeme.scan s.rest = .found k l) :
    s.tokens = (s.tokenHere k l :: (s.behind k l).tokens.1, (s.behind k l).tokens.2) := by
  rw [tokens_of_step hne (step_of_found hs hscan)]
  rfl

theorem tokens_of_failed {f : LexFault} {anchor : Anchor} (hne : s.rest ≠ []) (hs : s.spaces = 0)
    (hscan : Lexeme.scan s.rest = ⟨k, .error (f, anchor)⟩) :
    s.tokens = ([], some ⟨f, s.markHere.locate anchor⟩, s.markHere.advance k) :=
  tokens_of_fault hne (step_of_failed hs hscan)

/-- A lexeme that is scanned is a token, and the scan goes on behind it. -/
theorem tokens_of_scan (hscan : Lexeme.scan s.rest = .found k l) :
    s.tokens = (s.tokenHere k l :: (s.behind k l).tokens.1, (s.behind k l).tokens.2) := by
  refine tokens_of_found (fun hnil => ?_)
    (spaces_eq_zero (Lexeme.isSpace_first_of_scan hscan)) hscan
  rw [hnil] at hscan
  cases hscan

/-- Induction from token to token, just as the text is scanned: nothing is left, or spaces stand in
front, or a lexeme that is found, or there is a fault. -/
@[elab_as_elim]
theorem token_induction {motive : Scanner → Prop}
    (ended : ∀ s : Scanner, s.rest = [] → motive s)
    (space : ∀ s : Scanner, s.rest ≠ [] → s.spaces ≠ 0 → motive (s.advance s.spaces) → motive s)
    (found : ∀ (s : Scanner) (k : Nat) (l : Lexeme), s.rest ≠ [] → s.spaces = 0 →
      Lexeme.scan s.rest = .found k l → motive (s.behind k l) → motive s)
    (failed : ∀ (s : Scanner) (k : Nat) (f : LexFault) (anchor : Anchor), s.rest ≠ [] →
      s.spaces = 0 → Lexeme.scan s.rest = ⟨k, .error (f, anchor)⟩ → motive s)
    (s : Scanner) : motive s := by
  by_cases hne : s.rest = []
  · exact ended s hne
  by_cases hs : s.spaces = 0
  · obtain ⟨k, result, hscan⟩ : ∃ k result, Lexeme.scan s.rest = ⟨k, result⟩ := ⟨_, _, rfl⟩
    cases result with
    | error fault => exact failed s k fault.1 fault.2 hne hs hscan
    | ok l =>
        have hlt := length_rest_lt_of_step hne (step_of_found hs hscan)
        exact found s k l hne hs hscan (token_induction ended space found failed (s.behind k l))
  · have hlt := length_rest_lt_of_step hne (step_of_space hs)
    exact space s hne hs (token_induction ended space found failed (s.advance s.spaces))
termination_by s.rest.length

end Scanner

namespace Lexes

theorem rest_spaces (s : Scanner) : (s.advance s.spaces).rest = s.rest.dropWhile isSpace :=
  Text.drop_takeWhile isSpace s.rest

/-- A text that spells lexemes is scanned without a fault. By induction from token to token, since
a step passes over all the spaces at once. -/
theorem tokens {s : Scanner} {ls : List Lexeme} (h : Lexes s.rest ls) :
    s.tokens.2.1 = none ∧ s.tokens.1.map Token.lexeme = ls ++ [.endOfInput] := by
  induction s using Scanner.token_induction generalizing ls with
  | ended s hnil =>
      rw [Scanner.tokens_of_end hnil]
      rw [hnil] at h
      cases h with
      | done => exact ⟨rfl, rfl⟩
      | lexeme _ hscan _ => cases hscan
  | space s hne hs ih =>
      have hrest : Lexes (s.advance s.spaces).rest ls := by
        rw [rest_spaces]
        exact h.dropSpaces
      rw [Scanner.tokens_of_space hne hs]
      exact ih hrest
  | found s k l hne hs hscan ih =>
      obtain ⟨ms, rfl, hms⟩ := h.of_found hne (Scanner.first_of_spaces_eq_zero hs) hscan
      rw [← Scanner.rest_behind] at hms
      obtain ⟨hnone, htokens⟩ := ih hms
      rw [Scanner.tokens_of_found hne hs hscan]
      exact ⟨hnone, congrArg (l :: ·) htokens⟩
  | failed s k f anchor hne hs hscan =>
      exact absurd hscan (h.not_failed hne (Scanner.first_of_spaces_eq_zero hs))

/-- A text that is scanned without a fault spells lexemes. -/
theorem of_tokens {s : Scanner} (h : s.tokens.2.1 = none) : ∃ ls, Lexes s.rest ls := by
  induction s using Scanner.token_induction with
  | ended s hnil => exact ⟨[], by rw [hnil]; exact .done⟩
  | space s hne hs ih =>
      rw [Scanner.tokens_of_space hne hs] at h
      obtain ⟨ls, hls⟩ := ih h
      rw [rest_spaces] at hls
      exact ⟨ls, of_dropSpaces hls⟩
  | found s k l hne hs hscan ih =>
      rw [Scanner.tokens_of_found hne hs hscan] at h
      obtain ⟨ls, hls⟩ := ih h
      rw [Scanner.rest_behind] at hls
      exact ⟨_, .lexeme (Scanner.first_of_spaces_eq_zero hs) hscan hls⟩
  | failed s k f anchor hne hs hscan =>
      rw [Scanner.tokens_of_failed hne hs hscan] at h
      cases h

end Lexes

/-- What a text spells is what the scanner finds in it. -/
theorem lexes_iff {s : Text} {ls : List Lexeme} :
    Lexes s ls ↔
      (tokenize s).2 = none ∧ (tokenize s).1.map Token.lexeme = ls ++ [.endOfInput] := by
  constructor
  · exact fun h => Lexes.tokens (s := Scanner.ofText s) h
  · rintro ⟨hnone, htokens⟩
    obtain ⟨ms, hms⟩ := Lexes.of_tokens (s := Scanner.ofText s) hnone
    have h := (Lexes.tokens (s := Scanner.ofText s) hms).2
    obtain rfl : ls = ms := List.append_cancel_right (htokens.symm.trans h)
    exact hms

/-- A text that spells lexemes has these and no others. -/
theorem Lexes.lexemes {s : Text} {ls : List Lexeme} (h : Lexes s ls) : s.lexemes = ls := by
  have hvalid : ∀ l ∈ ls, l ≠ .endOfInput := by
    rintro l hl rfl
    exact h.valid _ hl
  rw [Text.lexemes, (lexes_iff.mp h).2, List.filter_append,
    List.filter_eq_self.mpr fun l hl => decide_eq_true (hvalid l hl)]
  simp

/-- A text that is scanned without a fault spells its lexemes. -/
theorem lexes_lexemes {s : Text} (h : (tokenize s).2 = none) : Lexes s s.lexemes := by
  obtain ⟨ls, hls⟩ : ∃ ls, Lexes s ls := Lexes.of_tokens (s := Scanner.ofText s) h
  rwa [hls.lexemes]

end GlyphFormat
