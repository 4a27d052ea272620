import GlyphFormat.Proofs.Token.Pieces
import GlyphFormat.Proofs.Token.Places
import Mathlib.Data.List.Induction

/-!
# What a scan covers

Accepted or not, a source is cut into the pieces that its tokens stand for, and every token has the
place of its piece (`tokens_cover`). Places are counted here in the text in front of them, without a
scanner: the line from the line feeds, the column from the code points behind the last one
(`Text.place`).

A scan that stops early stops in front of a part that no lexeme begins (`Stuck`). The fault is
reported where that part begins, or at the backslash in it that begins no escape.
-/

namespace GlyphFormat

open Scanner (isSpace)

/-! ## Places -/

/-- The place behind a text that begins a source. Lines end with a line feed, and a column counts
code points. -/
def Text.place (a : Text) : Position where
  line := 1 + a.count (CodePoint.ofChar '\n')
  column := 1 + (a.reverse.takeWhile (· ≠ CodePoint.ofChar '\n')).length

theorem Position.past_start (a : Text) : Position.past ⟨1, 1⟩ a = a.place := by
  induction a using List.reverseRecOn with
  | nil => rfl
  | append_singleton a c ih =>
      rw [Position.past_append, ih, Text.place, Text.place, List.count_append, List.reverse_append,
        List.reverse_singleton, List.singleton_append, List.takeWhile_cons]
      show Position.next _ c = _
      by_cases hc : c = '\n'
      · subst hc
        rfl
      · have hcount : List.count (CodePoint.ofChar '\n') [c] = 0 :=
          List.count_eq_zero.mpr fun h => hc (List.mem_singleton.mp h).symm
        rw [Position.next, if_neg hc, hcount, if_pos (by simpa using hc)]
        rfl

/-- The tokens that pieces behind the text are. -/
def Piece.tokens (a : Text) : List Piece → List Token
  | [] => []
  | p :: ps =>
    let start := (a ++ p.gap).place
    ⟨p.lexeme, start, ⟨start.line, start.column + p.body.length⟩⟩ ::
      tokens (a ++ p.gap ++ p.body) ps

/-! ## Faults -/

/-- The text begins with a quoted literal that is faulty at the backslash behind `u`: no escape
begins there. -/
def FaultyEscape (r u : Text) : Prop :=
  ∃ q b t v, IsQuote q ∧ u = q :: b ∧ r = u ++ CodePoint.ofChar '\\' :: v ∧ QuotedBody q b t ∧
    ¬Escape.Begins v

namespace Lexeme

variable {r u s : Text} {c : CodePoint} {f : LexFault} {anchor : Anchor}

theorem result_scan_string (s : Text) :
    Lexeme.scan (CodePoint.ofChar '"' :: s) =
      ((scanQuoted (some '"') "string" s).map .string).after 1 := rfl

theorem result_scan_char (s : Text) :
    Lexeme.scan (CodePoint.ofChar '\'' :: s) = (scanChar s).after 1 := rfl

/-- A faulty escape is reported at its backslash. -/
theorem scan_faultyEscape (h : FaultyEscape r u) :
    ∃ f, (Lexeme.scan r).result = .error (f, .before (u.length + 1)) := by
  obtain ⟨q, b, t, v, hq, rfl, rfl, hbody, hv⟩ := h
  rw [List.cons_append]
  rcases id hq with rfl | rfl
  · obtain ⟨k, f, -, hk⟩ := scanQuoted_fault "string" hq hbody hv
    refine ⟨f, ?_⟩
    rw [result_scan_string, hk, List.length_cons, Nat.add_comm (b.length + 1)]
    rfl
  · obtain ⟨k, f, -, hk⟩ := scanQuoted_fault "character literal" hq hbody hv
    refine ⟨f, ?_⟩
    rw [result_scan_char, scanChar, hk, List.length_cons, Nat.add_comm (b.length + 1)]
    rfl

/-- A fault that a scan can meet at the front of the text: it is reported where the lexeme starts,
or else an escape is faulty. -/
def IsFault (r : Text) (f : LexFault) (a : Anchor) : Prop :=
  f ≠ .noDigits ∧ (a = .token ∨ ∃ u, FaultyEscape r u)

theorem isFault_of_scanString {q : CodePoint} (hq : q = '"')
    (h : ((scanString s).after 1).result = .error (f, anchor)) : IsFault (q :: s) f anchor := by
  have hquote : IsQuote q := .inl hq
  rw [scanString, ← hq] at h
  rcases scanQuoted_cases "string" hquote s with ⟨u, v, t, -, -, hscan⟩ |
    ⟨u, v, t, k, g, rfl, hbody, hv, hg, hscan⟩ | ⟨k, hscan⟩ <;> rw [hscan] at h <;> cases h
  · exact ⟨hg, .inr ⟨_, q, u, t, v, hquote, rfl, rfl, hbody, hv⟩⟩
  · exact ⟨by simp, .inl rfl⟩

theorem isFault_of_scanChar {q : CodePoint} (hq : q = '\'')
    (h : ((scanChar s).after 1).result = .error (f, anchor)) : IsFault (q :: s) f anchor := by
  have hquote : IsQuote q := .inr hq
  rw [scanChar, ← hq] at h
  rcases scanQuoted_cases "character literal" hquote s with ⟨u, v, t, -, -, hscan⟩ |
    ⟨u, v, t, k, g, rfl, hbody, hv, hg, hscan⟩ | ⟨k, hscan⟩ <;> rw [hscan] at h
  · simp only [Scan.found] at h
    split at h <;> cases h
    exact ⟨by simp, .inl rfl⟩
  · cases h
    exact ⟨hg, .inr ⟨_, q, u, t, v, hquote, rfl, rfl, hbody, hv⟩⟩
  · cases h
    exact ⟨by simp, .inl rfl⟩

theorem isFault_of_scan (h : (Lexeme.scan r).result = .error (f, anchor)) : IsFault r f anchor := by
  cases r with
  | nil => cases h; exact ⟨by simp, .inl rfl⟩
  | cons c s =>
      have hspec := Opening.spec c
      rw [Lexeme.scan, first_cons] at h
      cases ho : Opening.of c with
      | comment | letter | glyph p | punctuation m => rw [ho] at h; cases h
      | string => rw [ho] at h hspec; exact isFault_of_scanString hspec h
      | char => rw [ho] at h hspec; exact isFault_of_scanChar hspec h
      | newline =>
          rw [ho] at h
          replace h : (scanNewline (c :: s)).result = .error (f, anchor) := h
          rw [scanNewline_cons] at h
          split at h
          · split at h
            · cases h
            · cases h
              exact ⟨by simp, .inl rfl⟩
          · cases h
      | number =>
          rw [ho] at h hspec
          replace h : (scanNumber (c :: s)).result = .error (f, anchor) := h
          unfold scanNumber at h
          extract_lets whole digits taken at h
          have hwhole : whole.length ≠ 0 := by
            rw [show whole = c :: s.takeWhile CodePoint.isDigit from
              List.takeWhile_cons_of_pos hspec]
            exact Nat.succ_ne_zero _
          have htaken : taken ≠ 0 := by
            unfold taken
            split <;> omega
          rw [if_neg htaken] at h
          split at h
          · cases h
          · cases h
            exact ⟨by simp, .inl rfl⟩
      | selector =>
          rw [ho] at h
          replace h : ((scanSelector s).after 1).result = .error (f, anchor) := h
          unfold scanSelector at h
          extract_lets letters at h
          split at h
          · cases h
            exact ⟨by simp, .inl rfl⟩
          · cases h
      | nothing =>
          rw [ho] at h
          cases h
          exact ⟨by simp, .inl rfl⟩

/-- Where a fault is reported: at the backslash of a faulty escape, else where the lexeme starts. -/
theorem anchor_of_scan (h : (Lexeme.scan r).result = .error (f, anchor)) :
    (∃ u, FaultyEscape r u ∧ anchor = .before (u.length + 1)) ∨
      (∀ u, ¬FaultyEscape r u) ∧ anchor = .token := by
  have hfaulty : ∀ {u}, FaultyEscape r u → anchor = .before (u.length + 1) := fun hu => by
    obtain ⟨g, hg⟩ := scan_faultyEscape hu
    exact (Prod.mk.inj (Except.error.inj (h.symm.trans hg))).2
  rcases (isFault_of_scan h).2 with rfl | ⟨u, hu⟩
  · exact .inr ⟨fun u hu => (nomatch hfaulty hu), rfl⟩
  · exact .inl ⟨u, hu, hfaulty hu⟩

end Lexeme

/-- An escape holds no line feed. -/
theorem Escape.Written.not_mem {e : Text} {c : CodePoint} (h : Written e c) :
    CodePoint.ofChar '\n' ∉ e := by
  cases h with
  | letter h =>
      have table : ∀ p ∈ letters, p.1 ≠ CodePoint.ofChar '\n' := by decide
      exact fun hmem => table _ h (List.mem_singleton.mp hmem).symm
  | number hds _ =>
      refine List.not_mem_cons_of_ne_of_not_mem (by decide)
        (List.not_mem_cons_of_ne_of_not_mem (by decide) fun hmem => ?_)
      exact (List.mem_append.mp hmem).elim (fun hmem => (hds _ hmem).2.2 rfl) (by decide)

/-- A quoted literal stays on its line. -/
theorem QuotedBody.not_mem {q : CodePoint} {u t : Text} (h : QuotedBody q u t) :
    CodePoint.ofChar '\n' ∉ u := by
  induction h with
  | nil => exact List.not_mem_nil
  | plain hbreak _ _ _ ih =>
      refine List.not_mem_cons_of_ne_of_not_mem ?_ ih
      rintro rfl
      cases hbreak
  | escape he _ ih =>
      refine List.not_mem_cons_of_ne_of_not_mem (by decide) fun hmem => ?_
      exact (List.mem_append.mp hmem).elim he.not_mem ih

theorem FaultyEscape.not_mem {r u : Text} (h : FaultyEscape r u) : CodePoint.ofChar '\n' ∉ u := by
  obtain ⟨q, b, t, v, hq, rfl, -, hbody, -⟩ := h
  refine List.not_mem_cons_of_ne_of_not_mem ?_ hbody.not_mem
  rcases hq with rfl | rfl <;> decide

/-! ## The run of the scanner -/

/-- A scan is stuck behind the text `a` in front of `r`: no lexeme begins there. The place is that
of the backslash of an escape that is faulty, else that of the part. -/
structure Stuck (a r : Text) (p : Position) : Prop where
  nonempty : r ≠ []
  not_blank : isSpace (Text.first r) = false
  no_lexeme : ∀ u v l, r = u ++ v → Lexeme.Written u l → ¬l.Apart u v
  place : (∃ u, FaultyEscape r u ∧ p = (a ++ u).place) ∨
    (∀ u, ¬FaultyEscape r u) ∧ p = a.place

namespace Scanner

variable {source a : Text} {s : Scanner}

theorem tokens_skip (s : Scanner) : s.tokens = (s.advance s.spaces).tokens := by
  by_cases hs : s.spaces = 0
  · rw [hs]
    rfl
  · refine tokens_of_space (fun hnil => hs ?_) hs
    rw [spaces, hnil]
    rfl

theorem spaces_skip (s : Scanner) : (s.advance s.spaces).spaces = 0 := by
  rw [spaces, Lexes.rest_spaces]
  cases hr : s.rest.dropWhile isSpace with
  | nil => rfl
  | cons c r =>
      have hc : isSpace c = false := Text.head?_dropWhile (by rw [hr]; rfl)
      rw [List.takeWhile_cons_of_neg (by rw [hc]; decide)]
      rfl

/-- A scan that meets a fault is stuck where the scanner stands. -/
theorem StandsBehind.stuck (h : StandsBehind source a s) (hne : s.rest ≠ []) (hs : s.spaces = 0)
    {f : LexFault} {anchor : Anchor} (hscan : (Lexeme.scan s.rest).result = .error (f, anchor)) :
    Stuck a s.rest (s.markHere.locate anchor) where
  nonempty := hne
  not_blank := first_of_spaces_eq_zero hs
  no_lexeme u v l heq hbody hapart := by
    rw [heq, hbody.scan_append hapart] at hscan
    cases hscan
  place := by
    have hplace : s.position = a.place := h.position.trans (Position.past_start a)
    refine (Lexeme.anchor_of_scan hscan).imp ?_ ?_
    · rintro ⟨u, hu, rfl⟩
      refine ⟨u, hu, ?_⟩
      rw [← Position.past_start, Position.past_append, ← h.position,
        Position.past_of_not_mem _ hu.not_mem]
      rfl
    · rintro ⟨hall, rfl⟩
      exact ⟨hall, hplace⟩

/-- The scanner cuts what it has in front of it. By induction on that text. -/
theorem StandsBehind.cut {a : Text} {s : Scanner} (h : StandsBehind source a s) :
    ∃ ps w r, Cut ps s.rest (w ++ r) ∧ (∀ c ∈ w, isSpace c = true) ∧
      (s.tokens.2.1 = none ∧ r = [] ∧
          s.tokens.1 = Piece.tokens a ps ++ [⟨.endOfInput, source.place, source.place⟩] ∨
        ∃ e, s.tokens.2.1 = some e ∧ s.tokens.1 = Piece.tokens a ps ∧
          Stuck (a ++ (Piece.textOf ps ++ w)) r e.position ∧ e.fault ≠ .noDigits) := by
  have hskip := h.space
  have hgap : ∀ c ∈ s.rest.takeWhile isSpace, isSpace c = true := fun c hc => Text.mem_takeWhile hc
  have hrest : s.rest = s.rest.takeWhile isSpace ++ (s.advance s.spaces).rest := by
    rw [Lexes.rest_spaces, List.takeWhile_append_dropWhile]
  have hle : (s.advance s.spaces).rest.length ≤ s.rest.length := by
    rw [hrest, List.length_append]
    omega
  have hs := spaces_skip s
  rw [tokens_skip s]
  generalize s.advance s.spaces = t at hskip hrest hs hle ⊢
  generalize s.rest.takeWhile isSpace = gap at hskip hrest hgap
  rw [hrest]
  by_cases hne : t.rest = []
  · refine ⟨[], gap, [], by rw [hne]; exact .nil _, hgap, ?_⟩
    have hplace : t.position = source.place := by
      rw [hskip.position, Position.past_start, hskip.eq, hne, List.append_nil]
    rw [tokens_of_end hne, ← hplace]
    exact .inl ⟨rfl, rfl, rfl⟩
  obtain ⟨k, result, hscan⟩ : ∃ k result, Lexeme.scan t.rest = ⟨k, result⟩ := ⟨_, _, rfl⟩
  cases result with
  | error fault =>
      obtain ⟨f, anchor⟩ := fault
      have hfault : (Lexeme.scan t.rest).result = .error (f, anchor) := by rw [hscan]
      rw [tokens_of_failed hne hs hscan]
      exact ⟨[], gap, t.rest, .nil _, hgap, .inr ⟨_, rfl, rfl, hskip.stuck hne hs hfault,
        (Lexeme.isFault_of_scan hfault).1⟩⟩
  | ok l =>
      obtain ⟨u, v, heq, rfl, hbody, hapart⟩ := Lexeme.exists_written hscan
      have hbehind := hskip.behind hscan
      have hdrop := length_rest_lt_of_step hne (step_of_found hs hscan)
      have hv : (t.behind u.length l).rest = v := by rw [rest_behind, heq, List.drop_left]
      obtain ⟨ps, w, r, hcut, hw, hmore⟩ := hbehind.cut
      rw [hv] at hcut
      rw [heq, List.take_left] at hbehind hmore
      rw [tokens_of_found hne hs hscan, heq]
      refine ⟨⟨gap, u, l⟩ :: ps, w, r, .cons (p := ⟨gap, u, l⟩) hgap hbody hapart hcut, hw, ?_⟩
      have htoken : Piece.tokens a (⟨gap, u, l⟩ :: ps) =
          t.tokenHere u.length l :: Piece.tokens (a ++ gap ++ u) ps := by
        rw [Piece.tokens, ← Position.past_start (a ++ gap), ← hskip.position]
        rfl
      rw [htoken]
      rcases hmore with ⟨he, hr, hmore⟩ | ⟨e, he, hmore, hstuck, hdigits⟩
      · exact .inl ⟨he, hr, congrArg (t.tokenHere u.length l :: ·) hmore⟩
      · refine .inr ⟨e, he, congrArg (t.tokenHere u.length l :: ·) hmore, ?_, hdigits⟩
        rw [List.append_assoc, List.append_assoc] at hstuck
        rwa [Piece.textOf_cons, List.append_assoc, List.append_assoc]
termination_by s.rest.length

end Scanner

theorem tokenize_cut (s : Text) :
    ∃ ps w r, Cut ps s (w ++ r) ∧ (∀ c ∈ w, isSpace c = true) ∧
      ((tokenize s).2 = none ∧ r = [] ∧
          (tokenize s).1 = Piece.tokens [] ps ++ [⟨.endOfInput, s.place, s.place⟩] ∨
        ∃ e, (tokenize s).2 = some e ∧ (tokenize s).1 = Piece.tokens [] ps ∧
          Stuck (Piece.textOf ps ++ w) r e.position ∧ e.fault ≠ .noDigits) :=
  (Scanner.standsBehind_ofText s).cut

/-- The tokens of a source, whether or not it is accepted, are consecutive pieces of it at their
places, with nothing but blanks between them. They reach up to the end, where the end of input
stands, or to a part that no lexeme begins, and then that is where the fault is reported, or else
at a faulty escape of that part. -/
theorem tokens_cover (s : Text) :
    ∃ ps w r, s = Piece.textOf ps ++ (w ++ r) ∧ Cut ps s (w ++ r) ∧
      (∀ p ∈ ps, p.body ≠ [] ∧ ∀ c ∈ p.gap, isSpace c = true) ∧ (∀ c ∈ w, isSpace c = true) ∧
      match (tokenize s).2 with
      | none => r = [] ∧
        (tokenize s).1 = Piece.tokens [] ps ++ [⟨.endOfInput, s.place, s.place⟩]
      | some e => (tokenize s).1 = Piece.tokens [] ps ∧
        Stuck (Piece.textOf ps ++ w) r e.position := by
  obtain ⟨ps, w, r, hcut, hw, h⟩ := tokenize_cut s
  refine ⟨ps, w, r, hcut.eq, hcut, fun p hp => ?_, hw, ?_⟩
  · exact ⟨(hcut.mem p hp).2.first.1, (hcut.mem p hp).1⟩
  · rcases h with ⟨he, hr, htokens⟩ | ⟨e, he, htokens, hstuck, -⟩
    · rw [he]
      exact ⟨hr, htokens⟩
    · rw [he]
      exact ⟨htokens, hstuck⟩

/-! ## Where tokens and faults stand -/

theorem Piece.start_of_mem {a : Text} {ps : List Piece} {t : Token} (h : t ∈ tokens a ps) :
    ∃ b c, textOf ps = b ++ c ∧ t.start = (a ++ b).place := by
  induction ps generalizing a with
  | nil => cases h
  | cons p ps ih =>
      rcases List.mem_cons.mp h with rfl | h
      · exact ⟨p.gap, p.body ++ textOf ps, textOf_cons p ps, rfl⟩
      · obtain ⟨b, c, hbc, hstart⟩ := ih h
        refine ⟨p.gap ++ (p.body ++ b), c, by rw [textOf_cons, hbc]; simp, ?_⟩
        rw [hstart, List.append_assoc, List.append_assoc]

/-- A token starts behind some front part of the source. -/
theorem start_placed {s : Text} {t : Token} (h : t ∈ (tokenize s).1) :
    ∃ a b, s = a ++ b ∧ t.start = a.place := by
  obtain ⟨ps, w, r, hcut, -, htokens⟩ := tokenize_cut s
  have hpiece : t ∈ Piece.tokens [] ps → ∃ a b, s = a ++ b ∧ t.start = a.place := fun ht => by
    obtain ⟨b, c, hbc, hstart⟩ := Piece.start_of_mem ht
    exact ⟨b, c ++ (w ++ r), by rw [hcut.eq, hbc, List.append_assoc], hstart⟩
  rcases htokens with ⟨-, -, htokens⟩ | ⟨e, -, htokens, -⟩ <;> rw [htokens] at h
  · rcases List.mem_append.mp h with h | h
    · exact hpiece h
    · obtain rfl := List.mem_singleton.mp h
      exact ⟨s, [], (List.append_nil s).symm, rfl⟩
  · exact hpiece h

/-- So does a fault. A number is scanned only where a digit stands. -/
theorem fault_placed {s : Text} {e : LexError} (h : (tokenize s).2 = some e) :
    (∃ a b, s = a ++ b ∧ e.position = a.place) ∧ e.fault ≠ .noDigits := by
  obtain ⟨ps, w, r, hcut, -, ⟨he, -⟩ | ⟨e', he, -, hstuck, hdigits⟩⟩ := tokenize_cut s
  · rw [he] at h
    cases h
  obtain rfl := Option.some.inj (he.symm.trans h)
  refine ⟨?_, hdigits⟩
  rcases hstuck.place with ⟨u, ⟨q, b, t, v, -, -, hr, -⟩, hplace⟩ | ⟨-, hplace⟩
  · exact ⟨_, CodePoint.ofChar '\\' :: v, by rw [hcut.eq, hr]; simp, hplace⟩
  · exact ⟨_, r, by rw [hcut.eq, List.append_assoc], hplace⟩

end GlyphFormat
