import GlyphFormat.Proofs.Text.Numeral

/-!
# Quoted literals read back

Whatever code points a literal holds, its canonical text is read as exactly these, and the scan
stops right behind the closing quote whatever follows (`scanQuoted_quoteText`). The step lemma
covers the four ways in which one code point is written: as itself, as its own quote, by a letter,
by number.
-/

namespace GlyphFormat

namespace Escape

/-! ## The letters -/

theorem mem_of_letter? {c l : CodePoint} (h : letter? c = some l) : (l, c) ∈ letters := by
  unfold letter? at h
  split at h
  · cases h
  · obtain ⟨p, hp, rfl⟩ := Option.map_eq_some_iff.mp h
    obtain rfl : p.2 = c := by simpa using List.find?_some hp
    exact List.mem_of_find?_eq_some hp

theorem meaning?_of_letter? {c l : CodePoint} (h : letter? c = some l) : meaning? l = some c := by
  have table : ∀ p ∈ letters, meaning? p.1 = some p.2 := by decide
  exact table (l, c) (mem_of_letter? h)

/-- What has no letter stays on its line and begins no escape. -/
theorem plain_of_letter? {c : CodePoint} (h : letter? c = none) :
    c.isLineBreak = false ∧ c ≠ '\\' := by
  refine ⟨Bool.eq_false_iff.mpr fun hb => ?_, fun hc => ?_⟩
  · simp only [CodePoint.isLineBreak, Bool.or_eq_true, decide_eq_true_eq] at hb
    rcases hb with rfl | rfl <;> exact absurd h (by decide)
  · subst hc
    exact absurd h (by decide)

/-! ## Escapes by number -/

theorem scanNumber_numeral (c : CodePoint) (rest : Text) :
    scanNumber (Text.numeral 16 c.val ++ CodePoint.ofChar '\x7d' :: rest) =
      .found ((Text.numeral 16 c.val).length + 1) c := by
  have hrun : (Text.numeral 16 c.val ++ CodePoint.ofChar '\x7d' :: rest).takeWhile isInside =
      Text.numeral 16 c.val := by
    refine Text.takeWhile_run (fun d hd => ?_) fun d hd => ?_
    · exact (HexNumeral.isPlain_of_mem_numeral hd).apart.2.2.2.2.2.2
    · obtain rfl : CodePoint.ofChar '\x7d' = d := by simpa using hd
      decide
  unfold scanNumber
  simp only [hrun, List.drop_left, HexNumeral.codePoint?_numeral]
  exact if_pos rfl

theorem byNumber_eq (c : CodePoint) :
    byNumber c = CodePoint.ofChar '\\' :: CodePoint.ofChar 'u' :: CodePoint.ofChar '\x7b' ::
      (Text.numeral 16 c.val ++ [CodePoint.ofChar '\x7d']) := by
  simp [byNumber, Text.ofString]

theorem scan_byNumber (c : CodePoint) (rest : Text) :
    scan ((byNumber c ++ rest).tail) = .found ((byNumber c).length - 1) c := by
  have hmeaning : meaning? (CodePoint.ofChar 'u') = none := by decide
  have hlen : (byNumber c).length - 1 = 2 + ((Text.numeral 16 c.val).length + 1) := by
    rw [byNumber_eq]
    simp only [List.length_cons, List.length_append, List.length_nil]
    omega
  rw [hlen, byNumber_eq]
  simp only [List.cons_append, List.tail_cons, List.append_assoc, List.nil_append, scan, hmeaning]
  rw [if_pos ⟨trivial, rfl⟩, scanNumber_numeral]
  rfl

end Escape

/-! ## One code point of a literal -/

section

variable {q : CodePoint} {what rest : Text}

/-- The code points that quote a literal: each may stand behind a backslash. -/
def IsQuote (q : CodePoint) : Prop := q = '"' ∨ q = '\''

theorem IsQuote.ne_backslash (hq : IsQuote q) : some (CodePoint.ofChar '\\') ≠ some q := by
  rcases hq with rfl | rfl <;> decide

theorem IsQuote.plain (hq : IsQuote q) :
    q.isLineBreak = false ∧ Escape.meaning? q = some q := by
  rcases hq with rfl | rfl <;> decide

/-- An escape in a literal stands for one code point. -/
theorem scanQuoted_escape {quote : Option CodePoint} (hq : some (CodePoint.ofChar '\\') ≠ quote)
    {s : Text} {n : Nat} {c : CodePoint} (hs : Escape.scan s = .found n c) :
    scanQuoted quote what (CodePoint.ofChar '\\' :: s) =
      ((scanQuoted quote what (s.drop n)).map (c :: ·)).after (1 + n) := by
  rw [scanQuoted, if_neg (by decide), if_neg hq, if_pos rfl, hs]
  rfl

theorem scanQuoted_plain {quote : Option CodePoint} {c : CodePoint} (hb : ¬c.isLineBreak = true)
    (hq : some c ≠ quote) (he : c ≠ '\\') :
    scanQuoted quote what (c :: rest) = ((scanQuoted quote what rest).map (c :: ·)).after 1 := by
  rw [scanQuoted, if_neg hb, if_neg hq, if_neg he]

/-- One code point, as it is written, is read as itself. -/
theorem scanQuoted_quoteOne (hq : IsQuote q) (c : CodePoint) :
    scanQuoted (some q) what (quoteOne (some q) c ++ rest) =
      ((scanQuoted (some q) what rest).map (c :: ·)).after (quoteOne (some q) c).length := by
  unfold quoteOne
  by_cases hc : c = q
  · subst hc
    rw [if_pos rfl]
    exact scanQuoted_escape (s := c :: rest) (n := 1) hq.ne_backslash
      (by rw [Escape.scan, hq.plain.2])
  · rw [if_neg fun h => hc (Option.some.inj h)]
    cases hl : Escape.letter? c with
    | some l =>
        have hm := Escape.meaning?_of_letter? hl
        exact scanQuoted_escape (s := l :: rest) (n := 1) hq.ne_backslash
          (by rw [Escape.scan, hm])
    | none =>
        obtain ⟨hb, he⟩ := Escape.plain_of_letter? hl
        by_cases hp : c.isPrintable = true
        · simp only [if_pos hp]
          exact scanQuoted_plain (by simp [hb]) (fun h => hc (Option.some.inj h)) he
        · simp only [if_neg hp]
          have hscan := Escape.scan_byNumber c rest
          have hlen : 1 + ((Escape.byNumber c).length - 1) = (Escape.byNumber c).length := by
            rw [Escape.byNumber_eq, List.length_cons]
            omega
          have hdrop : ((Escape.byNumber c ++ rest).tail).drop ((Escape.byNumber c).length - 1) =
              rest := by
            rw [← List.drop_one, List.drop_drop, hlen, List.drop_left]
          have hstep := @scanQuoted_escape what _ hq.ne_backslash _ _ _ hscan
          rw [hdrop, hlen] at hstep
          rw [← hstep, Escape.byNumber_eq]
          rfl

/-- The inside of a literal with its closing quote is read as what the literal holds. -/
theorem scanQuoted_quoteText (hq : IsQuote q) (t : Text) :
    scanQuoted (some q) what (quoteText (some q) t ++ q :: rest) =
      .found ((quoteText (some q) t).length + 1) t := by
  induction t with
  | nil =>
      rw [show quoteText (some q) [] = [] from rfl, List.nil_append, scanQuoted,
        if_neg (by simp [hq.plain.1]), if_pos rfl]
      rfl
  | cons c t ih =>
      have hsplit : quoteText (some q) (c :: t) =
          quoteOne (some q) c ++ quoteText (some q) t := List.flatMap_cons
      rw [hsplit, List.append_assoc, scanQuoted_quoteOne hq, ih]
      simp only [Scan.map, Scan.after, Scan.found, Except.map, List.length_append, Scan.mk.injEq,
        and_true]
      omega

end

end GlyphFormat
