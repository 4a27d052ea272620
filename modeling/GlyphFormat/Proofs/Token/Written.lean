import GlyphFormat.Proofs.Decimal.Rounding
import GlyphFormat.Proofs.Literal.Bodies
import GlyphFormat.Proofs.Token.Layout

/-!
# How lexemes are written

The lexical grammar, without a scan: which texts a lexeme is written with (`Written`), and what may
follow such a text so that the lexeme ends there (`Apart`).

The scan finds just what is written. A text of a lexeme that stays apart from what follows is
scanned as that lexeme (`Written.scan_append`), and a lexeme that is found is written with what the
scan took (`exists_written`). So at most one lexeme begins a text.
-/

namespace GlyphFormat

namespace Lexeme

/-- The punctuation. -/
def marks : List (CodePoint × Lexeme) :=
  [('_', .underscore), ('[', .openSquare), (']', .closeSquare), ('(', .openRound),
    (')', .closeRound), ('|', .pipe), ('=', .assign)]

/-- The text is one that the lexeme is written with. -/
inductive Written : Text → Lexeme → Prop
  | glyph {c : CodePoint} {p : Primitive} (h : p.glyph? = some c) : Written [c] (.primitive p)
  | mark {c : CodePoint} {l : Lexeme} (h : (c, l) ∈ marks) : Written [c] l
  | newline {u : Text} (h : u = "\n" ∨ u = "\r\n") : Written u .newline
  | comment {t : Text} (ht : ∀ c ∈ t, c.isLineBreak = false) :
      Written (CodePoint.ofChar '#' :: t) (.comment t.ofComment)
  | whole {ds : Text} {x : Binary64} (hne : ds ≠ []) (hds : ∀ c ∈ ds, c.isDigit = true)
      (hx : x.RoundedFrom (digitsValue ds) 0) : Written ds (.number x)
  | fraction {ds es : Text} {x : Binary64} (hne : ds ≠ []) (hds : ∀ c ∈ ds, c.isDigit = true)
      (hne' : es ≠ []) (hes : ∀ c ∈ es, c.isDigit = true)
      (hx : x.RoundedFrom (digitsValue (ds ++ es)) es.length) :
      Written (ds ++ CodePoint.ofChar '.' :: es) (.number x)
  | ident {n : Text} (hne : n ≠ []) (hn : ∀ c ∈ n, c.isLetter = true) : Written n (.ident n)
  | selector {n : Text} (hne : n ≠ []) (hn : ∀ c ∈ n, c.isSmallLetter = true) :
      Written (CodePoint.ofChar ':' :: n) (.selector n)
  | string {u t : Text} (h : QuotedBody (CodePoint.ofChar '"') u t) :
      Written (CodePoint.ofChar '"' :: (u ++ [CodePoint.ofChar '"'])) (.string t)
  | char {u : Text} {c : CodePoint} (h : QuotedBody (CodePoint.ofChar '\'') u [c]) :
      Written (CodePoint.ofChar '\'' :: (u ++ [CodePoint.ofChar '\''])) (.char [c])

/-- What follows the text of a lexeme does not continue it. A number without a fraction would go on
with a point and a digit. -/
def Apart (l : Lexeme) (u rest : Text) : Prop :=
  match l with
  | .number _ => (∀ c ∈ rest.head?, c.isDigit = false) ∧ (CodePoint.ofChar '.' ∉ u →
      ∀ d r, rest = CodePoint.ofChar '.' :: d :: r → d.isDigit = false)
  | .ident _ => ∀ c ∈ rest.head?, c.isLetter = false
  | .selector _ => ∀ c ∈ rest.head?, c.isSmallLetter = false
  | .comment _ => ∀ c ∈ rest.head?, c.isLineBreak = true
  | _ => True

theorem fraction_eq_nil_iff {s : Text} :
    fraction s = [] ↔ ∀ d r, s = CodePoint.ofChar '.' :: d :: r → d.isDigit = false := by
  constructor
  · rintro h d r rfl
    refine Bool.eq_false_iff.mpr fun hd => ?_
    rw [fraction, if_pos ⟨rfl, hd⟩, List.takeWhile_cons_of_pos hd] at h
    cases h
  · intro h
    unfold fraction
    split
    · rename_i c d r
      refine if_neg fun hc => ?_
      obtain ⟨rfl, hd⟩ := hc
      rw [h d r rfl] at hd
      cases hd
    · rfl

/-- To stay apart is what a scan stops at. -/
theorem stops_iff_apart {l : Lexeme} {u rest : Text} : l.Stops u rest ↔ l.Apart u rest := by
  cases l with
  | number x => exact and_congr_right fun _ => imp_congr_right fun _ => fraction_eq_nil_iff
  | comment t =>
      refine forall_congr' fun c => imp_congr_right fun _ => ?_
      simp [absorbs]
  | ident n => exact Iff.rfl
  | selector n => exact Iff.rfl
  | _ => exact ⟨fun _ => trivial, fun _ _ _ => rfl⟩

/-! ## What is written is scanned -/

variable {s u v rest : Text} {l : Lexeme}

theorem scan_mark {c : CodePoint} (h : (c, l) ∈ marks) (rest : Text) :
    scan (c :: rest) = .found 1 l := by
  simp only [marks, List.mem_cons, Prod.mk.injEq, List.not_mem_nil, or_false] at h
  rcases h with ⟨rfl, rfl⟩ | ⟨rfl, rfl⟩ | ⟨rfl, rfl⟩ | ⟨rfl, rfl⟩ | ⟨rfl, rfl⟩ | ⟨rfl, rfl⟩ |
    ⟨rfl, rfl⟩ <;> rfl

theorem scan_number_of {x : Binary64} (hu : NumberText u x) {c : CodePoint}
    (hc : Text.first u = c) (hdigit : c.isDigit = true) (hne : u ≠ [])
    (h : Apart (.number x) u rest) : scan (u ++ rest) = .found u.length (.number x) := by
  have hfirst : Text.first (u ++ rest) = c := by
    obtain ⟨d, u, rfl⟩ := List.exists_cons_of_ne_nil hne
    exact hc
  rw [scan, hfirst, Opening.of_isDigit hdigit]
  exact scanNumber_numberText hu (stops_iff_apart (l := .number x).mpr h)

theorem Written.scan_append (h : Written u l) (hrest : l.Apart u rest) :
    scan (u ++ rest) = .found u.length l := by
  cases h with
  | glyph hp =>
      rw [List.singleton_append, scan, first_cons, Opening.of_glyph hp]
      rfl
  | mark hmark => exact scan_mark hmark rest
  | newline hu => rcases hu with rfl | rfl <;> rfl
  | comment ht =>
      rename_i t
      have hrun : (t ++ rest).takeWhile (!·.isLineBreak) = t :=
        Text.takeWhile_run (fun c hc => congrArg (!·) (ht c hc))
          fun c hc => congrArg (!·) (hrest c hc)
      rw [List.cons_append, scan, first_cons,
        show Opening.of (CodePoint.ofChar '#') = .comment from rfl]
      simp only [afterOne, List.tail_cons, scanComment, hrun, List.length_cons,
        Nat.add_comm t.length]
      rfl
  | whole hne hds hx =>
      obtain ⟨c, u, rfl⟩ := List.exists_cons_of_ne_nil hne
      exact scan_number_of (.whole hne hds (Binary64.ofDecimal?_eq_some_iff.mpr hx)) rfl
        (hds c List.mem_cons_self) hne hrest
  | fraction hne hds hne' hes hx =>
      rename_i ds es x
      obtain ⟨c, ds, rfl⟩ := List.exists_cons_of_ne_nil hne
      exact scan_number_of (.fraction hds hne' hes (Binary64.ofDecimal?_eq_some_iff.mpr hx)) rfl
        (hds c List.mem_cons_self) (List.cons_ne_nil _ _) hrest
  | ident hne hn => exact scan_ident ⟨hne, hn⟩ hrest
  | selector hne hn => exact scan_selector hne hn hrest
  | string hbody =>
      rename_i u t
      have hq : IsQuote (CodePoint.ofChar '"') := .inl rfl
      rw [List.cons_append, List.append_assoc, scan, first_cons,
        show Opening.of (CodePoint.ofChar '"') = .string from rfl]
      simp only [afterOne, List.tail_cons, scanString, List.singleton_append,
        scanQuoted_closed hq hbody, List.length_cons, List.length_append, List.length_nil,
        Nat.add_comm _ 1]
      rfl
  | char hbody =>
      rename_i u c
      have hq : IsQuote (CodePoint.ofChar '\'') := .inr rfl
      rw [List.cons_append, List.append_assoc, scan, first_cons,
        show Opening.of (CodePoint.ofChar '\'') = .char from rfl]
      simp only [afterOne, List.tail_cons, scanChar, List.singleton_append,
        scanQuoted_closed hq hbody, List.length_cons, List.length_append, List.length_nil,
        Nat.add_comm _ 1]
      rfl

/-- At the end of the text nothing continues a lexeme. -/
theorem apart_nil (l : Lexeme) (u : Text) : l.Apart u [] := by
  cases l with
  | number x => exact ⟨nofun, fun _ _ _ h => nomatch h⟩
  | ident n | selector n | comment t => exact fun _ h => nomatch h
  | _ => trivial

theorem Written.scan (h : Written u l) : scan u = .found u.length l := by
  have := h.scan_append (l.apart_nil u)
  rwa [List.append_nil] at this

/-- A lexeme is written with some text, which begins with neither a blank nor a point. -/
theorem Written.first (h : Written u l) :
    u ≠ [] ∧ Scanner.isSpace (Text.first u) = false ∧ Text.first u ≠ '.' := by
  have hscan := h.scan
  refine ⟨?_, isSpace_first_of_scan hscan, fun hpoint => ?_⟩
  · rintro rfl
    cases congrArg Scan.result hscan
  · obtain ⟨r, rfl⟩ := Text.eq_of_first_eq hpoint (by decide)
    cases congrArg Scan.result hscan

/-! ## What is scanned is written -/

theorem mem_marks {c : CodePoint} (h : ofPunctuation? c = some l) : (c, l) ∈ marks := by
  unfold ofPunctuation? at h
  repeat' split at h
  all_goals first
    | (cases h; done)
    | (cases h; subst_vars; decide)

/-- The lexeme is written with what the scan of the text took. -/
def WrittenWith (l : Lexeme) (s : Text) (r : Scan Lexeme) : Prop :=
  ∃ u v, s = u ++ v ∧ Written u l ∧ r.taken = u.length

section

variable {c : CodePoint}

theorem writtenWith_comment (hc : c = '#') (h : (afterOne scanComment (c :: s)).result = .ok l) :
    l.WrittenWith (c :: s) (afterOne scanComment (c :: s)) := by
  obtain rfl := Except.ok.inj h
  refine ⟨CodePoint.ofChar '#' :: s.takeWhile (!·.isLineBreak), s.dropWhile (!·.isLineBreak),
    ?_, .comment fun d hd => ?_, Nat.add_comm 1 _⟩
  · rw [List.cons_append, List.takeWhile_append_dropWhile, hc]
  · simpa using Text.mem_takeWhile hd

theorem writtenWith_newline (hc : c.isLineBreak = true)
    (h : (scanNewline (c :: s)).result = .ok l) :
    l.WrittenWith (c :: s) (scanNewline (c :: s)) := by
  rw [scanNewline_cons] at h ⊢
  by_cases hreturn : c = '\r'
  · subst hreturn
    rw [if_pos rfl] at h ⊢
    by_cases hs : Text.first s = '\n'
    · rw [if_pos hs] at h ⊢
      obtain ⟨r, rfl⟩ := Text.eq_of_first_eq hs (by decide)
      obtain rfl := Except.ok.inj h
      exact ⟨Text.ofString "\r\n", r, rfl, .newline (.inr rfl), rfl⟩
    · rw [if_neg hs] at h
      cases h
  · rw [if_neg hreturn] at h ⊢
    obtain rfl := Except.ok.inj h
    have hfeed : c = '\n' := by
      rw [CodePoint.isLineBreak, Bool.or_eq_true] at hc
      simpa [hreturn] using hc
    exact ⟨[c], s, rfl, .newline (.inl (hfeed ▸ rfl)), rfl⟩

theorem writtenWith_string (hc : c = '"') (h : (afterOne scanString (c :: s)).result = .ok l) :
    l.WrittenWith (c :: s) (afterOne scanString (c :: s)) := by
  have hq : IsQuote c := .inl hc
  obtain ⟨t, ht, rfl⟩ := Scan.result_after_map h
  obtain ⟨u, v, hs, hbody⟩ := body_of_scanQuoted (hc ▸ hq) ht
  obtain rfl : s = u ++ CodePoint.ofChar '"' :: v := hs
  subst hc
  refine ⟨_, v, by simp, .string hbody, ?_⟩
  rw [afterOne_cons, scanString, scanQuoted_closed hq hbody]
  simp [Scan.after, Scan.map, Scan.found, Nat.add_comm 1]

theorem writtenWith_char (hc : c = '\'') (h : (afterOne scanChar (c :: s)).result = .ok l) :
    l.WrittenWith (c :: s) (afterOne scanChar (c :: s)) := by
  have hq : IsQuote c := .inr hc
  obtain ⟨t, hlen, rfl, ht, htaken⟩ := scanChar_eq_ok (s := s) h
  obtain ⟨d, rfl⟩ := List.length_eq_one_iff.mp hlen
  obtain ⟨u, v, rfl, hbody⟩ := body_of_scanQuoted (hc ▸ hq) ht
  subst hc
  rw [scanQuoted_closed hq hbody] at htaken
  refine ⟨_, v, by simp, .char hbody, ?_⟩
  rw [afterOne_cons, Scan.after, htaken]
  simp [Scan.found, Nat.add_comm 1]

theorem writtenWith_number (hc : c.isDigit = true)
    (h : (scanNumber (c :: s)).result = .ok l) :
    l.WrittenWith (c :: s) (scanNumber (c :: s)) := by
  obtain ⟨u, v, x, hs, rfl, hu, hends⟩ := scanNumber_split h
  refine ⟨u, v, hs, ?_, by rw [hs, scanNumber_numberText hu hends]; rfl⟩
  cases hu with
  | whole hne hds hx => exact .whole hne hds (Binary64.ofDecimal?_eq_some_iff.mp hx)
  | fraction hds hne hes hx =>
      refine .fraction ?_ hds hne hes (Binary64.ofDecimal?_eq_some_iff.mp hx)
      -- a number does not begin with its point
      rintro rfl
      obtain rfl := (List.cons.inj hs).1
      cases hc

theorem writtenWith_selector (hc : c = ':')
    (h : (afterOne scanSelector (c :: s)).result = .ok l) :
    l.WrittenWith (c :: s) (afterOne scanSelector (c :: s)) := by
  obtain ⟨rfl, hne, htaken⟩ := scanSelector_eq_ok (s := s) h
  refine ⟨CodePoint.ofChar ':' :: s.takeWhile CodePoint.isSmallLetter,
    s.dropWhile CodePoint.isSmallLetter, ?_, .selector hne fun d hd => Text.mem_takeWhile hd, ?_⟩
  · rw [List.cons_append, List.takeWhile_append_dropWhile, hc]
  · rw [afterOne_cons, Scan.after, htaken, List.length_cons, Nat.add_comm 1]

theorem writtenWith_ident (hc : c.isLetter = true)
    (h : (scanIdent (c :: s)).result = .ok l) :
    l.WrittenWith (c :: s) (scanIdent (c :: s)) := by
  obtain rfl := Except.ok.inj h
  refine ⟨(c :: s).takeWhile CodePoint.isLetter, (c :: s).dropWhile CodePoint.isLetter,
    List.takeWhile_append_dropWhile.symm, .ident ?_ fun d hd => Text.mem_takeWhile hd, rfl⟩
  rw [List.takeWhile_cons_of_pos hc]
  exact nofun

end

theorem writtenWith_of_scan (h : (Lexeme.scan s).result = .ok l) :
    l.WrittenWith s (Lexeme.scan s) := by
  cases s with
  | nil => cases h
  | cons c s =>
      have hspec := Opening.spec c
      rw [Lexeme.scan, first_cons] at h ⊢
      cases ho : Opening.of c with
      | comment => rw [ho] at h hspec; exact writtenWith_comment hspec h
      | newline => rw [ho] at h hspec; exact writtenWith_newline hspec h
      | string => rw [ho] at h hspec; exact writtenWith_string hspec h
      | char => rw [ho] at h hspec; exact writtenWith_char hspec h
      | number => rw [ho] at h hspec; exact writtenWith_number hspec h
      | selector => rw [ho] at h hspec; exact writtenWith_selector hspec h
      | letter => rw [ho] at h hspec; exact writtenWith_ident hspec h
      | glyph p =>
          rw [ho] at h hspec
          obtain rfl := Except.ok.inj h
          exact ⟨[c], s, rfl, .glyph (Primitive.glyph?_of_ofGlyph? hspec), rfl⟩
      | punctuation m =>
          rw [ho] at h hspec
          obtain rfl := Except.ok.inj h
          exact ⟨[c], s, rfl, .mark (mem_marks hspec), rfl⟩
      | nothing => rw [ho] at h; cases h

/-- A lexeme that is found is written with what is taken, in front of what does not continue it. -/
theorem exists_written {n : Nat} (h : Lexeme.scan s = .found n l) :
    ∃ u v, s = u ++ v ∧ n = u.length ∧ Written u l ∧ l.Apart u v := by
  have hfound : (Lexeme.scan s).result = .ok l := by rw [h]; rfl
  obtain ⟨u, v, hs, hu, htaken⟩ := writtenWith_of_scan hfound
  obtain ⟨u', v', hsplit⟩ := scan_split hfound
  have hlen : u.length = u'.length := htaken.symm.trans hsplit.taken
  obtain ⟨rfl, rfl⟩ := List.append_inj (hs.symm.trans hsplit.eq) hlen
  rw [h] at htaken
  exact ⟨u, v, hs, htaken, hu, stops_iff_apart.mp hsplit.stops⟩

end Lexeme

end GlyphFormat
