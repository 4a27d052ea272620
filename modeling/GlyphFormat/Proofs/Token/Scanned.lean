import GlyphFormat.Proofs.Token.Canonical

/-!
# What a scan finds

A scan that finds a lexeme has split its text in two (`scan_split`): the part it took is found again
in front of whatever does not continue it, and the rest does not continue it. This is the rule of
the longest match. What a lexeme stops at is told by one code point (`Stops.of_head`), and a line
break stops every lexeme. Only valid lexemes are found (`valid_of_scan`).
-/

namespace GlyphFormat

namespace Text

variable {p : CodePoint → Bool} {s : Text} {c : CodePoint}

theorem mem_takeWhile (h : c ∈ s.takeWhile p) : p c = true := by
  induction s with
  | nil => cases h
  | cons d s ih =>
      rw [List.takeWhile_cons] at h
      split at h
      · rcases List.mem_cons.mp h with rfl | h
        · assumption
        · exact ih h
      · cases h

theorem head?_dropWhile (h : c ∈ (s.dropWhile p).head?) : p c = false := by
  induction s with
  | nil => cases h
  | cons d s ih =>
      rw [List.dropWhile_cons] at h
      split at h
      · exact ih h
      · obtain rfl : d = c := by simpa using h
        simpa using ‹¬p d = true›

theorem drop_takeWhile (p : CodePoint → Bool) (s : Text) :
    s.drop (s.takeWhile p).length = s.dropWhile p := by
  conv => lhs; arg 2; rw [← List.takeWhile_append_dropWhile (p := p) (l := s)]
  exact List.drop_left

theorem eq_of_first_eq {a : Char} (h : first s = a) (ha : a ≠ '\x00') :
    ∃ r : Text, s = CodePoint.ofChar a :: r := by
  cases s with
  | nil =>
      refine absurd (CodePoint.eq_ofChar_iff.mp h) fun hv => ha ?_
      exact Char.toNat_inj.mp hv.symm
  | cons c r => exact ⟨r, by rw [← h]; rfl⟩

end Text

/-! ## Quoted literals -/

namespace Escape

/-- An escape is found where its text stands, whatever follows. -/
def Spells (u : Text) (c : CodePoint) : Prop := ∀ t, scan (u ++ t) = .found u.length c

theorem scanNumber_split {s : Text} {c : CodePoint} (h : (scanNumber s).result = .ok c) :
    ∃ u v, s = u ++ v ∧ ∀ t, scanNumber (u ++ t) = .found u.length c := by
  have hsplit := List.takeWhile_append_dropWhile (p := isInside) (l := s)
  unfold scanNumber at h
  simp only [Text.drop_takeWhile] at h
  split at h
  · rename_i hclose
    obtain ⟨v, hv⟩ := Text.eq_of_first_eq hclose (by decide)
    cases hc : HexNumeral.codePoint? (s.takeWhile isInside) with
    | none => rw [hc] at h; cases h
    | some d =>
        rw [hc] at h
        obtain rfl : d = c := Except.ok.inj h
        refine ⟨s.takeWhile isInside ++ [CodePoint.ofChar '\x7d'], v, ?_, fun t => ?_⟩
        · rw [List.append_assoc, List.singleton_append, ← hv, hsplit]
        · have hrun : (s.takeWhile isInside ++ CodePoint.ofChar '\x7d' :: t).takeWhile isInside =
              s.takeWhile isInside := by
            refine Text.takeWhile_run (fun e he => Text.mem_takeWhile he) fun e he => ?_
            obtain rfl : CodePoint.ofChar '\x7d' = e := by simpa using he
            decide
          rw [List.append_assoc, List.singleton_append, scanNumber]
          simp only [hrun, List.drop_left, hc, List.length_append, List.length_singleton]
          exact if_pos rfl
  · cases h

theorem scan_split {s : Text} {c : CodePoint} (h : (scan s).result = .ok c) :
    ∃ u v, s = u ++ v ∧ Spells u c := by
  cases s with
  | nil => cases h
  | cons d s =>
      cases hm : meaning? d with
      | some e =>
          simp only [scan, hm] at h
          obtain rfl : e = c := Except.ok.inj h
          exact ⟨[d], s, rfl, fun t => by simp only [List.singleton_append, scan, hm]; rfl⟩
      | none =>
          simp only [scan, hm] at h
          split at h
          · rename_i hu
            obtain ⟨r, rfl⟩ := Text.eq_of_first_eq hu.2 (by decide)
            cases hn : (scanNumber r).result with
            | error f => simp only [List.tail_cons, hn] at h; cases h
            | ok e =>
                simp only [List.tail_cons, hn] at h
                obtain rfl : e = c := Except.ok.inj h
                obtain ⟨u, v, rfl, hspell⟩ := scanNumber_split hn
                refine ⟨d :: CodePoint.ofChar '\x7b' :: u, v, rfl, fun t => ?_⟩
                have hcond : d = 'u' ∧ Text.first (CodePoint.ofChar '\x7b' :: (u ++ t)) = '\x7b' :=
                  ⟨hu.1, rfl⟩
                simp only [List.cons_append, scan, hm, if_pos hcond, List.tail_cons, hspell]
                simp only [Scan.found, List.length_cons, Nat.add_comm 2]
          · cases h

end Escape

theorem Scan.result_after_map {α β : Type} {g : α → β} {r : Scan α} {n : Nat} {b : β}
    (h : ((r.map g).after n).result = .ok b) : ∃ a, r.result = .ok a ∧ g a = b := by
  obtain ⟨k, f | a⟩ := r
  · obtain ⟨f, anchor⟩ := f
    cases anchor <;> cases h
  · exact ⟨a, rfl, Except.ok.inj h⟩

theorem scanQuoted_split {quote : Option CodePoint} {what s content : Text}
    (h : (scanQuoted quote what s).result = .ok content) :
    ∃ u v, s = u ++ v ∧ ∀ t, scanQuoted quote what (u ++ t) = .found u.length content := by
  fun_induction scanQuoted quote what s generalizing content with
  | case1 => cases h
  | case2 => cases h
  | case3 c s hb hq =>
      obtain rfl : [] = content := Except.ok.inj h
      refine ⟨[c], s, rfl, fun t => ?_⟩
      rw [List.singleton_append, scanQuoted, if_neg hb, if_pos hq]
      rfl
  | case4 s r f hf hb =>
      obtain ⟨f, anchor⟩ := f
      cases anchor <;> cases h
  | case5 s r d hr hb hq =>
      rename_i ih
      obtain ⟨more, hmore, rfl⟩ := Scan.result_after_map h
      obtain ⟨u, v, rfl, hspell⟩ := Escape.scan_split hr
      have htaken : r.taken = u.length := congrArg Scan.taken (hspell v)
      rw [htaken, List.drop_left] at hmore ih
      obtain ⟨u', v', rfl, hspell'⟩ := ih hmore
      refine ⟨CodePoint.ofChar '\\' :: (u ++ u'), v', by simp, fun t => ?_⟩
      rw [List.cons_append, List.append_assoc, scanQuoted_escape hq (hspell _), List.drop_left,
        hspell']
      simp only [Scan.map, Scan.after, Scan.found, Except.map, List.length_cons,
        List.length_append, Scan.mk.injEq, and_true]
      omega
  | case6 c s hb hq he ih =>
      obtain ⟨more, hmore, rfl⟩ := Scan.result_after_map h
      obtain ⟨u, v, rfl, hspell⟩ := ih hmore
      refine ⟨c :: u, v, rfl, fun t => ?_⟩
      rw [List.cons_append, scanQuoted_plain hb hq he, hspell]
      simp only [Scan.map, Scan.after, Scan.found, Except.map, List.length_cons, Scan.mk.injEq,
        and_true]
      omega

namespace Lexeme

/-! ## Numbers -/

/-- A fraction ends where its digits end. -/
theorem fraction_split {s : Text} (h : fraction s ≠ []) :
    ∃ v, s = CodePoint.ofChar '.' :: fraction s ++ v ∧
      (∀ c ∈ fraction s, c.isDigit = true) ∧ EndsDigits v := by
  unfold fraction at h ⊢
  split
  · rename_i c d r
    simp only at h ⊢
    by_cases hc : c = '.' ∧ d.isDigit = true
    · simp only [if_pos hc]
      refine ⟨(d :: r).dropWhile CodePoint.isDigit, ?_, fun e he => Text.mem_takeWhile he,
        fun e he => Text.head?_dropWhile he⟩
      rw [List.cons_append, List.takeWhile_append_dropWhile, hc.1]
    · simp only [if_neg hc] at h
      exact absurd rfl h
  · simp at h

/-- What a scanned number is made of. -/
inductive NumberText : Text → Binary64 → Prop
  | whole {ds : Text} {x : Binary64} (hne : ds ≠ []) (hds : ∀ c ∈ ds, c.isDigit = true)
      (hx : Binary64.ofDecimal? (digitsValue ds) 0 = some x) : NumberText ds x
  | fraction {ds es : Text} {x : Binary64} (hds : ∀ c ∈ ds, c.isDigit = true) (hne : es ≠ [])
      (hes : ∀ c ∈ es, c.isDigit = true)
      (hx : Binary64.ofDecimal? (digitsValue (ds ++ es)) es.length = some x) :
      NumberText (ds ++ CodePoint.ofChar '.' :: es) x

/-- What follows a number does not continue it: no digit, nor, without a fraction, a point and a
digit. -/
def EndsNumberText (u rest : Text) : Prop :=
  EndsDigits rest ∧ (CodePoint.ofChar '.' ∉ u → fraction rest = [])

theorem scanNumber_numberText {u rest : Text} {x : Binary64} (hu : NumberText u x)
    (h : EndsNumberText u rest) : scanNumber (u ++ rest) = .found u.length (.number x) := by
  cases hu with
  | whole hne hds hx =>
      refine scanNumber_whole hne hds h.1 (h.2 fun hp => ?_) hx
      exact absurd (hds _ hp) (by decide)
  | fraction hds hne hes hx => exact scanNumber_fraction hds hne hes h.1 hx

theorem scanNumber_split {s : Text} {l : Lexeme} (h : (scanNumber s).result = .ok l) :
    ∃ u v x, s = u ++ v ∧ l = .number x ∧ NumberText u x ∧ EndsNumberText u v := by
  have hsplit := List.takeWhile_append_dropWhile (p := CodePoint.isDigit) (l := s)
  have hds : ∀ c ∈ s.takeWhile CodePoint.isDigit, c.isDigit = true :=
    fun c hc => Text.mem_takeWhile hc
  have hends : EndsDigits (s.dropWhile CodePoint.isDigit) := fun c hc => Text.head?_dropWhile hc
  unfold scanNumber at h
  simp only [Text.drop_takeWhile] at h
  by_cases hfrac : fraction (s.dropWhile CodePoint.isDigit) = []
  · simp only [hfrac, if_true, List.append_nil, List.length_nil] at h
    split at h
    · cases h
    · rename_i hne
      split at h
      · rename_i x hx
        refine ⟨_, _, x, hsplit.symm, (Except.ok.inj h).symm, .whole (fun h0 => ?_) hds hx,
          hends, fun _ => hfrac⟩
        exact hne (by rw [h0]; rfl)
      · cases h
  · obtain ⟨v, hv, hes, hend⟩ := fraction_split hfrac
    simp only [if_neg hfrac] at h
    split at h
    · cases h
    · split at h
      · rename_i x hx
        refine ⟨_, v, x, ?_, (Except.ok.inj h).symm, .fraction hds hfrac hes hx, hend,
          fun hp => absurd (by simp) hp⟩
        rw [List.append_assoc, ← hv, hsplit]
      · cases h

theorem isLiteral_of_ofDecimal? {d k : Nat} {x : Binary64}
    (h : Binary64.ofDecimal? d k = some x) : x.IsLiteral := by
  unfold Binary64.ofDecimal? at h
  extract_lets m at h
  split at h
  · rename_i hm
    obtain rfl := Option.some.inj h
    exact ⟨decide_eq_true hm, rfl⟩
  · cases h

theorem NumberText.isLiteral {u : Text} {x : Binary64} (h : NumberText u x) : x.IsLiteral := by
  cases h with
  | whole _ _ hx => exact isLiteral_of_ofDecimal? hx
  | fraction _ _ _ hx => exact isLiteral_of_ofDecimal? hx

/-! ## One lexeme -/

/-- What follows the text `u` of a lexeme does not continue it. -/
def Stops (l : Lexeme) (u rest : Text) : Prop :=
  match l with
  | .number _ => EndsNumberText u rest
  | l => l.Ends rest

/-- The text `u` is scanned as the lexeme wherever it is not continued. -/
def ScannedFrom (l : Lexeme) (u : Text) : Prop :=
  ∀ rest, l.Stops u rest → scan (u ++ rest) = .found u.length l

theorem Opening.spec (c : CodePoint) :
    match Opening.of c with
    | .comment => c = '#'
    | .newline => c.isLineBreak = true
    | .string => c = '"'
    | .char => c = '\''
    | .number => c.isDigit = true
    | .selector => c = ':'
    | .glyph p => Primitive.ofGlyph? c = some p
    | .letter => c.isLetter = true
    | .punctuation l => ofPunctuation? c = some l
    | .nothing => True := by
  unfold Opening.of
  by_cases h₁ : c = '#'
  · simp only [if_pos h₁]
    exact h₁
  by_cases h₂ : c.isLineBreak = true
  · simp only [if_neg h₁, if_pos h₂]
    exact h₂
  by_cases h₃ : c = '"'
  · simp only [if_neg h₁, if_neg h₂, if_pos h₃]
    exact h₃
  by_cases h₄ : c = '\''
  · simp only [if_neg h₁, if_neg h₂, if_neg h₃, if_pos h₄]
    exact h₄
  by_cases h₅ : c.isDigit = true
  · simp only [if_neg h₁, if_neg h₂, if_neg h₃, if_neg h₄, if_pos h₅]
    exact h₅
  by_cases h₆ : c = ':'
  · simp only [if_neg h₁, if_neg h₂, if_neg h₃, if_neg h₄, if_neg h₅, if_pos h₆]
    exact h₆
  simp only [if_neg h₁, if_neg h₂, if_neg h₃, if_neg h₄, if_neg h₅, if_neg h₆]
  cases hg : Primitive.ofGlyph? c with
  | some p => exact rfl
  | none =>
      by_cases h₇ : c.isLetter = true
      · simp only [if_pos h₇]
        exact h₇
      · simp only [if_neg h₇]
        cases hp : ofPunctuation? c <;> simp

theorem valid_of_ofPunctuation? {c : CodePoint} {l : Lexeme} (h : ofPunctuation? c = some l) :
    l.Valid ∧ ∀ u rest, l.Stops u rest := by
  unfold ofPunctuation? at h
  repeat' split at h
  all_goals first
    | (cases h; done)
    | (cases h; exact ⟨trivial, fun _ _ _ _ => rfl⟩)

/-- A text in two parts, of which the first is the lexeme's. -/
structure Splits (l : Lexeme) (s u v : Text) : Prop where
  eq : s = u ++ v
  nonempty : u ≠ []
  valid : l.Valid
  scanned : l.ScannedFrom u
  stops : l.Stops u v

variable {c : CodePoint} {s : Text} {l : Lexeme}

theorem afterOne_cons (f : Text → Scan Lexeme) (c : CodePoint) (s : Text) :
    afterOne f (c :: s) = (f s).after 1 := rfl

theorem splits_comment (ho : Opening.of c = .comment)
    (h : (afterOne scanComment (c :: s)).result = .ok l) : ∃ u v, l.Splits (c :: s) u v := by
  have hrun : ∀ d ∈ s.takeWhile (!·.isLineBreak), d.isLineBreak = false := fun d hd => by
    simpa using Text.mem_takeWhile hd
  obtain rfl : Lexeme.comment (if Text.first (s.takeWhile (!·.isLineBreak)) = ' '
      then (s.takeWhile (!·.isLineBreak)).tail else s.takeWhile (!·.isLineBreak)) = l :=
    Except.ok.inj h
  refine ⟨c :: s.takeWhile (!·.isLineBreak), s.dropWhile (!·.isLineBreak), ?_, by simp, ?_, ?_, ?_⟩
  · rw [List.cons_append, List.takeWhile_append_dropWhile]
  · split
    · exact fun d hd => hrun d (List.mem_of_mem_tail hd)
    · exact hrun
  · intro rest hrest
    have hstop : (s.takeWhile (!·.isLineBreak) ++ rest).takeWhile (!·.isLineBreak) =
        s.takeWhile (!·.isLineBreak) :=
      Text.takeWhile_run (fun d hd => Text.mem_takeWhile hd) hrest
    rw [List.cons_append, scan, first_cons, ho]
    simp only [afterOne, List.tail_cons, scanComment, hstop, List.length_cons, Nat.add_comm _ 1]
    rfl
  · exact fun d hd => Text.head?_dropWhile hd

theorem scanNewline_cons (c : CodePoint) (s : Text) :
    scanNewline (c :: s) = if c = '\r' then
      if Text.first s = '\n' then .found 2 .newline else .fault 0 .bareCarriageReturn
      else .found 1 .newline := rfl

theorem splits_newline (ho : Opening.of c = .newline)
    (h : (scanNewline (c :: s)).result = .ok l) : ∃ u v, l.Splits (c :: s) u v := by
  rw [scanNewline_cons] at h
  by_cases hc : c = '\r'
  · rw [if_pos hc] at h
    by_cases hs : Text.first s = '\n'
    · rw [if_pos hs] at h
      obtain ⟨v, rfl⟩ := Text.eq_of_first_eq hs (by decide)
      obtain rfl : Lexeme.newline = l := Except.ok.inj h
      refine ⟨[c, CodePoint.ofChar '\n'], v, rfl, by simp, trivial, fun rest _ => ?_,
        fun _ _ => rfl⟩
      show scan (c :: CodePoint.ofChar '\n' :: rest) = _
      rw [scan, first_cons, ho]
      exact (scanNewline_cons c _).trans ((if_pos hc).trans (if_pos rfl))
    · rw [if_neg hs] at h
      cases h
  · rw [if_neg hc] at h
    obtain rfl : Lexeme.newline = l := Except.ok.inj h
    refine ⟨[c], s, rfl, by simp, trivial, fun rest _ => ?_, fun _ _ => rfl⟩
    rw [List.singleton_append, scan, first_cons, ho]
    exact (scanNewline_cons c rest).trans (if_neg hc)

theorem splits_string (ho : Opening.of c = .string)
    (h : (afterOne scanString (c :: s)).result = .ok l) : ∃ u v, l.Splits (c :: s) u v := by
  obtain ⟨t, ht, rfl⟩ := Scan.result_after_map h
  obtain ⟨u, v, hs, hspell⟩ := scanQuoted_split ht
  rw [List.tail_cons] at hs
  refine ⟨c :: u, v, by rw [hs]; rfl, by simp, trivial, fun rest _ => ?_, fun _ _ => rfl⟩
  rw [List.cons_append, scan, first_cons, ho]
  simp only [afterOne, List.tail_cons, scanString, hspell, List.length_cons, Nat.add_comm _ 1]
  rfl

theorem scanChar_eq_ok (h : ((scanChar s).after 1).result = .ok l) :
    ∃ t, t.length = 1 ∧ l = .char t ∧
      (scanQuoted (some '\'') "character literal" s).result = .ok t ∧
      (scanChar s).taken = (scanQuoted (some '\'') "character literal" s).taken := by
  unfold scanChar at h ⊢
  cases hq : (scanQuoted (some '\'') "character literal" s).result with
  | error f =>
      obtain ⟨f, anchor⟩ := f
      simp only [hq] at h
      cases anchor <;> cases h
  | ok t =>
      simp only [hq] at h ⊢
      by_cases hlen : t.length = 1
      · rw [if_pos hlen] at h ⊢
        exact ⟨t, hlen, (Except.ok.inj h).symm, rfl, rfl⟩
      · rw [if_neg hlen] at h
        cases h

theorem scanSelector_eq_ok (h : ((scanSelector s).after 1).result = .ok l) :
    l = .selector (s.takeWhile CodePoint.isSmallLetter) ∧
      s.takeWhile CodePoint.isSmallLetter ≠ [] ∧
      (scanSelector s).taken = (s.takeWhile CodePoint.isSmallLetter).length := by
  unfold scanSelector at h ⊢
  by_cases hne : s.takeWhile CodePoint.isSmallLetter = []
  · simp only [if_pos hne] at h
    cases h
  · simp only [if_neg hne] at h ⊢
    exact ⟨(Except.ok.inj h).symm, hne, rfl⟩

theorem splits_char (ho : Opening.of c = .char)
    (h : (afterOne scanChar (c :: s)).result = .ok l) : ∃ u v, l.Splits (c :: s) u v := by
  obtain ⟨t, hlen, rfl, hq, -⟩ := scanChar_eq_ok (s := s) h
  obtain ⟨u, v, rfl, hspell⟩ := scanQuoted_split hq
  refine ⟨c :: u, v, rfl, by simp, hlen, fun rest _ => ?_, fun _ _ => rfl⟩
  rw [List.cons_append, scan, first_cons, ho]
  simp only [afterOne, List.tail_cons, scanChar, hspell, List.length_cons,
    Nat.add_comm _ 1, Scan.found, if_pos hlen]
  rfl

theorem splits_number (ho : Opening.of c = .number)
    (h : (scanNumber (c :: s)).result = .ok l) : ∃ u v, l.Splits (c :: s) u v := by
  obtain ⟨u, v, x, hs, rfl, hu, hends⟩ := scanNumber_split h
  have hne : u ≠ [] := by
    cases hu with
    | whole hne _ _ => exact hne
    | fraction _ _ _ _ => simp
  have hfirst : ∀ rest, Text.first (u ++ rest) = c := by
    cases u with
    | nil => exact absurd rfl hne
    | cons d u =>
        obtain ⟨rfl, -⟩ := List.cons.inj hs
        exact fun _ => rfl
  refine ⟨u, v, hs, hne, hu.isLiteral, fun rest hrest => ?_, hends⟩
  rw [scan, hfirst, ho]
  exact scanNumber_numberText hu hrest

theorem splits_selector (ho : Opening.of c = .selector)
    (h : (afterOne scanSelector (c :: s)).result = .ok l) : ∃ u v, l.Splits (c :: s) u v := by
  obtain ⟨rfl, hne, -⟩ := scanSelector_eq_ok (s := s) h
  refine ⟨c :: s.takeWhile CodePoint.isSmallLetter, s.dropWhile CodePoint.isSmallLetter, ?_,
    by simp, ⟨hne, fun d hd => Text.mem_takeWhile hd⟩, fun rest hrest => ?_,
    fun d hd => Text.head?_dropWhile hd⟩
  · rw [List.cons_append, List.takeWhile_append_dropWhile]
  · have hstop : (s.takeWhile CodePoint.isSmallLetter ++ rest).takeWhile
        CodePoint.isSmallLetter = s.takeWhile CodePoint.isSmallLetter :=
      Text.takeWhile_run (fun d hd => Text.mem_takeWhile hd) hrest
    rw [List.cons_append, scan, first_cons, ho]
    simp only [afterOne, List.tail_cons, scanSelector, hstop, if_neg hne, List.length_cons,
      Nat.add_comm _ 1]
    rfl

theorem splits_ident (ho : Opening.of c = .letter)
    (h : (scanIdent (c :: s)).result = .ok l) : ∃ u v, l.Splits (c :: s) u v := by
  have hc : c.isLetter = true := Opening.isLetter_of_letter ho
  have hname : (c :: s).takeWhile CodePoint.isLetter = c :: s.takeWhile CodePoint.isLetter :=
    List.takeWhile_cons_of_pos hc
  obtain rfl : Lexeme.ident ((c :: s).takeWhile CodePoint.isLetter) = l := Except.ok.inj h
  refine ⟨c :: s.takeWhile CodePoint.isLetter, s.dropWhile CodePoint.isLetter, ?_, by simp,
    ⟨by simp [hname], fun d hd => Text.mem_takeWhile hd⟩, fun rest hrest => ?_, ?_⟩
  · rw [List.cons_append, List.takeWhile_append_dropWhile]
  · have hstop : (c :: s.takeWhile CodePoint.isLetter ++ rest).takeWhile CodePoint.isLetter =
        c :: s.takeWhile CodePoint.isLetter := by
      refine Text.takeWhile_run (fun d hd => ?_) hrest
      exact Text.mem_takeWhile (by rw [hname]; exact hd)
    rw [scan, List.cons_append, first_cons, ho]
    rw [List.cons_append] at hstop
    simp only [scanIdent, hstop, hname]
  · exact fun d hd => Text.head?_dropWhile hd

/-- The kind of lexeme that an opening promises. -/
def Opening.kind? : Opening → Option Kind
  | .comment => some .comment
  | .newline => some .newline
  | .string => some .string
  | .char => some .char
  | .number => some .number
  | .selector => some .selector
  | .glyph _ => some .primitive
  | .letter => some .ident
  | .punctuation m => some m.kind
  | .nothing => none

theorem kind?_opening (h : (scan s).result = .ok l) :
    (Opening.of (Text.first s)).kind? = some l.kind := by
  cases s with
  | nil => cases h
  | cons c s =>
      rw [scan, first_cons] at h
      rw [first_cons]
      cases ho : Opening.of c with
      | comment | letter | glyph p | punctuation m =>
          rw [ho] at h
          exact Except.ok.inj h ▸ rfl
      | newline =>
          rw [ho] at h
          replace h : (scanNewline (c :: s)).result = .ok l := h
          rw [scanNewline_cons] at h
          split at h
          · split at h
            · exact Except.ok.inj h ▸ rfl
            · cases h
          · exact Except.ok.inj h ▸ rfl
      | string =>
          rw [ho] at h
          obtain ⟨t, -, rfl⟩ := Scan.result_after_map h
          rfl
      | char =>
          rw [ho] at h
          obtain ⟨t, -, rfl, -⟩ := scanChar_eq_ok h
          rfl
      | number =>
          rw [ho] at h
          obtain ⟨-, -, x, -, rfl, -⟩ := scanNumber_split h
          rfl
      | selector =>
          rw [ho] at h
          obtain ⟨rfl, -⟩ := scanSelector_eq_ok h
          rfl
      | nothing =>
          rw [ho] at h
          cases h

theorem kind_of_ofPunctuation? {m : Lexeme} (h : ofPunctuation? c = some m) :
    m.kind ≠ .newline ∧ m.kind ≠ .comment ∧ m.kind ≠ .ident := by
  unfold ofPunctuation? at h
  repeat' split at h
  all_goals cases h
  all_goals decide

/-- Line breaks, comments and names are known by their first code points. -/
theorem opening_of_scan (h : (scan s).result = .ok l) :
    (l.kind = .newline → Opening.of (Text.first s) = .newline) ∧
      (l.kind = .comment → Opening.of (Text.first s) = .comment) ∧
      (l.kind = .ident → Opening.of (Text.first s) = .letter) := by
  have hkind := kind?_opening h
  have hspec := Opening.spec (Text.first s)
  refine ⟨fun hl => ?_, fun hl => ?_, fun hl => ?_⟩ <;> rw [hl] at hkind
  all_goals
    cases ho : Opening.of (Text.first s) with
    | newline | comment | letter => first | rfl | (rw [ho] at hkind; cases hkind)
    | punctuation m =>
        rw [ho] at hkind hspec
        have hm := kind_of_ofPunctuation? hspec
        simp [Opening.kind?, hm] at hkind
    | _ => rw [ho] at hkind; cases hkind

/-- A line break begins nothing but the end of a line. -/
theorem isLineBreak_first_of_scan {n : Nat} (h : scan s = .found n l) (hl : l.kind ≠ .newline) :
    (Text.first s).isLineBreak = false := by
  refine Bool.eq_false_iff.mpr fun hc => hl ?_
  have hkind := kind?_opening (s := s) (l := l) (by rw [h]; rfl)
  rcases Bool.or_eq_true_iff.mp hc with hc | hc <;>
    · rw [of_decide_eq_true hc] at hkind
      exact (Option.some.inj hkind).symm

/-- A space begins no lexeme. -/
theorem isSpace_first_of_scan {n : Nat} (h : scan s = .found n l) :
    Scanner.isSpace (Text.first s) = false := by
  cases s with
  | nil => rfl
  | cons c s =>
      refine Bool.eq_false_iff.mpr fun hc => ?_
      rcases Bool.or_eq_true_iff.mp (show Scanner.isSpace c = true from hc) with hc | hc <;>
        · rw [of_decide_eq_true hc] at h
          cases congrArg Scan.result h

/-- The rule of the longest match: a scan that finds a lexeme splits its text. -/
theorem scan_split (h : (scan s).result = .ok l) : ∃ u v, l.Splits s u v := by
  cases s with
  | nil => cases h
  | cons c s =>
      have hspec := Opening.spec c
      rw [scan, first_cons] at h
      cases ho : Opening.of c with
      | comment => rw [ho] at h; exact splits_comment ho h
      | newline => rw [ho] at h; exact splits_newline ho h
      | string => rw [ho] at h; exact splits_string ho h
      | char => rw [ho] at h; exact splits_char ho h
      | number => rw [ho] at h; exact splits_number ho h
      | selector => rw [ho] at h; exact splits_selector ho h
      | letter => rw [ho] at h; exact splits_ident ho h
      | glyph p =>
          rw [ho] at h hspec
          obtain rfl : Lexeme.primitive p = l := Except.ok.inj h
          have hglyph := Primitive.glyph?_of_ofGlyph? hspec
          refine ⟨[c], s, rfl, by simp, by simp [Valid, hglyph], fun rest _ => ?_,
            fun _ _ => rfl⟩
          rw [List.singleton_append, scan, first_cons, ho]
          rfl
      | punctuation m =>
          rw [ho] at h hspec
          obtain rfl : m = l := Except.ok.inj h
          obtain ⟨hvalid, hstops⟩ := valid_of_ofPunctuation? hspec
          refine ⟨[c], s, rfl, by simp, hvalid, fun rest _ => ?_, hstops _ _⟩
          rw [List.singleton_append, scan, first_cons, ho]
          rfl
      | nothing => rw [ho] at h; cases h

theorem valid_of_scan (h : (scan s).result = .ok l) : l.Valid := by
  obtain ⟨u, v, hs⟩ := scan_split h
  exact hs.valid

theorem Splits.taken {u v : Text} (h : l.Splits s u v) : (scan s).taken = u.length := by
  rw [h.eq, h.scanned v h.stops]
  rfl

/-- So many code points are found to be the lexeme as the front part has. -/
theorem exists_split {n : Nat} (h : scan s = .found n l) :
    ∃ u v, l.Splits s u v ∧ n = u.length := by
  obtain ⟨u, v, hs⟩ := scan_split (s := s) (l := l) (by rw [h]; rfl)
  have htaken := hs.taken
  rw [h] at htaken
  exact ⟨u, v, hs, htaken⟩

theorem le_length_of_scan {n : Nat} (h : scan s = .found n l) : n ≤ s.length := by
  obtain ⟨u, v, hs, rfl⟩ := exists_split h
  rw [hs.eq, List.length_append]
  exact Nat.le_add_right _ _

theorem fraction_of_ne_point {s : Text} (h : ∀ c ∈ s.head?, c ≠ '.') : fraction s = [] := by
  unfold fraction
  split
  · exact if_neg fun hc => h _ rfl hc.1
  · rfl

/-- Layout continues no lexeme, except that a comment takes spaces and tabs. -/
theorem absorbs_layout (hc : Scanner.isSpace c = true ∨ c.isLineBreak = true)
    (hl : l.kind = .comment → c.isLineBreak = true) : l.absorbs c = false := by
  have hall : ∀ c ∈ ([' ', '\t', '\n', '\r'] : Text),
      (c.isDigit || c = '.') = false ∧ c.isLetter = false ∧ c.isSmallLetter = false := by
    decide +kernel
  have hmem : c ∈ ([' ', '\t', '\n', '\r'] : Text) := by
    rcases hc with hc | hc <;> rcases Bool.or_eq_true_iff.mp hc with hc | hc <;>
      simp [of_decide_eq_true hc]
  obtain ⟨hnumber, hletter, hsmall⟩ := hall c hmem
  cases l with
  | number _ => exact hnumber
  | ident _ => exact hletter
  | selector _ => exact hsmall
  | comment _ => exact congrArg (!·) (hl rfl)
  | _ => rfl

theorem absorbs_lineBreak (l : Lexeme) (hc : c.isLineBreak = true) : l.absorbs c = false :=
  absorbs_layout (Or.inr hc) fun _ => hc

/-- Spaces and tabs continue comments only. -/
theorem absorbs_space (hl : l.kind ≠ .comment) (hc : Scanner.isSpace c = true) :
    l.absorbs c = false :=
  absorbs_layout (Or.inl hc) fun h => absurd h hl

/-- What a lexeme stops in front of may begin with another code point that it does not absorb. -/
theorem Stops.of_head {u v t : Text} (h : l.Stops u v) (hpoint : ∀ c ∈ t.head?, c ≠ '.')
    (ht : t.head? = v.head? ∨ ∀ c ∈ t.head?, l.absorbs c = false) : l.Stops u t := by
  have hends : l.Ends v → l.Ends t := fun hv => ht.elim (fun ht c hc => hv c (ht ▸ hc)) id
  cases l with
  | number x =>
      refine ⟨fun c hc => ?_, fun _ => fraction_of_ne_point hpoint⟩
      rcases ht with ht | ht
      · exact h.1 c (ht ▸ hc)
      · exact (Bool.or_eq_false_iff.mp (ht c hc)).1
  | _ => exact hends h

end Lexeme

end GlyphFormat
