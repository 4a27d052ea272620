import GlyphFormat.Proofs.Token.Lexes

/-!
# Tokens further down

What the scanner finds depends on the text that is left, and where it finds it on the place alone.
So a text that stands some lines further down has the same tokens there (`Scanner.tokens_down`), and
the tokens and the fault of two texts with a line break between them are known from those of each
(`tokenize_append_line`). Apart from the end of a line, no token holds a line feed, so a text that
is scanned without a fault can be cut at one (`Lexes.cut_line`).
-/

namespace GlyphFormat

open Scanner (isSpace)

/-! ## Places further down -/

/-- The place that many lines further down. -/
def Position.down (n : Nat) (p : Position) : Position := ⟨p.line + n, p.column⟩

def Span.down (n : Nat) (s : Span) : Span := ⟨s.path, s.start.down n, s.stop.down n⟩

def Token.down (n : Nat) (t : Token) : Token := ⟨t.lexeme, t.start.down n, t.stop.down n⟩

def LexError.down (n : Nat) (e : LexError) : LexError := ⟨e.fault, e.position.down n⟩

@[simp] theorem Token.lexeme_down (n : Nat) (t : Token) : (t.down n).lexeme = t.lexeme := rfl

theorem Token.span_down (path : Option Path) (n : Nat) (t : Token) :
    (t.down n).span path = (t.span path).down n := rfl

/-! ## The scanner further down -/

namespace Scanner

variable {s t : Scanner} {k n : Nat} {l : Lexeme}

/-- The scanner stands in front of the same text, that many lines further down. -/
structure Below (n : Nat) (s t : Scanner) : Prop where
  rest : t.rest = s.rest
  position : t.position = s.position.down n

theorem Below.spaces (h : Below n s t) : t.spaces = s.spaces := by
  rw [Scanner.spaces, h.rest, Scanner.spaces]

theorem Below.advance (h : Below n s t) (k : Nat) : Below n (s.advance k) (t.advance k) where
  rest := by rw [Scanner.advance, h.rest]; rfl
  position := by rw [Scanner.advance, h.position]; rfl

theorem Below.tokenHere (h : Below n s t) (k : Nat) (l : Lexeme) :
    t.tokenHere k l = (s.tokenHere k l).down n := by
  rw [Scanner.tokenHere, h.position]
  rfl

theorem Below.behind (h : Below n s t) (k : Nat) (l : Lexeme) :
    Below n (s.behind k l) (t.behind k l) where
  rest := by rw [rest_behind, rest_behind, h.rest]
  position := by
    rw [position_behind, position_behind, h.position]
    split
    · exact congrArg (Position.mk · 1) (Nat.add_right_comm _ _ _)
    · rfl

/-- Further down the scanner finds the same, further down. By induction from token to token. -/
theorem tokens_down (h : Below n s t) :
    t.tokens.1 = s.tokens.1.map (Token.down n) ∧
      t.tokens.2.1 = s.tokens.2.1.map (LexError.down n) := by
  induction s using token_induction generalizing t with
  | ended s hnil =>
      rw [tokens_of_end hnil, tokens_of_end (h.rest.trans hnil)]
      refine ⟨?_, rfl⟩
      show [(⟨.endOfInput, t.position, t.position⟩ : Token)] = _
      rw [h.position]
      rfl
  | space s hne hs ih =>
      rw [← h.rest] at hne
      rw [tokens_of_space (h.rest ▸ hne) hs, tokens_of_space hne (by rwa [h.spaces]), h.spaces]
      exact ih (h.advance _)
  | found s k l hne hs hscan ih =>
      obtain ⟨htokens, hfault⟩ := ih (h.behind k l)
      rw [tokens_of_found hne hs hscan, tokens_of_found (h.rest ▸ hne) (h.spaces.trans hs)
        ((congrArg Lexeme.scan h.rest).trans hscan)]
      refine ⟨?_, hfault⟩
      rw [htokens, h.tokenHere, List.map_cons]
  | failed s k f anchor hne hs hscan =>
      rw [tokens_of_failed hne hs hscan, tokens_of_failed (h.rest ▸ hne) (h.spaces.trans hs)
        ((congrArg Lexeme.scan h.rest).trans hscan)]
      refine ⟨rfl, congrArg (fun p => some (LexError.mk f p)) ?_⟩
      cases anchor <;>
        · rw [locate, markHere, h.position]
          rfl

/-- The text ends where the other scanner's has a line break and goes on. -/
structure LineOf (b : Text) (s t : Scanner) : Prop where
  rest : t.rest = s.rest ++ CodePoint.ofChar '\n' :: b
  position : t.position = s.position

variable {b : Text}

theorem LineOf.spaces (h : LineOf b s t) : t.spaces = s.spaces := by
  have hrun : ∀ r : Text, (r ++ CodePoint.ofChar '\n' :: b).takeWhile isSpace =
      r.takeWhile isSpace := by
    intro r
    induction r with
    | nil => exact List.takeWhile_cons_of_neg (by decide)
    | cons c r ih =>
        rw [List.cons_append, List.takeWhile_cons, List.takeWhile_cons, ih]
  rw [Scanner.spaces, h.rest, hrun, Scanner.spaces]

theorem LineOf.advance (h : LineOf b s t) (hk : k ≤ s.rest.length) :
    LineOf b (s.advance k) (t.advance k) where
  rest := by
    show t.rest.drop k = s.rest.drop k ++ _
    rw [h.rest, List.drop_append_of_le_length hk]
  position := by rw [Scanner.advance, h.position]; rfl

theorem LineOf.behind (h : LineOf b s t) (hk : k ≤ s.rest.length) (l : Lexeme) :
    LineOf b (s.behind k l) (t.behind k l) where
  rest := by rw [rest_behind, rest_behind, h.rest, List.drop_append_of_le_length hk]
  position := by rw [position_behind, position_behind, h.position]

/-- The tokens of a text up to a line break are those that the text has by itself, and behind the
line break come the tokens of the rest and its fault, if it has one. By induction from token to
token. -/
theorem tokens_line {ls : List Lexeme} (hls : Lexes s.rest ls) (h : LineOf b s t) :
    ∃ ts q, s.tokens.1 = ts ++ [⟨.endOfInput, q, q⟩] ∧
      q.line = s.position.line + ls.count .newline ∧
      t.tokens.1 = ts ++ ⟨.newline, q, ⟨q.line, q.column + 1⟩⟩ ::
        (tokenize b).1.map (Token.down q.line) ∧
      t.tokens.2.1 = (tokenize b).2.map (LexError.down q.line) := by
  have hne' : t.rest ≠ [] := by rw [h.rest]; simp
  induction s using token_induction generalizing t ls with
  | ended s hnil =>
      rw [hnil] at hls
      have hspaces : t.spaces = 0 := by rw [h.spaces, Scanner.spaces, hnil]; rfl
      have hscan : Lexeme.scan t.rest = .found 1 .newline := by rw [h.rest, hnil]; rfl
      have hbelow : Below s.position.line (ofText b) (t.behind 1 .newline) := by
        refine ⟨by rw [rest_behind, h.rest, hnil]; rfl, ?_⟩
        rw [position_behind, if_pos rfl, h.position]
        exact congrArg (Position.mk · 1) (Nat.add_comm _ 1)
      obtain rfl : ls = [] := hls.lexemes.symm.trans Lexes.done.lexemes
      obtain ⟨htokens, hfault⟩ := tokens_down hbelow
      rw [tokens_of_end hnil, tokens_of_found hne' hspaces hscan, htokens, hfault, tokenHere,
        h.position]
      exact ⟨[], s.position, rfl, rfl, rfl, rfl⟩
  | space s hne hs ih =>
      have hle : s.spaces ≤ s.rest.length := (List.takeWhile_sublist _).length_le
      have hadvance := h.advance hle
      have hrest : Lexes (s.advance s.spaces).rest ls := by
        rw [Lexes.rest_spaces]
        exact hls.dropSpaces
      rw [tokens_of_space hne hs, tokens_of_space hne' (by rwa [h.spaces]), h.spaces]
      exact ih hrest hadvance (by rw [hadvance.rest]; simp)
  | found s k l hne hs hscan ih =>
      have hfirst := first_of_spaces_eq_zero hs
      obtain ⟨ms, rfl, hms⟩ := hls.of_found hne hfirst hscan
      obtain ⟨hscan', -, -⟩ := hms.scan_append hscan (t := CodePoint.ofChar '\n' :: b)
        (by rintro c ⟨⟩; decide) (by rintro - c ⟨⟩; exact l.absorbs_lineBreak rfl)
      rw [← h.rest] at hscan'
      have hbehind := h.behind (Lexeme.le_length_of_scan hscan) l
      rw [← rest_behind (l := l)] at hms
      obtain ⟨ts, q, hts, hq, hts', hfault⟩ := ih hms hbehind (by rw [hbehind.rest]; simp)
      rw [tokens_of_found hne hs hscan, tokens_of_found hne' (h.spaces.trans hs) hscan', hts, hts',
        hfault, tokenHere, tokenHere, h.position]
      refine ⟨s.tokenHere k l :: ts, q, rfl, ?_, rfl, rfl⟩
      rw [hq, position_behind, List.count_cons]
      by_cases hl : l = .newline
      · rw [if_pos hl, if_pos (by simpa using hl)]
        show s.position.line + 1 + _ = _
        omega
      · rw [if_neg hl, if_neg (by simpa using hl)]
        rfl
  | failed s k f anchor hne hs hscan =>
      exact absurd hscan (hls.not_failed hne (first_of_spaces_eq_zero hs))

end Scanner

/-- The tokens of two texts with a line break between them are those of the first and, as many lines
further down, those of the second. -/
theorem tokenize_line {m : Text} {ls : List Lexeme} (hm : Lexes m ls) (b : Text) :
    ∃ ts q, (tokenize m).1 = ts ++ [⟨.endOfInput, q, q⟩] ∧ q.line = 1 + ls.count .newline ∧
      (tokenize (m ++ CodePoint.ofChar '\n' :: b)).1 =
        ts ++ ⟨.newline, q, ⟨q.line, q.column + 1⟩⟩ ::
          (tokenize b).1.map (Token.down q.line) := by
  obtain ⟨ts, q, hts, hq, htokens, -⟩ :=
    Scanner.tokens_line (s := Scanner.ofText m) (t := Scanner.ofText _) hm ⟨rfl, rfl⟩
  exact ⟨ts, q, hts, hq, htokens⟩

/-- A text that is scanned without a fault can be followed by a line break and any other text: its
tokens stay, its end becomes the line break, and the tokens of the other text come as many lines
further down as the first text has. A fault is one of the other text, that many lines further
down. -/
theorem tokenize_append_line {a : Text} (ha : (tokenize a).2 = none) (b : Text) :
    ∃ ts q, (tokenize a).1 = ts ++ [⟨.endOfInput, q, q⟩] ∧
      (tokenize (a ++ CodePoint.ofChar '\n' :: b)).1 =
        ts ++ ⟨.newline, q, ⟨q.line, q.column + 1⟩⟩ :: (tokenize b).1.map (Token.down q.line) ∧
      (tokenize (a ++ CodePoint.ofChar '\n' :: b)).2 =
        (tokenize b).2.map (LexError.down q.line) := by
  obtain ⟨ts, q, hts, -, htokens, hfault⟩ := Scanner.tokens_line (s := Scanner.ofText a)
    (t := Scanner.ofText (a ++ CodePoint.ofChar '\n' :: b)) (lexes_lexemes ha) ⟨rfl, rfl⟩
  exact ⟨ts, q, hts, htokens, hfault⟩

/-- A comment ends the first text, and the other has a fault on its second line. -/
theorem tokenize_append_line_fault :
    (tokenize "x\r\n1 # a").2 = none ∧
      ∃ ts q, (tokenize "x\r\n1 # a").1 = ts ++ [⟨.endOfInput, q, q⟩] ∧
        (tokenize (("x\r\n1 # a" : Text) ++ CodePoint.ofChar '\n' :: "2\n 'ab'")).1 =
          ts ++ ⟨.newline, q, ⟨q.line, q.column + 1⟩⟩ ::
            (tokenize "2\n 'ab'").1.map (Token.down q.line) ∧
        (tokenize (("x\r\n1 # a" : Text) ++ CodePoint.ofChar '\n' :: "2\n 'ab'")).2 =
          (tokenize "2\n 'ab'").2.map (LexError.down q.line) := by
  have hfront : (tokenize "x\r\n1 # a").2 = none := by decide +kernel
  exact ⟨hfront, tokenize_append_line hfront _⟩

/-! ## Line feeds in a text -/

namespace Escape

theorem not_mem_take_scanNumber {s : Text} {c : CodePoint} (h : (scanNumber s).result = .ok c) :
    CodePoint.ofChar '\n' ∉ s.take (scanNumber s).taken := by
  have hinside : CodePoint.ofChar '\n' ∉ s.takeWhile isInside := fun hmem =>
    absurd (Text.mem_takeWhile hmem) (by decide)
  have hsplit := List.takeWhile_append_dropWhile (p := isInside) (l := s)
  unfold scanNumber at h ⊢
  simp only [Text.drop_takeWhile] at h ⊢
  split at h
  · rename_i hclose
    obtain ⟨v, hv⟩ := Text.eq_of_first_eq hclose (by decide)
    rw [if_pos hclose]
    cases hc : HexNumeral.codePoint? (s.takeWhile isInside) with
    | none => rw [hc] at h; cases h
    | some d =>
        have htake : s.take ((s.takeWhile isInside).length + 1) =
            s.takeWhile isInside ++ [CodePoint.ofChar '\x7d'] := by
          conv => lhs; arg 2; rw [← hsplit, hv]
          exact List.take_length_add_append 1
        show CodePoint.ofChar '\n' ∉ s.take ((s.takeWhile isInside).length + 1)
        rw [htake]
        exact fun hmem => (List.mem_append.mp hmem).elim hinside (by decide)
  · cases h

/-- An escape holds no line feed. -/
theorem not_mem_take_scan {s : Text} {c : CodePoint} (h : (scan s).result = .ok c) :
    CodePoint.ofChar '\n' ∉ s.take (scan s).taken := by
  cases s with
  | nil => exact List.not_mem_nil
  | cons d s =>
      have hd : ∀ {e : CodePoint}, meaning? d = some e → d ≠ CodePoint.ofChar '\n' := by
        rintro e he rfl
        cases he
      cases hm : meaning? d with
      | some e =>
          simp only [scan, hm, Scan.found, List.take_succ_cons, List.take_zero]
          exact fun hmem => hd hm (List.mem_singleton.mp hmem).symm
      | none =>
          simp only [scan, hm] at h ⊢
          split at h
          · rename_i hu
            obtain ⟨r, rfl⟩ := Text.eq_of_first_eq hu.2 (by decide)
            rw [if_pos hu]
            simp only [List.tail_cons] at h ⊢
            cases hn : (scanNumber r).result with
            | error f => rw [hn] at h; cases h
            | ok e =>
                simp only [Scan.found, Nat.add_comm 2, List.take_succ_cons, List.mem_cons, not_or]
                refine ⟨?_, by decide, not_mem_take_scanNumber hn⟩
                rw [hu.1]
                decide
          · cases h

end Escape

/-- A quoted literal holds no line feed. -/
theorem not_mem_take_scanQuoted {quote : Option CodePoint} {what s content : Text}
    (h : (scanQuoted quote what s).result = .ok content) :
    CodePoint.ofChar '\n' ∉ s.take (scanQuoted quote what s).taken := by
  have hbreak : ∀ {c : CodePoint}, ¬c.isLineBreak = true → CodePoint.ofChar '\n' ≠ c := by
    rintro c hc rfl
    exact hc rfl
  fun_induction scanQuoted quote what s generalizing content with
  | case1 => exact List.not_mem_nil
  | case2 => cases h
  | case3 c s hb hq => exact fun hmem => hbreak hb (List.mem_singleton.mp hmem)
  | case4 s r f hf hb =>
      obtain ⟨f, anchor⟩ := f
      cases anchor <;> cases h
  | case5 s r d hr hb hq =>
      rename_i ih
      obtain ⟨more, hmore, rfl⟩ := Scan.result_after_map h
      have hescape := Escape.not_mem_take_scan hr
      simp only [Scan.after, Scan.map, Nat.add_assoc, List.take_add, List.take_succ_cons,
        List.take_zero, List.drop_succ_cons, List.drop_zero, List.mem_append, List.mem_singleton,
        not_or]
      exact ⟨hbreak hb, hescape, ih hmore⟩
  | case6 c s hb hq he ih =>
      obtain ⟨more, hmore, rfl⟩ := Scan.result_after_map h
      simp only [Scan.after, Scan.map, Nat.add_comm 1, List.take_succ_cons, List.mem_cons, not_or]
      exact ⟨hbreak hb, ih hmore⟩

theorem Lexeme.NumberText.not_mem {u : Text} {x : Binary64} (h : NumberText u x) :
    CodePoint.ofChar '\n' ∉ u := by
  have hdigits : ∀ {ds : Text}, (∀ c ∈ ds, c.isDigit = true) → CodePoint.ofChar '\n' ∉ ds :=
    fun hds hmem => absurd (hds _ hmem) (by decide)
  cases h with
  | whole _ hds _ => exact hdigits hds
  | fraction hds _ hes _ =>
      intro hmem
      rcases List.mem_append.mp hmem with hmem | hmem
      · exact hdigits hds hmem
      · exact (List.mem_cons.mp hmem).elim (by decide) (hdigits hes)

/-- The end of a line is scanned at a line break only. -/
theorem Lexeme.isLineBreak_first {s : Text} (h : (scan s).result = .ok .newline) :
    (Text.first s).isLineBreak = true := by
  have hspec := Opening.spec (Text.first s)
  rw [(opening_of_scan h).1 rfl] at hspec
  exact hspec

/-- A lexeme that does not begin with a line break holds no line feed. -/
theorem Lexeme.not_mem_take_scan {s : Text} {l : Lexeme} (h : (scan s).result = .ok l)
    (hfirst : (Text.first s).isLineBreak = false) :
    CodePoint.ofChar '\n' ∉ s.take (scan s).taken := by
  cases s with
  | nil => exact List.not_mem_nil
  | cons c s =>
      have hc : Opening.of c ≠ .newline → CodePoint.ofChar '\n' ≠ c := by
        rintro hne rfl
        exact hne rfl
      have hrun : ∀ {p : CodePoint → Bool} {t : Text}, p (.ofChar '\n') = false →
          CodePoint.ofChar '\n' ∉ t.take (t.takeWhile p).length := by
        intro p t hp hmem
        rw [← List.prefix_iff_eq_take.mp (List.takeWhile_prefix p)] at hmem
        exact absurd (Text.mem_takeWhile hmem) (by rw [hp]; decide)
      rw [scan, first_cons] at h ⊢
      cases ho : Opening.of c with
      | comment =>
          rw [ho] at h
          simp only [afterOne, List.tail_cons, Scan.after, scanComment, Scan.found,
            Nat.add_comm 1, List.take_succ_cons, List.mem_cons, not_or]
          exact ⟨hc (by simp [ho]), hrun rfl⟩
      | newline =>
          have hspec := Opening.spec c
          rw [ho] at hspec
          exact absurd hspec (Bool.eq_false_iff.mp hfirst)
      | string =>
          rw [ho] at h
          obtain ⟨t, ht, -⟩ := Scan.result_after_map h
          simp only [afterOne, List.tail_cons, Scan.after, scanString, Scan.map,
            Nat.add_comm 1, List.take_succ_cons, List.mem_cons, not_or]
          exact ⟨hc (by simp [ho]), not_mem_take_scanQuoted ht⟩
      | char =>
          rw [ho] at h
          obtain ⟨t, -, -, hq, htaken⟩ := scanChar_eq_ok (s := s) h
          simp only [afterOne_cons, Scan.after, htaken, Nat.add_comm 1, List.take_succ_cons,
            List.mem_cons, not_or]
          exact ⟨hc (by simp [ho]), not_mem_take_scanQuoted hq⟩
      | number =>
          rw [ho] at h
          obtain ⟨u, v, x, hs, -, hu, hends⟩ := scanNumber_split h
          simp only [hs, scanNumber_numberText hu hends, Scan.found, List.take_left]
          exact hu.not_mem
      | selector =>
          rw [ho] at h
          obtain ⟨-, -, htaken⟩ := scanSelector_eq_ok (s := s) h
          simp only [afterOne_cons, Scan.after, htaken, Nat.add_comm 1, List.take_succ_cons,
            List.mem_cons, not_or]
          exact ⟨hc (by simp [ho]), hrun rfl⟩
      | letter => exact hrun (by decide +kernel)
      | glyph p => exact fun hmem => hc (by simp [ho]) (List.mem_singleton.mp hmem)
      | punctuation m => exact fun hmem => hc (by simp [ho]) (List.mem_singleton.mp hmem)
      | nothing => exact List.not_mem_nil

/-- What stops at a line feed stops at the end of the text. -/
theorem Lexeme.Stops.of_newline {l : Lexeme} {u v r : Text}
    (h : l.Stops u (v ++ CodePoint.ofChar '\n' :: r)) : l.Stops u v := by
  have hends : l.Ends (v ++ CodePoint.ofChar '\n' :: r) → l.Ends v := fun h => by
    cases v with
    | nil => exact fun d hd => nomatch hd
    | cons d v => exact h
  cases l with
  | number x =>
      refine ⟨fun d hd => ?_, fun hp => ?_⟩
      · cases v with
        | nil => cases hd
        | cons e v => exact h.1 d hd
      · have hfrac := h.2 hp
        match v, hfrac with
        | [], _ => rfl
        | [d], _ => rfl
        | d :: e :: v, hfrac =>
            unfold fraction at hfrac ⊢
            simp only [List.cons_append] at hfrac ⊢
            split
            · rename_i hd
              rw [if_pos hd, List.takeWhile_cons_of_pos hd.2] at hfrac
              cases hfrac
            · rfl
  | _ => exact hends h

/-- A text that spells lexemes can be cut at a line feed behind a line. -/
theorem Lexes.cut_line {m b : Text} {ks : List Lexeme} (hm : ∀ c ∈ m, c.isLineBreak = false)
    (h : Lexes (m ++ CodePoint.ofChar '\n' :: b) ks) :
    ∃ ls ms, Lexes m ls ∧ Lexes b ms ∧ ks = ls ++ .newline :: ms ∧ .newline ∉ ls := by
  generalize hs : m ++ CodePoint.ofChar '\n' :: b = s at h
  induction h generalizing m with
  | done => exact absurd hs (by simp)
  | @space c s ls hc h ih =>
      cases m with
      | nil =>
          obtain ⟨rfl, -⟩ := List.cons.inj hs
          cases hc
      | cons d m =>
          obtain ⟨rfl, hrest⟩ := List.cons.inj hs
          obtain ⟨ls, ms, hls, hms, rfl, hnot⟩ :=
            ih (fun e he => hm e (List.mem_cons_of_mem _ he)) hrest
          exact ⟨ls, ms, .space hc hls, hms, rfl, hnot⟩
  | @lexeme s n l ks hfirst hscan h ih =>
      cases m with
      | nil =>
          have hbreak : Lexeme.scan s = .found 1 .newline := by rw [← hs]; rfl
          obtain ⟨rfl, hl⟩ := Scan.mk.inj (hscan.symm.trans hbreak)
          obtain rfl := Except.ok.inj hl
          rw [← hs] at h
          exact ⟨[], ks, .done, h, rfl, List.not_mem_nil⟩
      | cons d m =>
          have hok : (Lexeme.scan s).result = .ok l := by rw [hscan]; rfl
          have hd : (Text.first s).isLineBreak = false := by
            rw [← hs]
            exact hm d List.mem_cons_self
          have hnewline : l ≠ .newline := by
            rintro rfl
            exact absurd (Lexeme.isLineBreak_first hok) (Bool.eq_false_iff.mp hd)
          obtain ⟨u, v, hsplit, rfl⟩ := Lexeme.exists_split hscan
          have hfeed : CodePoint.ofChar '\n' ∉ u := by
            have htake := Lexeme.not_mem_take_scan hok hd
            rwa [hsplit.taken, hsplit.eq, List.take_left] at htake
          -- The lexeme ends in front of the line feed.
          obtain ⟨w, hw, rfl⟩ : ∃ w, d :: m = u ++ w ∧ v = w ++ CodePoint.ofChar '\n' :: b := by
            rcases List.append_eq_append_iff.mp (hs.trans hsplit.eq) with ⟨w, hu, hv⟩ | ⟨w, hu, hv⟩
            · cases w with
              | nil => exact ⟨[], by rw [hu]; simp, hv.symm⟩
              | cons e w =>
                  obtain ⟨rfl, -⟩ := List.cons.inj hv
                  exact absurd (by rw [hu]; simp) hfeed
            · exact ⟨w, hu, hv⟩
          rw [hsplit.eq, List.drop_left] at h
          obtain ⟨ls, ms, hls, hms, rfl, hnot⟩ :=
            ih (fun e he => hm e (by rw [hw]; exact List.mem_append_right _ he))
              (by rw [hsplit.eq, List.drop_left])
          refine ⟨l :: ls, ms, ?_, hms, rfl, fun hmem =>
            (List.mem_cons.mp hmem).elim (fun heq => hnewline heq.symm) hnot⟩
          refine .lexeme (n := u.length) ?_ ?_ (by rwa [hw, List.drop_left])
          · rw [← hs] at hfirst
            exact hfirst
          · rw [hw, hsplit.scanned w hsplit.stops.of_newline]

end GlyphFormat
