import GlyphFormat.Command.Run
import GlyphFormat.Proofs.Token.Fragments
import GlyphFormat.Proofs.Token.Gaps

/-!
# Carriage returns

In an accepted source a carriage return ends a line, together with the line feed behind it, and that
pair is a token. No other token holds a code point that breaks lines, so whoever reads the source
sees the same lines, also if line breaks of every kind become line feeds first (`Text.BreaksApart`).

There is one exception. The digits of an escape by number go on up to the closing brace and stop at
a line feed only, and blanks around a number do not count, so a carriage return may stand there
(`Text.EscapeHolds`).
-/

namespace GlyphFormat

open Scanner (isSpace)
open Command.State (universalNewlines)

/-! ## Line breaks inside lexemes -/

/-- What stands behind the backslash of an escape by number. -/
def Escape.braced (ds : Text) : Text :=
  CodePoint.ofChar 'u' :: CodePoint.ofChar '\x7b' :: (ds ++ [CodePoint.ofChar '\x7d'])

/-- The text begins with the body of a quoted literal, and the code point stands between the braces
of an escape in it. -/
def QuotedBody.Holds (q : CodePoint) (u : Text) (c : CodePoint) : Prop :=
  ∃ body content ds d rest, QuotedBody q body content ∧ Escape.Written (Escape.braced ds) d ∧
    c ∈ ds ∧ u = body ++ CodePoint.ofChar '\\' :: (Escape.braced ds ++ rest)

namespace QuotedBody

variable {q c : CodePoint} {u t : Text}

theorem Holds.mem (h : Holds q u c) : c ∈ u := by
  obtain ⟨body, content, ds, d, rest, -, -, hc, rfl⟩ := h
  simp [Escape.braced, hc]

theorem Holds.append (h : Holds q u c) (v : Text) : Holds q (u ++ v) c := by
  obtain ⟨body, content, ds, d, rest, hbody, he, hc, rfl⟩ := h
  exact ⟨body, content, ds, d, rest ++ v, hbody, he, hc, by simp⟩

theorem Holds.plain {b : CodePoint} (hbreak : b.isLineBreak = false) (hquote : b ≠ q)
    (hescape : b ≠ '\\') (h : Holds q u c) : Holds q (b :: u) c := by
  obtain ⟨body, content, ds, d, rest, hbody, he, hc, rfl⟩ := h
  exact ⟨b :: body, b :: content, ds, d, rest, .plain hbreak hquote hescape hbody, he, hc, rfl⟩

theorem Holds.escape {e : Text} {b : CodePoint} (he : Escape.Written e b) (h : Holds q u c) :
    Holds q (CodePoint.ofChar '\\' :: (e ++ u)) c := by
  obtain ⟨body, content, ds, d, rest, hbody, he', hc, rfl⟩ := h
  exact ⟨CodePoint.ofChar '\\' :: (e ++ body), b :: content, ds, d, rest, .escape he hbody, he',
    hc, by simp⟩

/-- A carriage return in an escape stands between braces. -/
theorem holds_escape {e rest : Text} {d : CodePoint} (he : Escape.Written e d)
    (hc : CodePoint.ofChar '\r' ∈ e) :
    Holds q (CodePoint.ofChar '\\' :: (e ++ rest)) '\r' := by
  have hwritten := he
  cases he with
  | letter h =>
      have table : ∀ p ∈ Escape.letters, p.1 ≠ CodePoint.ofChar '\r' := by decide
      exact absurd (List.mem_singleton.mp hc).symm (table _ h)
  | @number ds _ hds hvalue =>
      have hbrace := (List.mem_cons.mp hc).resolve_left (by decide)
      have hinside := (List.mem_cons.mp hbrace).resolve_left (by decide)
      have hmem := (List.mem_append.mp hinside).resolve_right (by decide)
      exact ⟨[], [], ds, d, rest, .nil, hwritten, hmem, rfl⟩

/-- A carriage return in a body stands between the braces of an escape. -/
theorem holds_return (h : QuotedBody q u t) (hc : CodePoint.ofChar '\r' ∈ u) :
    Holds q u '\r' := by
  induction h with
  | nil => cases hc
  | plain hbreak hquote hescape _ ih =>
      rcases List.mem_cons.mp hc with rfl | hc
      · cases hbreak
      · exact (ih hc).plain hbreak hquote hescape
  | escape he _ ih =>
      have hmem := (List.mem_cons.mp hc).resolve_left (by decide)
      rcases List.mem_append.mp hmem with hmem | hmem
      · exact holds_escape he hmem
      · exact (ih hmem).escape he

end QuotedBody

/-- The text is a quoted literal that has the code point between the braces of an escape. -/
def Text.QuotesHolding (u : Text) (c : CodePoint) : Prop :=
  ∃ q v, IsQuote q ∧ QuotedBody.Holds q v c ∧ u = q :: v

theorem QuotedBody.quotesHolding {q c : CodePoint} {u t : Text} (h : QuotedBody q u t)
    (hq : IsQuote q) (hc : c ∈ q :: (u ++ [q])) (hbreak : c.isLineBreak = true) :
    c = '\r' ∧ Text.QuotesHolding (q :: (u ++ [q])) c := by
  have hquote : c ≠ q := by
    rintro rfl
    rw [hq.plain.1] at hbreak
    cases hbreak
  have hmem : c ∈ u := by
    simpa [hquote] using hc
  have hreturn : c = '\r' := by
    rw [CodePoint.isLineBreak, Bool.or_eq_true, decide_eq_true_eq, decide_eq_true_eq] at hbreak
    refine hbreak.resolve_left ?_
    rintro rfl
    exact h.not_mem hmem
  subst hreturn
  exact ⟨rfl, q, u ++ [q], hq, (h.holds_return hmem).append [q], rfl⟩

/-- A lexeme that is no line break holds none, but for a carriage return in an escape. -/
theorem Lexeme.Written.quotesHolding {u : Text} {l : Lexeme} (h : l.Written u)
    (hl : l.kind ≠ .newline) {c : CodePoint} (hc : c ∈ u) (hbreak : c.isLineBreak = true) :
    c = '\r' ∧ u.QuotesHolding c := by
  have hblank := CodePoint.isBlank_of_isLineBreak hbreak
  have hfirst := Lexeme.isLineBreak_first_of_scan h.scan hl
  have hdigits : ∀ ds : Text, (∀ d ∈ ds, d.isDigit = true) → c ∉ ds := fun ds hds hmem => by
    rw [CodePoint.isBlank_of_isDigit (hds c hmem)] at hblank
    cases hblank
  have hletters : ∀ n : Text, (∀ d ∈ n, d.isLetter = true) → c ∉ n := fun n hn hmem => by
    rw [CodePoint.isBlank_of_isLetter (hn c hmem)] at hblank
    cases hblank
  -- what begins with no line break and goes on without one
  have hrest : ∀ {b : CodePoint} {v : Text}, u = b :: v → c ∉ v → False := by
    rintro b v rfl hv
    obtain rfl := (List.mem_cons.mp hc).resolve_right hv
    rw [first_cons, hbreak] at hfirst
    cases hfirst
  cases h with
  | glyph _ => exact (hrest rfl List.not_mem_nil).elim
  | mark _ => exact (hrest rfl List.not_mem_nil).elim
  | newline _ => exact absurd rfl hl
  | comment ht =>
      refine (hrest rfl fun hmem => ?_).elim
      rw [ht c hmem] at hbreak
      cases hbreak
  | whole _ hds _ => exact absurd hc (hdigits _ hds)
  | fraction _ hds _ hes _ =>
      rcases List.mem_append.mp hc with hc | hc
      · exact absurd hc (hdigits _ hds)
      · rcases List.mem_cons.mp hc with rfl | hc
        · cases hbreak
        · exact absurd hc (hdigits _ hes)
  | ident _ hn => exact absurd hc (hletters _ hn)
  | selector _ hn =>
      have hn' := hletters _ fun d hd => CodePoint.isLetter_of_isSmallLetter (hn d hd)
      exact (hrest rfl hn').elim
  | string hbody => exact hbody.quotesHolding (.inl rfl) hc hbreak
  | char hbody => exact hbody.quotesHolding (.inr rfl) hc hbreak

/-- A line break that holds a carriage return is the pair. -/
theorem Lexeme.Written.eq_of_return {x y : Text}
    (h : Lexeme.newline.Written (x ++ CodePoint.ofChar '\r' :: y)) :
    x = [] ∧ y = [CodePoint.ofChar '\n'] := by
  have hbreak := Lexeme.take_newline h.scan
  rw [List.take_length] at hbreak
  have hfeed : ∀ v : Text, v ++ CodePoint.ofChar '\r' :: y ≠ Text.ofString "\n" := by
    intro v hv
    have hmem : CodePoint.ofChar '\r' ∈ Text.ofString "\n" := by
      rw [← hv]
      simp
    exact absurd hmem (by decide)
  rcases hbreak with hbreak | hbreak
  · exact absurd hbreak (hfeed x)
  · cases x with
    | nil => exact ⟨rfl, (List.cons.inj hbreak).2⟩
    | cons c x => exact absurd (List.cons.inj hbreak).2 (hfeed x)

/-! ## Pieces -/

/-- A text in two parts around a code point: the first part ends in front of it, or holds it. -/
theorem Text.append_eq_around {u v a b : Text} {c : CodePoint} (h : u ++ v = a ++ c :: b) :
    (∃ x, a = u ++ x ∧ v = x ++ c :: b) ∨ ∃ y, u = a ++ c :: y ∧ b = y ++ v := by
  rcases List.append_eq_append_iff.mp h with ⟨x, ha, hv⟩ | ⟨y, hu, hb⟩
  · exact .inl ⟨x, ha, hv⟩
  · cases y with
    | nil => exact .inl ⟨[], by rw [hu, List.append_nil, List.append_nil], hb.symm⟩
    | cons d y =>
        obtain ⟨hcd, hbehind⟩ := List.cons.inj hb
        exact .inr ⟨y, hcd ▸ hu, hbehind⟩

/-- In a text that is cut to its end, a code point that is no blank stands in a piece. -/
theorem Cut.exists_piece {ps : List Piece} {s w a b : Text} {c : CodePoint} (h : Cut ps s w)
    (hw : ∀ d ∈ w, isSpace d = true) (hc : isSpace c = false) (hs : s = a ++ c :: b) :
    ∃ qs p rs x y, ps = qs ++ p :: rs ∧ p.body = x ++ c :: y ∧
      a = Piece.textOf qs ++ p.gap ++ x ∧ b = y ++ (Piece.textOf rs ++ w) := by
  have hblank : ∀ {v : Text}, (∀ d ∈ v, isSpace d = true) → c ∉ v := fun hv hmem => by
    rw [hv c hmem] at hc
    cases hc
  induction h generalizing a with
  | nil s => exact absurd (hs ▸ by simp) (hblank hw)
  | @cons p ps s w hgap hbody hapart hcut ih =>
      rcases Text.append_eq_around hs with ⟨x, rfl, hx⟩ | ⟨y, hy, -⟩
      swap
      · exact absurd (hy ▸ by simp) (hblank hgap)
      rcases Text.append_eq_around hx with ⟨z, rfl, hz⟩ | ⟨y, hy, hb⟩
      · obtain ⟨qs, r, rs, x, y, rfl, hr, rfl, hb⟩ := ih hw hz
        refine ⟨p :: qs, r, rs, x, y, rfl, hr, ?_, hb⟩
        simp only [Piece.textOf_cons, List.append_assoc]
      · exact ⟨[], p, ps, x, y, rfl, hy, rfl, by rw [hb, hcut.eq]⟩

/-- The token of a piece stands behind the pieces in front, and its part of the text is the
piece. -/
theorem Cut.exists_token {qs rs : List Piece} {p : Piece} {s rest : Text}
    (h : Cut (qs ++ p :: rs) s rest) :
    ∃ t ∈ Piece.tokens [] (qs ++ p :: rs), t.lexeme = p.lexeme ∧
      t.start = (Piece.textOf qs ++ p.gap).place ∧ s.slice t.start t.stop = p.body := by
  have hwritten := (h.mem p (by simp)).2
  have htext : s = (Piece.textOf qs ++ p.gap) ++ (p.body ++ (Piece.textOf rs ++ rest)) := by
    rw [h.eq, Piece.textOf_append, Piece.textOf_cons]
    simp only [List.append_assoc]
  obtain ⟨start, hstart⟩ : ∃ start, (Piece.textOf qs ++ p.gap).place = start := ⟨_, rfl⟩
  refine ⟨⟨p.lexeme, start, ⟨start.line, start.column + p.body.length⟩⟩, ?_, rfl, hstart.symm, ?_⟩
  · rw [Piece.tokens_append, Piece.tokens, List.nil_append, hstart]
    simp
  · have hplaced := Lexeme.placed_of_scan hwritten.scan start
    have hpast := Lexeme.past_of_scan hwritten.scan start
    rw [List.take_length] at hplaced hpast
    rw [htext]
    refine Text.slice_eq (by rw [Position.past_start, hstart]) hplaced ?_
    rw [hpast]
    split
    · exact .inl (Nat.lt_succ_self _)
    · exact le_refl _

/-! ## Line feeds for all line breaks -/

/-- Every carriage return stands in front of a line feed. -/
def Text.ReturnsPaired (s : Text) : Prop :=
  ∀ a b, s = a ++ CodePoint.ofChar '\r' :: b → ∃ b', b = CodePoint.ofChar '\n' :: b'

theorem Text.ReturnsPaired.tail {c : CodePoint} {s : Text} (h : ReturnsPaired (c :: s)) :
    s.ReturnsPaired :=
  fun a b hs => h (c :: a) b (congrArg (c :: ·) hs)

/-- Carriage returns in front of line feeds are dropped, and nothing else changes. -/
theorem Text.ReturnsPaired.universalNewlines_eq {s : Text} (h : s.ReturnsPaired) :
    universalNewlines s = s.filter (· ≠ CodePoint.ofChar '\r') := by
  fun_induction universalNewlines s with
  | case1 => rfl
  | case2 rest ih =>
      rw [ih h.tail.tail]
      rfl
  | case3 d rest hd _ =>
      obtain ⟨b, hb⟩ := h [] (d :: rest) rfl
      exact absurd (List.cons.inj hb).1 hd
  | case4 =>
      obtain ⟨b, hb⟩ := h [] [] rfl
      cases hb
  | case5 c rest hc ih =>
      rw [ih h.tail, List.filter_cons, if_pos (decide_eq_true hc)]

theorem Text.ReturnsPaired.lines {s : Text} (h : s.ReturnsPaired) :
    (universalNewlines s).splitOn '\n' =
      (s.splitOn '\n').map (List.filter (· ≠ CodePoint.ofChar '\r')) := by
  rw [h.universalNewlines_eq]
  exact splitOn_filter (by decide) s

/-! ## Accepted sources -/

/-- Some token of the source is a quoted literal with the code point between the braces of an
escape. -/
def Text.EscapeHolds (s : Text) (c : CodePoint) : Prop :=
  ∃ t ∈ (tokenize s).1, (s.slice t.start t.stop).QuotesHolding c

/-- Only the tokens that end lines hold line breaks. -/
structure Text.BreaksApart (s : Text) : Prop where
  /-- Every carriage return has a line feed behind it, and the two are a token. -/
  returns : ∀ a b, s = a ++ CodePoint.ofChar '\r' :: b →
    (∃ b', b = CodePoint.ofChar '\n' :: b') ∧
      ∃! t, t ∈ (tokenize s).1 ∧ t.start = a.place ∧ t.lexeme = .newline ∧
        s.slice t.start t.stop = "\r\n"
  unbroken : ∀ t ∈ (tokenize s).1, t.lexeme ≠ .newline →
    ∀ c ∈ s.slice t.start t.stop, c.isLineBreak = false
  /-- With line feeds for line breaks of every kind the lines stay, but for carriage returns. -/
  lines : (universalNewlines s).splitOn '\n' =
    (s.splitOn '\n').map (List.filter (· ≠ CodePoint.ofChar '\r'))

/-- Tokens that start at one place are one. -/
theorem eq_of_start_eq {s : Text} {t u : Token} (ht : t ∈ (tokenize s).1)
    (hu : u ∈ (tokenize s).1) (h : t.start = u.start) : t = u := by
  have hlt := List.pairwise_iff_getElem.mp (tokens_apart s)
  obtain ⟨i, hi, rfl⟩ := List.getElem_of_mem ht
  obtain ⟨j, hj, rfl⟩ := List.getElem_of_mem hu
  rcases lt_trichotomy i j with hij | rfl | hij
  · exact absurd h (hlt i j hi hj hij).1.ne
  · rfl
  · exact absurd h.symm (hlt j i hj hi hij).1.ne

theorem Text.slice_self (s : Text) (p : Position) : s.slice p p = [] := by
  rw [slice, List.filter_eq_nil_iff.mpr, List.map_nil]
  intro d _ hd
  obtain ⟨hle, hlt⟩ := of_decide_eq_true hd
  exact absurd (hle.trans_lt hlt) (lt_irrefl _)

/-- The part of an accepted source that a token stands for is written for its lexeme, or it is the
end of the source and empty. -/
theorem written_slice {s : Text} (hlex : (tokenize s).2 = none) {t : Token}
    (ht : t ∈ (tokenize s).1) :
    t.lexeme.Written (s.slice t.start t.stop) ∨ s.slice t.start t.stop = [] := by
  by_cases hend : t.lexeme = .endOfInput
  · obtain ⟨ps, w, r, hcut, -, ⟨-, -, htokens⟩ | ⟨e, he, -⟩⟩ := tokenize_cut s
    · rw [htokens] at ht
      rcases List.mem_append.mp ht with ht | ht
      · have hmem := List.mem_map_of_mem (f := Token.lexeme) ht
        rw [Piece.map_lexeme_tokens] at hmem
        obtain ⟨p, hp, hl⟩ := List.mem_map.mp hmem
        have hwritten := (hcut.mem p hp).2
        rw [hl, hend] at hwritten
        generalize p.body = u at hwritten
        cases hwritten with
        | mark hmark => exact absurd hmark (by simp [Lexeme.marks])
      · obtain rfl := List.mem_singleton.mp ht
        exact .inr (s.slice_self _)
    · rw [hlex] at he
      cases he
  · obtain ⟨-, b, hscan⟩ := tokens_stand ht hend
    exact .inl (Lexeme.written_of_scan hscan).1

/-- A token of an accepted source that is no line break holds none, but for a carriage return in an
escape. -/
theorem eq_return_of_isLineBreak {s : Text} (hlex : (tokenize s).2 = none) {t : Token}
    (ht : t ∈ (tokenize s).1) (hl : t.lexeme ≠ .newline) {c : CodePoint}
    (hc : c ∈ s.slice t.start t.stop) (hbreak : c.isLineBreak = true) :
    c = '\r' ∧ s.EscapeHolds c := by
  rcases written_slice hlex ht with hwritten | hnil
  · have hkind : t.lexeme.kind ≠ .newline := by
      intro hkind
      cases h : t.lexeme <;> rw [h] at hkind hl <;> first | exact hl rfl | cases hkind
    obtain ⟨hreturn, hquotes⟩ := hwritten.quotesHolding hkind hc hbreak
    exact ⟨hreturn, t, ht, hquotes⟩
  · rw [hnil] at hc
    cases hc

/-- A carriage return that stands in no escape belongs to the end of a line. -/
theorem exists_lineEnd {s a b : Text} (hlex : (tokenize s).2 = none) (h : ¬s.EscapeHolds '\r')
    (hs : s = a ++ CodePoint.ofChar '\r' :: b) :
    (∃ b', b = CodePoint.ofChar '\n' :: b') ∧ ∃ t ∈ (tokenize s).1, t.start = a.place ∧
      t.lexeme = .newline ∧ s.slice t.start t.stop = "\r\n" := by
  obtain ⟨ps, w, r, hcut, hw, ⟨-, rfl, htokens⟩ | ⟨e, he, -⟩⟩ := tokenize_cut s
  swap
  · rw [hlex] at he
    cases he
  rw [List.append_nil] at hcut
  obtain ⟨qs, p, rs, x, y, rfl, hbody, rfl, rfl⟩ := hcut.exists_piece hw (by decide) hs
  obtain ⟨t, ht, hl, hstart, hslice⟩ := hcut.exists_token
  have hmem : t ∈ (tokenize s).1 := by
    rw [htokens]
    exact List.mem_append_left _ ht
  have hnewline : t.lexeme = .newline := by
    by_contra hne
    refine h (eq_return_of_isLineBreak hlex hmem hne (c := CodePoint.ofChar '\r') ?_ rfl).2
    rw [hslice, hbody]
    simp
  have hwritten := (hcut.mem p (by simp)).2
  rw [← hl, hnewline, hbody] at hwritten
  obtain ⟨rfl, rfl⟩ := hwritten.eq_of_return
  refine ⟨⟨_, rfl⟩, t, hmem, by rw [hstart, List.append_nil], hnewline, by rw [hslice, hbody]; rfl⟩

/-- An accepted source keeps its line breaks apart just when no escape holds a carriage return. -/
theorem breaksApart_iff {s : Text} (hlex : (tokenize s).2 = none) :
    s.BreaksApart ↔ ¬s.EscapeHolds '\r' := by
  constructor
  · rintro hapart ⟨t, ht, hquotes⟩
    obtain ⟨q, v, hq, hholds, hslice⟩ := id hquotes
    have hne : t.lexeme ≠ .newline := by
      intro hl
      rcases written_slice hlex ht with hwritten | hnil
      · rw [hl] at hwritten
        have hbreak := Lexeme.take_newline hwritten.scan
        rw [List.take_length, hslice] at hbreak
        have hfirst := hbreak.imp (fun h => (List.cons.inj h).1) fun h => (List.cons.inj h).1
        rcases hq with rfl | rfl <;> exact absurd hfirst (by decide)
      · rw [hnil] at hslice
        cases hslice
    have hbreak := hapart.unbroken t ht hne '\r' (hslice ▸ List.mem_cons_of_mem q hholds.mem)
    cases hbreak
  · intro h
    have hends := fun a b hs => exists_lineEnd (a := a) (b := b) hlex h hs
    have hpaired : s.ReturnsPaired := fun a b hs => (hends a b hs).1
    refine ⟨fun a b hs => ?_, fun t ht hl c hc => ?_, hpaired.lines⟩
    · obtain ⟨hfeed, t, ht, hstart, hrest⟩ := hends a b hs
      refine ⟨hfeed, t, ⟨ht, hstart, hrest⟩, fun u hu => ?_⟩
      exact eq_of_start_eq hu.1 ht (hu.2.1.trans hstart.symm)
    · refine Bool.eq_false_iff.mpr fun hbreak => h ?_
      obtain ⟨rfl, hholds⟩ := eq_return_of_isLineBreak hlex ht hl hc hbreak
      exact hholds

/-- Both kinds of line breaks, and an escape with a blank in it. -/
theorem breaksApart_of_pairs : (tokenize "'\\u\x7b 41\x7d' # a\r\nx\n\r\n").2 = none ∧
    ¬Text.EscapeHolds "'\\u\x7b 41\x7d' # a\r\nx\n\r\n" '\r' ∧
    Text.BreaksApart "'\\u\x7b 41\x7d' # a\r\nx\n\r\n" := by
  have hlex : (tokenize "'\\u\x7b 41\x7d' # a\r\nx\n\r\n").2 = none := by decide +kernel
  have hholds : ¬Text.EscapeHolds "'\\u\x7b 41\x7d' # a\r\nx\n\r\n" '\r' := by
    rintro ⟨t, ht, q, v, hq, hin, hslice⟩
    have htokens : ∀ t ∈ (tokenize "'\\u\x7b 41\x7d' # a\r\nx\n\r\n").1,
        CodePoint.ofChar '\r' ∉
          (Text.slice "'\\u\x7b 41\x7d' # a\r\nx\n\r\n" t.start t.stop).tail := by
      decide +kernel
    refine htokens t ht ?_
    rw [hslice]
    exact hin.mem
  exact ⟨hlex, hholds, (breaksApart_iff hlex).mpr hholds⟩

/-- The carriage return behind the digits is taken for a blank. -/
theorem exists_not_breaksApart : ¬∀ s : Text, (tokenize s).2 = none → s.BreaksApart := by
  intro h
  have hapart := h "'\\u\x7b41\r\x7d'" (by decide +kernel)
  obtain ⟨⟨b, hb⟩, -⟩ := hapart.returns "'\\u\x7b41" "\x7d'" rfl
  exact absurd (List.cons.inj hb).1 (by decide)

end GlyphFormat
