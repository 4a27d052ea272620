import GlyphFormat.Proofs.Token.Moves
import Mathlib.Order.Basic

/-!
# Places in a text

Places are ordered line by line. A line ends behind its line feed, so every code point of a text has
its place, and two places mark the part of the text between them (`Text.slice`).

The scanner keeps to these places. Its tokens stand one behind the other (`tokens_apart`), and
between the start and the stop of a token stands the text that its lexeme is scanned from
(`tokens_stand`).
-/

namespace GlyphFormat

/-! ## The order of places -/

namespace Position

instance : LT Position := ⟨fun p q => p.line < q.line ∨ p.line = q.line ∧ p.column < q.column⟩

instance : LE Position := ⟨fun p q => p.line < q.line ∨ p.line = q.line ∧ p.column ≤ q.column⟩

theorem lt_iff {p q : Position} :
    p < q ↔ p.line < q.line ∨ p.line = q.line ∧ p.column < q.column := Iff.rfl

theorem le_iff {p q : Position} :
    p ≤ q ↔ p.line < q.line ∨ p.line = q.line ∧ p.column ≤ q.column := Iff.rfl

instance (p q : Position) : Decidable (p < q) := decidable_of_iff _ lt_iff.symm

instance (p q : Position) : Decidable (p ≤ q) := decidable_of_iff _ le_iff.symm

instance : PartialOrder Position where
  le_refl p := Or.inr ⟨rfl, Nat.le_refl _⟩
  le_trans p q r hpq hqr := by
    rw [le_iff] at *
    omega
  lt_iff_le_not_ge p q := by
    rw [lt_iff, le_iff, le_iff]
    omega
  le_antisymm p q hpq hqp := by
    rw [le_iff] at hpq hqp
    have hline : p.line = q.line := by omega
    have hcolumn : p.column = q.column := by omega
    cases p
    cases q
    congr

/-- The place behind a code point. -/
def next (p : Position) (c : CodePoint) : Position :=
  if c = '\n' then ⟨p.line + 1, 1⟩ else ⟨p.line, p.column + 1⟩

/-- The place behind a text. -/
def past (p : Position) (s : Text) : Position := s.foldl next p

theorem lt_next (p : Position) (c : CodePoint) : p < p.next c := by
  unfold next
  split
  · exact Or.inl (Nat.lt_succ_self _)
  · exact Or.inr ⟨rfl, Nat.lt_succ_self _⟩

theorem past_append (p : Position) (s t : Text) : p.past (s ++ t) = (p.past s).past t :=
  List.foldl_append

theorem le_past (p : Position) (s : Text) : p ≤ p.past s := by
  induction s generalizing p with
  | nil => exact le_refl p
  | cons c s ih => exact (p.lt_next c).le.trans (ih _)

/-- On one line the columns are counted. -/
theorem past_of_not_mem (p : Position) {s : Text} (h : CodePoint.ofChar '\n' ∉ s) :
    p.past s = ⟨p.line, p.column + s.length⟩ := by
  induction s generalizing p with
  | nil => rfl
  | cons c s ih =>
      obtain ⟨hc, hs⟩ := not_or.mp (mt List.mem_cons.mpr h)
      show (p.next c).past s = _
      rw [ih _ hs, next, if_neg (Ne.symm hc), List.length_cons, Nat.add_comm s.length,
        ← Nat.add_assoc]

end Position

/-! ## Parts of a text -/

namespace Text

/-- The code points of a text that begins at the place, each with its own place. -/
def placed (p : Position) : Text → List (Position × CodePoint)
  | [] => []
  | c :: s => (p, c) :: placed (p.next c) s

/-- The part of a text between two places, the second one excluded. -/
def slice (s : Text) (start stop : Position) : Text :=
  ((s.placed ⟨1, 1⟩).filter fun d => start ≤ d.1 ∧ d.1 < stop).map Prod.snd

variable {p : Position} {s t : Text}

theorem placed_append (p : Position) (s t : Text) :
    (s ++ t).placed p = s.placed p ++ t.placed (p.past s) := by
  induction s generalizing p with
  | nil => rfl
  | cons c s ih => exact congrArg ((p, c) :: ·) (ih _)

theorem map_placed (p : Position) (s : Text) : (s.placed p).map Prod.snd = s := by
  induction s generalizing p with
  | nil => rfl
  | cons c s ih => exact congrArg (c :: ·) (ih _)

/-- The places of a text lie from its start on up to its end. -/
theorem placed_bounds {d : Position × CodePoint} (h : d ∈ s.placed p) :
    p ≤ d.1 ∧ d.1 < p.past s := by
  induction s generalizing p with
  | nil => cases h
  | cons c s ih =>
      rcases List.mem_cons.mp h with rfl | h
      · exact ⟨le_refl p, (p.lt_next c).trans_le ((p.next c).le_past s)⟩
      · obtain ⟨hstart, hstop⟩ := ih h
        exact ⟨(p.lt_next c).le.trans hstart, hstop⟩

/-- A part of a text is found between its places. -/
theorem slice_eq {a u b : Text} {start stop : Position} (hstart : start = Position.past ⟨1, 1⟩ a)
    (hlt : ∀ d ∈ u.placed start, d.1 < stop) (hle : stop ≤ start.past u) :
    (a ++ (u ++ b)).slice start stop = u := by
  have hbefore : (a.placed ⟨1, 1⟩).filter (fun d => start ≤ d.1 ∧ d.1 < stop) = [] := by
    refine List.filter_eq_nil_iff.mpr fun d hd hin => ?_
    have hlt := (placed_bounds hd).2
    rw [← hstart] at hlt
    exact absurd ((of_decide_eq_true hin).1.trans_lt hlt) (lt_irrefl _)
  have hinside : (u.placed start).filter (fun d => start ≤ d.1 ∧ d.1 < stop) =
      u.placed start :=
    List.filter_eq_self.mpr fun d hd => decide_eq_true ⟨(placed_bounds hd).1, hlt d hd⟩
  have hbehind : (b.placed (start.past u)).filter (fun d => start ≤ d.1 ∧ d.1 < stop) = [] := by
    refine List.filter_eq_nil_iff.mpr fun d hd hin => ?_
    have hstop := (of_decide_eq_true hin).2.trans_le hle
    exact absurd (hstop.trans_le (placed_bounds hd).1) (lt_irrefl _)
  rw [slice, placed_append, placed_append, ← hstart, List.filter_append, List.filter_append,
    hbefore, hinside, hbehind, List.nil_append, List.append_nil, map_placed]

end Text

/-! ## Places of lexemes -/

namespace Lexeme

/-- The end of a line is scanned from a line feed, which may stand behind a carriage return. -/
theorem take_newline {s : Text} {n : Nat} (h : scan s = .found n .newline) :
    s.take n = Text.ofString "\n" ∨ s.take n = Text.ofString "\r\n" := by
  cases s with
  | nil => cases h
  | cons c s =>
      have hopen := (opening_of_scan (s := c :: s) (l := .newline) (by rw [h]; rfl)).1 rfl
      have hspec := Opening.spec c
      rw [first_cons] at hopen
      rw [hopen] at hspec
      rw [scan, first_cons, hopen] at h
      replace h : scanNewline (c :: s) = .found n .newline := h
      rw [scanNewline_cons] at h
      by_cases hc : c = '\r'
      · rw [if_pos hc] at h
        by_cases hs : Text.first s = '\n'
        · rw [if_pos hs] at h
          obtain ⟨v, rfl⟩ := Text.eq_of_first_eq hs (by decide)
          obtain rfl : 2 = n := congrArg Scan.taken h
          exact Or.inr (by rw [hc]; rfl)
        · rw [if_neg hs] at h
          cases congrArg Scan.result h
      · rw [if_neg hc] at h
        obtain rfl : 1 = n := congrArg Scan.taken h
        have hbreak : c.isLineBreak = true := hspec
        rw [CodePoint.isLineBreak, Bool.or_eq_true, decide_eq_true_eq, decide_eq_true_eq] at hbreak
        exact Or.inl (by rw [hbreak.resolve_right hc]; rfl)

/-- Where a lexeme leads. -/
theorem past_of_scan {s : Text} {n : Nat} {l : Lexeme} (h : scan s = .found n l)
    (p : Position) : p.past (s.take n) =
      if l = .newline then ⟨p.line + 1, 1⟩ else ⟨p.line, p.column + n⟩ := by
  obtain ⟨u, v, hs, rfl⟩ := exists_split h
  by_cases hl : l = .newline
  · subst hl
    rw [if_pos rfl]
    rcases take_newline h with htake | htake <;> rw [htake] <;> rfl
  · have hkind : l.kind ≠ .newline := by
      rintro hkind
      cases l <;> first | exact hl rfl | cases hkind
    have hbreak := isLineBreak_first_of_scan h hkind
    have hfeed := not_mem_take_scan (s := s) (l := l) (by rw [h]; rfl) hbreak
    rw [show (scan s).taken = u.length by rw [h]; rfl] at hfeed
    rw [if_neg hl, p.past_of_not_mem hfeed, hs.eq, List.take_left]

/-- A lexeme lies on its line, with the line break if it is one. -/
theorem placed_of_scan {s : Text} {n : Nat} {l : Lexeme} (h : scan s = .found n l)
    (p : Position) : ∀ d ∈ Text.placed p (s.take n), d.1 < ⟨p.line, p.column + n⟩ := by
  have htaken := List.length_take_of_le (le_length_of_scan h)
  intro d hd
  by_cases hl : l = .newline
  · subst hl
    rcases take_newline h with htake | htake <;> rw [htake] at hd htaken <;> subst htaken
    · obtain rfl := List.mem_singleton.mp hd
      exact Or.inr ⟨rfl, Nat.lt_succ_self _⟩
    · rcases List.mem_cons.mp hd with rfl | hd
      · exact Or.inr ⟨rfl, Nat.lt_add_of_pos_right Nat.two_pos⟩
      · obtain rfl := List.mem_singleton.mp hd
        exact Or.inr ⟨rfl, Nat.lt_succ_self _⟩
  · have hplace := (Text.placed_bounds hd).2
    rwa [past_of_scan h, if_neg hl] at hplace

/-- A name is scanned from its letters. -/
theorem take_ident {s name : Text} {n : Nat} (h : scan s = .found n (.ident name)) :
    s.take n = name := by
  have hopen := (opening_of_scan (s := s) (l := .ident name) (by rw [h]; rfl)).2.2 rfl
  rw [scan, hopen] at h
  obtain ⟨rfl, hname⟩ := Scan.mk.inj h
  obtain rfl := ident.inj (Except.ok.inj hname)
  exact (List.prefix_iff_eq_take.mp (List.takeWhile_prefix _)).symm

end Lexeme

/-! ## Places of tokens -/

/-- The lexeme of the token is scanned from the part of the text that its start and its stop
mark. -/
def Token.StandsIn (s : Text) (t : Token) : Prop :=
  t.start < t.stop ∧ ∃ b, Lexeme.scan (s.slice t.start t.stop ++ b) =
    .found (s.slice t.start t.stop).length t.lexeme

namespace Scanner

variable {source a : Text} {s : Scanner} {k : Nat} {l : Lexeme}

/-- The scanner stands in the source behind the text. -/
structure StandsBehind (source a : Text) (s : Scanner) : Prop where
  eq : source = a ++ s.rest
  position : s.position = Position.past ⟨1, 1⟩ a

/-- Spaces lie on the line. -/
theorem StandsBehind.space (h : StandsBehind source a s) :
    StandsBehind source (a ++ s.rest.takeWhile isSpace) (s.advance s.spaces) where
  eq := by rw [Lexes.rest_spaces, List.append_assoc, List.takeWhile_append_dropWhile, ← h.eq]
  position := by
    have hfeed : CodePoint.ofChar '\n' ∉ s.rest.takeWhile isSpace := fun hmem =>
      absurd (Text.mem_takeWhile hmem) (by decide)
    rw [Position.past_append, ← h.position, Position.past_of_not_mem _ hfeed]
    rfl

theorem StandsBehind.behind (h : StandsBehind source a s)
    (hscan : Lexeme.scan s.rest = .found k l) :
    StandsBehind source (a ++ s.rest.take k) (s.behind k l) where
  eq := by rw [rest_behind, List.append_assoc, List.take_append_drop, ← h.eq]
  position := by
    rw [Position.past_append, ← h.position, Lexeme.past_of_scan hscan, position_behind]

/-- The token that is found here stands in the source and does not reach past the scanner then. -/
theorem StandsBehind.tokenHere (h : StandsBehind source a s)
    (hscan : Lexeme.scan s.rest = .found k l) :
    (s.tokenHere k l).StandsIn source ∧ (s.tokenHere k l).stop ≤ (s.behind k l).position := by
  obtain ⟨u, v, hs, rfl⟩ := Lexeme.exists_split hscan
  have hpast := Lexeme.past_of_scan hscan s.position
  have htake : s.rest.take u.length = u := by rw [hs.eq, List.take_left]
  rw [htake] at hpast
  have hle : (s.tokenHere u.length l).stop ≤ s.position.past u := by
    rw [hpast]
    split
    · exact Or.inl (Nat.lt_succ_self _)
    · exact le_refl _
  have hlt : ∀ d ∈ u.placed s.position, d.1 < (s.tokenHere u.length l).stop := by
    have := Lexeme.placed_of_scan hscan s.position
    rwa [htake] at this
  have hslice : source.slice s.position (s.tokenHere u.length l).stop = u := by
    rw [h.eq, hs.eq]
    exact Text.slice_eq h.position hlt hle
  refine ⟨⟨?_, v, ?_⟩, ?_⟩
  · exact Or.inr ⟨rfl, Nat.lt_add_of_pos_right (List.length_pos_iff.mpr hs.nonempty)⟩
  · show Lexeme.scan (source.slice s.position _ ++ v) = .found (source.slice s.position _).length l
    rw [hslice, ← hs.eq, hscan]
  · rwa [(h.behind hscan).position, Position.past_append, ← h.position, htake]

/-- From here on every token stands in the source, and each ends before the next one begins. By
induction from token to token. -/
theorem StandsBehind.tokens (h : StandsBehind source a s) :
    (∀ t ∈ s.tokens.1, s.position ≤ t.start ∧
        (t.lexeme ≠ .endOfInput → t.StandsIn source)) ∧
      s.tokens.1.Pairwise fun t u => t.start < u.start ∧ t.stop ≤ u.start := by
  induction s using token_induction generalizing a with
  | ended s hnil =>
      rw [tokens_of_end hnil]
      refine ⟨List.forall_mem_singleton.mpr ⟨le_refl _, fun h => absurd rfl h⟩, ?_⟩
      exact List.pairwise_singleton _ _
  | space s hne hs ih =>
      obtain ⟨hall, hpairs⟩ := ih h.space
      rw [tokens_of_space hne hs]
      refine ⟨fun t ht => ⟨le_trans ?_ (hall t ht).1, (hall t ht).2⟩, hpairs⟩
      exact Or.inr ⟨rfl, Nat.le_add_right _ _⟩
  | found s k l hne hs hscan ih =>
      obtain ⟨hall, hpairs⟩ := ih (h.behind hscan)
      obtain ⟨hstands, hstop⟩ := h.tokenHere hscan
      have hnext : ∀ u ∈ (s.behind k l).tokens.1, (s.tokenHere k l).stop ≤ u.start :=
        fun u hu => hstop.trans (hall u hu).1
      have hstart : s.position ≤ (s.behind k l).position := hstands.1.le.trans hstop
      rw [tokens_of_found hne hs hscan]
      refine ⟨List.forall_mem_cons.mpr ⟨⟨le_refl _, fun _ => hstands⟩, fun u hu => ?_⟩, ?_⟩
      · exact ⟨hstart.trans (hall u hu).1, (hall u hu).2⟩
      · exact .cons (fun u hu => ⟨hstands.1.trans_le (hnext u hu), hnext u hu⟩) hpairs
  | failed s k f anchor hne hs hscan =>
      rw [tokens_of_failed hne hs hscan]
      exact ⟨nofun, .nil⟩

theorem standsBehind_ofText (s : Text) : StandsBehind s [] (ofText s) := ⟨rfl, rfl⟩

end Scanner

/-- Each token of a source ends before the next one begins. -/
theorem tokens_apart (s : Text) :
    (tokenize s).1.Pairwise fun t u => t.start < u.start ∧ t.stop ≤ u.start :=
  (Scanner.standsBehind_ofText s).tokens.2

/-- Every token of a source stands in it. -/
theorem tokens_stand {s : Text} {t : Token} (ht : t ∈ (tokenize s).1)
    (hend : t.lexeme ≠ .endOfInput) : t.StandsIn s :=
  ((Scanner.standsBehind_ofText s).tokens.1 t ht).2 hend

/-- Between the start and the stop of a name stands the name. -/
theorem slice_ident {s name : Text} {t : Token} (ht : t ∈ (tokenize s).1)
    (hname : t.lexeme = .ident name) : s.slice t.start t.stop = name := by
  obtain ⟨-, b, hscan⟩ := tokens_stand ht (by rw [hname]; exact nofun)
  rw [hname] at hscan
  rw [← Lexeme.take_ident hscan, List.take_left]

end GlyphFormat
