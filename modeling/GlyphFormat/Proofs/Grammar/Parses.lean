import GlyphFormat.Proofs.Grammar.Derives

/-!
# Reading along derivations

A derivation is read from its tokens, provided that the token behind them does not go on with the
phrase (`Derives.parses`).
-/

namespace GlyphFormat

/-- The phrase ends in front of the cursor: what stands there does not go on with it. -/
def Phrase.Stops : Phrase → Cursor → Prop
  | .words _, d => d.startsWord = false ∧ d.sees .underscore = false ∧ d.GapEnds
  | .word _, d | .members _, d => d.sees .underscore = false
  | .term _, _ => True
  | .bodies _, d =>
    d.sees .pipe = false ∧ d.startsWord = false ∧ d.sees .underscore = false ∧ d.GapEnds

/-- Reading the phrase succeeds. -/
def Cursor.Parses (c : Cursor) (φ : Phrase) (d : Cursor) : Prop :=
  match φ with
  | .words ws => c.words.Gives ws d
  | .word w => c.word.Gives w d
  | .members ws => c.members.Gives ws d
  | .term w => c.term.Gives w d
  | .bodies bs => c.alternatives.Gives bs d

/-- Wherever the tokens stand in front of the end of the phrase, reading takes them for it. -/
def Phrase.Reads (path : Option Path) (inside : Bool) (φ : Phrase) (ts : List Token) : Prop :=
  ∀ {c d : Cursor}, c.Takes ts d → c.path = path → c.inside = inside → 0 ≤ c.depth →
    φ.Stops d → c.Parses φ d

namespace Cursor

variable {c d : Cursor} {g : List Token}

theorem skipLayout_of_gap (h : c.Takes g d) (hg : Gap c.inside g) (hends : d.GapEnds) :
    c.skipLayout.Gives () d := by
  induction g generalizing c with
  | nil =>
      obtain rfl := h.nil
      by_cases hdepth : d.depth = 0
      · exact (gives_skipLayout_outside hdepth).mpr rfl
      · obtain ⟨hnewline, hcomment⟩ := hends (decide_eq_true hdepth)
        exact (gives_skipLayout_else hdepth hnewline).mpr ⟨hcomment, rfl⟩
  | cons t g ih =>
      obtain ⟨hinside, ht, hg⟩ := gap_cons.mp hg
      have hnewline : c.sees .newline = true := (sees_iff rfl).mpr (by rw [h.current, ht])
      exact (gives_skipLayout_newline (depth_of_inside hinside) hnewline).mpr (ih h.tail hg)

/-- A word starts with a token that is no layout and joins nothing before it. -/
theorem sees_of_startsWord (h : c.startsWord = true) :
    c.sees .newline = false ∧ c.sees .comment = false ∧ c.sees .underscore = false := by
  unfold startsWord at h
  unfold sees Token.kind
  cases hl : c.current.lexeme <;> rw [hl] at h <;> first | exact ⟨rfl, rfl, rfl⟩ | cases h

theorem gapEnds_of_startsWord (h : c.startsWord = true) : c.GapEnds := fun _ =>
  ⟨(sees_of_startsWord h).1, (sees_of_startsWord h).2.1⟩

theorem sees_eq {l : Lexeme} (h : c.current.lexeme = l) (k : Lexeme.Kind) :
    c.sees k = decide (l.kind = k) := by
  rw [sees, Token.kind, h]

/-- What stands between brackets begins behind the opening one, which is counted there, and ends at
the closing one. -/
theorem Takes.exists_bracketed {o t : Token} {ts : List Token} (h : c.Takes (o :: (ts ++ [t])) d)
    (hdepth : 0 ≤ c.depth) : ∃ e, c.advance.opened.Takes ts e ∧ e.current = t ∧
      d = e.advance.closed ∧ c.advance.opened.inside = true ∧ 0 ≤ c.advance.opened.depth := by
  obtain ⟨e, he, hd⟩ := h.tail.split
  refine ⟨e.opened, he.opened, hd.current, ?_, inside_opened hdepth,
    Int.add_nonneg hdepth (by decide)⟩
  rw [hd.tail.nil]
  exact (closed_opened _).symm

end Cursor

namespace Derives

variable {path : Option Path} {inside : Bool} {ts us : List Token} {t : Token}

theorem first_term {w : Word} (h : Derives path inside (.term w) ts) :
    ∃ t us, ts = t :: us ∧ t.lexeme.startsWord = true := by
  cases h with
  | atom h => exact ⟨_, _, rfl, Cursor.startsWord_of_atom h⟩
  | array ho _ _ => exact ⟨_, _, rfl, by rw [ho]; rfl⟩
  | func ho _ _ => exact ⟨_, _, rfl, by rw [ho]; rfl⟩
  | funcArray ho _ _ _ => exact ⟨_, _, rfl, by rw [ho]; rfl⟩

theorem first_word {w : Word} (h : Derives path inside (.word w) ts) :
    ∃ t us, ts = t :: us ∧ t.lexeme.startsWord = true := by
  cases h with
  | modified hm _ _ => exact ⟨_, _, rfl, Cursor.startsWord_of_modifier hm⟩
  | lone _ hw => exact hw.first_term
  | strand _ hw _ =>
      obtain ⟨t, us, hts, ht⟩ := hw.first_term
      exact ⟨t, _, by rw [hts]; rfl, ht⟩

/-- Words begin with a line break, inside brackets, or with the start of a word. -/
theorem first_words {ws : List Word} (h : Derives path inside (.words ws) (t :: ts)) :
    (inside = true ∧ t.lexeme = .newline) ∨ t.lexeme.startsWord = true := by
  have hgap : ∀ {g : List Token}, Gap inside (t :: g) → inside = true ∧ t.lexeme = .newline := by
    intro g hg
    obtain ⟨hinside, ht, -⟩ := gap_cons.mp hg
    exact ⟨hinside, ht⟩
  generalize hφ : Phrase.words ws = φ at h
  generalize hus : t :: ts = us at h
  cases h with
  | wordsNil hg => exact Or.inl (hgap (hus ▸ hg))
  | @wordsCons _ g _ _ _ _ hg hw _ =>
      cases g with
      | cons t' g =>
          obtain ⟨rfl, -⟩ := List.cons.inj hus
          exact Or.inl (hgap hg)
      | nil =>
          obtain ⟨t', us', rfl, ht'⟩ := hw.first_word
          obtain ⟨rfl, -⟩ := List.cons.inj hus
          exact Or.inr ht'
  | _ => cases hφ

/-- A cursor at which tokens of a word are taken. -/
theorem startsWord_at {c d : Cursor} {w : Word} (h : Derives path inside (.word w) ts)
    (htakes : c.Takes ts d) : c.startsWord = true := by
  obtain ⟨t, us, rfl, ht⟩ := h.first_word
  rw [Cursor.startsWord, htakes.current]
  exact ht

/-- No underscore stands in front of words or, where there are no words, behind them. -/
theorem underscore_at {c d : Cursor} {ws : List Word} (h : Derives path inside (.words ws) ts)
    (htakes : c.Takes ts d) (hd : d.sees .underscore = false) : c.sees .underscore = false := by
  cases ts with
  | nil =>
      obtain rfl := htakes.nil
      exact hd
  | cons t ts =>
      have hcur := htakes.current
      rcases h.first_words with ⟨-, hl⟩ | hstart
      · exact Cursor.sees_eq (hcur ▸ hl) .underscore
      · refine (Cursor.sees_of_startsWord ?_).2.2
        rw [Cursor.startsWord, hcur]
        exact hstart

/-- A closing bracket or a bar ends words. -/
theorem stops_of_lexeme {d : Cursor} {l : Lexeme} {ws : List Word} (hd : d.current.lexeme = l)
    (hl : l = .closeSquare ∨ l = .closeRound ∨ l = .pipe) : (Phrase.words ws).Stops d := by
  have hsees := Cursor.sees_eq hd
  have hstart : d.startsWord = l.startsWord := by rw [Cursor.startsWord, hd]
  have hends : d.sees .newline = false → d.sees .comment = false → d.GapEnds :=
    fun h h' _ => ⟨h, h'⟩
  rcases hl with rfl | rfl | rfl <;>
    exact ⟨hstart, hsees .underscore, hends (hsees .newline) (hsees .comment)⟩

/-- Where more bodies begin, or none are left, the words before them end. -/
theorem stops_at {c d : Cursor} {b : List Word} {bs : List (List Word)}
    (h : Derives path inside (.bodies bs) ts) (htakes : c.Takes ts d)
    (hd : (Phrase.bodies bs).Stops d) : (Phrase.words b).Stops c := by
  cases h with
  | bodiesNil =>
      obtain rfl := htakes.nil
      exact hd.2
  | bodiesCons ht _ _ =>
      exact stops_of_lexeme (by rw [htakes.current, ht]) (Or.inr (Or.inr rfl))

/-! ### Reading by one rule -/

theorem reads_wordsNil {g : List Token} (hg : Gap inside g) :
    (Phrase.words []).Reads path inside g := by
  rintro c d htakes rfl rfl - ⟨hstart, -, hends⟩
  refine Cursor.gives_words_iff.mpr ⟨d, Cursor.skipLayout_of_gap htakes hg hends, ?_⟩
  exact Or.inl ⟨hstart, rfl, rfl⟩

theorem reads_wordsCons {g : List Token} {w : Word} {ws : List Word} (hg : Gap inside g)
    (hw : Derives path inside (.word w) ts) (hws : Derives path inside (.words ws) us)
    (ihw : (Phrase.word w).Reads path inside ts) (ihws : (Phrase.words ws).Reads path inside us) :
    (Phrase.words (w :: ws)).Reads path inside (g ++ (ts ++ us)) := by
  rintro c f htakes rfl rfl hdepth hstops
  obtain ⟨d, hd, hrest⟩ := htakes.split
  obtain ⟨e, he, hf⟩ := hrest.split
  have hde := hd.trans he
  have hstart := hw.startsWord_at he
  have hunderscore := hws.underscore_at hf hstops.2.1
  have hword := ihw he hd.path hd.inside (hd.depth_nonneg hdepth) hunderscore
  have hwords := ihws hf hde.path hde.inside (hde.depth_nonneg hdepth) hstops
  refine Cursor.gives_words_iff.mpr ⟨d, ?_, Or.inr ⟨hstart, _, e, _, hword, hwords, rfl⟩⟩
  exact Cursor.skipLayout_of_gap hd hg (Cursor.gapEnds_of_startsWord hstart)

theorem reads_modified {g : List Token} {m w : Word} (hm : t.modifier? path = some m)
    (hg : Gap inside g) (hw : Derives path inside (.word w) ts)
    (ih : (Phrase.word w).Reads path inside ts) :
    (Phrase.word (.modified m w (Token.spanOver path (t :: (g ++ ts))))).Reads path inside
      (t :: (g ++ ts)) := by
  rintro c f htakes rfl rfl hdepth hstops
  obtain ⟨d, hd, hf⟩ := htakes.tail.split
  have hcd := Cursor.Takes.cons htakes.rest hd
  have hstart := hw.startsWord_at hf
  have hmodifier : c.modifier? = some m := by rw [Cursor.modifier?, htakes.current, hm]
  have hword := ih hf hcd.path hcd.inside (hcd.depth_nonneg hdepth) hstops
  refine (Cursor.gives_word_of_modifier hmodifier).mpr ⟨d, ?_, hstart, _, hword, ?_⟩
  · exact Cursor.skipLayout_of_gap hd hg (Cursor.gapEnds_of_startsWord hstart)
  · rw [htakes.spanFrom (by simp)]

theorem reads_lone {w : Word} (hm : t.modifier? path = none)
    (ih : (Phrase.term w).Reads path inside (t :: ts)) :
    (Phrase.word w).Reads path inside (t :: ts) := by
  rintro c f htakes rfl rfl hdepth hstops
  have hmodifier : c.modifier? = none := by rw [Cursor.modifier?, htakes.current, hm]
  have hterm := ih htakes rfl rfl hdepth trivial
  have hmembers : f.members.Gives [] f := Cursor.gives_members_iff.mpr (Or.inl ⟨hstops, rfl, rfl⟩)
  refine (Cursor.gives_word_of_strand hmodifier).mpr ?_
  exact Cursor.gives_strand_iff.mpr ⟨_, f, hterm, Or.inl ⟨hmembers, rfl⟩⟩

theorem reads_strand {w v : Word} {vs : List Word} (hm : t.modifier? path = none)
    (ihw : (Phrase.term w).Reads path inside (t :: ts))
    (ihvs : (Phrase.members (v :: vs)).Reads path inside us) :
    (Phrase.word (.strand (w :: v :: vs) (Token.spanOver path (t :: ts ++ us)))).Reads path inside
      (t :: ts ++ us) := by
  rintro c f htakes rfl rfl hdepth hstops
  obtain ⟨d, hd, hf⟩ := htakes.split
  have hmodifier : c.modifier? = none := by rw [Cursor.modifier?, htakes.current, hm]
  have hterm := ihw hd rfl rfl hdepth trivial
  have hmembers := ihvs hf hd.path hd.inside (hd.depth_nonneg hdepth) hstops
  refine (Cursor.gives_word_of_strand hmodifier).mpr ?_
  refine Cursor.gives_strand_iff.mpr ⟨_, d, hterm, Or.inr ⟨_, _, hmembers, ?_⟩⟩
  rw [htakes.spanFrom (by simp)]

theorem reads_membersNil : (Phrase.members []).Reads path inside [] := by
  rintro c d htakes rfl rfl - hstops
  obtain rfl := htakes.nil
  exact Cursor.gives_members_iff.mpr (Or.inl ⟨hstops, rfl, rfl⟩)

theorem reads_membersCons {g : List Token} {w : Word} {ws : List Word}
    (ht : t.lexeme = .underscore) (hg : Gap inside g) (hw : Derives path inside (.term w) ts)
    (ihw : (Phrase.term w).Reads path inside ts)
    (ihws : (Phrase.members ws).Reads path inside us) :
    (Phrase.members (w :: ws)).Reads path inside (t :: (g ++ (ts ++ us))) := by
  rintro c f htakes rfl rfl hdepth hstops
  obtain ⟨d, hd, hrest⟩ := htakes.tail.split
  obtain ⟨e, he, hf⟩ := hrest.split
  have hcd := Cursor.Takes.cons htakes.rest hd
  have hce := hcd.trans he
  have hsees : c.sees .underscore = true :=
    (Cursor.sees_iff rfl).mpr (by rw [htakes.current, ht])
  have hstart : d.startsWord = true := by
    obtain ⟨t, us, rfl, hts⟩ := hw.first_term
    rw [Cursor.startsWord, he.current]
    exact hts
  have hterm := ihw he hcd.path hcd.inside (hcd.depth_nonneg hdepth) trivial
  have hmembers := ihws hf hce.path hce.inside (hce.depth_nonneg hdepth) hstops
  refine Cursor.gives_members_iff.mpr (Or.inr ⟨hsees, d, ?_, _, e, _, hterm, hmembers, rfl⟩)
  exact Cursor.skipLayout_of_gap hd hg (Cursor.gapEnds_of_startsWord hstart)

theorem reads_atom {w : Word} (h : t.atom? path = some w) :
    (Phrase.term w).Reads path inside [t] := by
  rintro c d htakes rfl rfl - -
  obtain rfl := htakes.tail.nil
  refine Cursor.gives_term_iff.mpr (Or.inl ⟨?_, rfl⟩)
  rw [htakes.current, h]

theorem reads_array {o : Token} {ws : List Word} (ho : o.lexeme = .openSquare)
    (ih : (Phrase.words ws).Reads path true ts) (ht : t.lexeme = .closeSquare) :
    (Phrase.term (.array ws (Token.spanOver path (o :: (ts ++ [t]))))).Reads path inside
      (o :: (ts ++ [t])) := by
  rintro c f htakes rfl - hdepth -
  obtain ⟨d, hd, hlast, hclosed, hinside, hpositive⟩ := htakes.exists_bracketed hdepth
  have hopen : c.current.lexeme = .openSquare := by rw [htakes.current, ho]
  have hclose : d.current.lexeme = .closeSquare := by rw [hlast, ht]
  have hwords := ih hd rfl hinside hpositive (stops_of_lexeme hclose (Or.inl rfl))
  refine Cursor.gives_term_iff.mpr (Or.inr (Or.inl (Cursor.gives_array_iff.mpr
    ⟨(Cursor.sees_iff rfl).mpr hopen, _, d, hwords, (Cursor.sees_iff rfl).mpr hclose, hclosed,
      ?_⟩)))
  rw [htakes.spanFrom (by simp)]

/-- A function of one body and one of more are read by the same rule. -/
theorem reads_func {o : Token} {b : List Word} {bs : List (List Word)}
    (ho : o.lexeme = .openRound) (hbs : Derives path true (.bodies bs) us)
    (ihb : (Phrase.words b).Reads path true ts) (ihbs : (Phrase.bodies bs).Reads path true us)
    (ht : t.lexeme = .closeRound) :
    (Phrase.term (if bs.isEmpty then .func b (Token.spanOver path (o :: (ts ++ (us ++ [t]))))
      else .funcArray (b :: bs) (Token.spanOver path (o :: (ts ++ (us ++ [t])))))).Reads path inside
      (o :: (ts ++ (us ++ [t]))) := by
  rintro c f htakes rfl - hdepth -
  rw [← List.append_assoc] at htakes ⊢
  obtain ⟨e, hall, hlast, hclosed, hinside, hpositive⟩ := htakes.exists_bracketed hdepth
  obtain ⟨d, hd, he⟩ := hall.split
  have hopen : c.current.lexeme = .openRound := by rw [htakes.current, ho]
  have hclose : e.current.lexeme = .closeRound := by rw [hlast, ht]
  have hstops : (Phrase.bodies bs).Stops e := ⟨Cursor.sees_eq hclose .pipe,
    show (Phrase.words []).Stops e from stops_of_lexeme hclose (Or.inr (Or.inl rfl))⟩
  have hwords := ihb hd rfl hinside hpositive (hbs.stops_at he hstops)
  have hbodies := ihbs he hd.path (hd.inside.trans hinside) (hd.depth_nonneg hpositive) hstops
  refine Cursor.gives_term_iff.mpr (Or.inr (Or.inr (Cursor.gives_func_iff.mpr
    ⟨(Cursor.sees_iff rfl).mpr hopen, _, d, _, e, hwords, hbodies,
      (Cursor.sees_iff rfl).mpr hclose, hclosed, ?_⟩)))
  rw [htakes.spanFrom (by simp)]

theorem reads_bodiesNil : (Phrase.bodies []).Reads path inside [] := by
  rintro c d htakes rfl rfl - hstops
  obtain rfl := htakes.nil
  exact Cursor.gives_alternatives_iff.mpr (Or.inl ⟨hstops.1, rfl, rfl⟩)

theorem reads_bodiesCons {b : List Word} {bs : List (List Word)} (ht : t.lexeme = .pipe)
    (hbs : Derives path inside (.bodies bs) us) (ihb : (Phrase.words b).Reads path inside ts)
    (ihbs : (Phrase.bodies bs).Reads path inside us) :
    (Phrase.bodies (b :: bs)).Reads path inside (t :: (ts ++ us)) := by
  rintro c f htakes rfl rfl hdepth hstops
  obtain ⟨d, hd, hf⟩ := htakes.tail.split
  have hcd := Cursor.Takes.cons htakes.rest hd
  have hsees : c.sees .pipe = true := (Cursor.sees_iff rfl).mpr (by rw [htakes.current, ht])
  have hwords := ihb hd rfl rfl hdepth (hbs.stops_at hf hstops)
  have hbodies := ihbs hf hcd.path hcd.inside (hcd.depth_nonneg hdepth) hstops
  exact Cursor.gives_alternatives_iff.mpr (Or.inr ⟨hsees, _, d, _, hwords, hbodies, rfl⟩)

/-- Reading takes the tokens of a derivation. By induction on the derivation: every phrase inside
another one ends where the next one begins. -/
theorem parses {φ : Phrase} (h : Derives path inside φ ts) : φ.Reads path inside ts := by
  induction h with
  | wordsNil hg => exact reads_wordsNil hg
  | wordsCons hg hw hws ihw ihws => exact reads_wordsCons hg hw hws ihw ihws
  | modified hm hg hw ih => exact reads_modified hm hg hw ih
  | lone hm _ ih => exact reads_lone hm ih
  | strand hm _ _ ihw ihvs => exact reads_strand hm ihw ihvs
  | membersNil => exact reads_membersNil
  | membersCons ht hg hw _ ihw ihws => exact reads_membersCons ht hg hw ihw ihws
  | atom h => exact reads_atom h
  | array ho _ ht ih => exact reads_array ho ih ht
  | func ho _ ht ih => exact reads_func ho .bodiesNil ih reads_bodiesNil ht
  | funcArray ho _ hbs ht ihb ihbs => exact reads_func ho hbs ihb ihbs ht
  | bodiesNil => exact reads_bodiesNil
  | bodiesCons ht _ hbs ihb ihbs => exact reads_bodiesCons ht hbs ihb ihbs

end Derives

end GlyphFormat
