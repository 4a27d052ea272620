import GlyphFormat.Proofs.Grammar.Takes

/-!
# Derivations

The grammar of words as a relation between phrases and the tokens they are made of. What is read
is derived from the tokens that are taken (`Cursor.derives_word` and its like).
-/

namespace GlyphFormat

/-! ## The relation -/

/-- What a piece of the grammar reads. -/
inductive Phrase where
  | words (ws : List Word)
  | word (w : Word)
  /-- The further members of a strand. -/
  | members (ws : List Word)
  | term (w : Word)
  /-- The further bodies of a function. -/
  | bodies (bs : List (List Word))

/-- Tokens that do not count: line breaks, inside brackets only. -/
def Gap (inside : Bool) (g : List Token) : Prop :=
  (∀ t ∈ g, t.lexeme = .newline) ∧ (inside = false → g = [])

theorem Gap.nil {inside : Bool} : Gap inside [] :=
  ⟨fun _ h => absurd h List.not_mem_nil, fun _ => rfl⟩

theorem gap_cons {inside : Bool} {t : Token} {g : List Token} :
    Gap inside (t :: g) ↔ inside = true ∧ t.lexeme = .newline ∧ Gap inside g := by
  constructor
  · rintro ⟨hall, hout⟩
    rw [List.forall_mem_cons] at hall
    exact ⟨Bool.of_not_eq_false fun h => (nomatch hout h), hall.1, hall.2, fun h => nomatch hout h⟩
  · rintro ⟨rfl, ht, hg⟩
    exact ⟨List.forall_mem_cons.mpr ⟨ht, hg.1⟩, nofun⟩

theorem Gap.append {inside : Bool} {g g' : List Token} (h : Gap inside g) (h' : Gap inside g') :
    Gap inside (g ++ g') :=
  ⟨List.forall_mem_append.mpr ⟨h.1, h'.1⟩, fun hin => by rw [h.2 hin, h'.2 hin]; rfl⟩

/-- The tokens make up the phrase, inside brackets or outside. -/
inductive Derives (path : Option Path) : Bool → Phrase → List Token → Prop
  | wordsNil {inside : Bool} {g : List Token} (hg : Gap inside g) :
      Derives path inside (.words []) g
  | wordsCons {inside : Bool} {g ts us : List Token} {w : Word} {ws : List Word}
      (hg : Gap inside g) (hw : Derives path inside (.word w) ts)
      (hws : Derives path inside (.words ws) us) :
      Derives path inside (.words (w :: ws)) (g ++ (ts ++ us))
  | modified {inside : Bool} {t : Token} {g ts : List Token} {m w : Word}
      (hm : t.modifier? path = some m) (hg : Gap inside g)
      (hw : Derives path inside (.word w) ts) :
      Derives path inside (.word (.modified m w (Token.spanOver path (t :: (g ++ ts)))))
        (t :: (g ++ ts))
  | lone {inside : Bool} {t : Token} {ts : List Token} {w : Word}
      (hm : t.modifier? path = none) (hw : Derives path inside (.term w) (t :: ts)) :
      Derives path inside (.word w) (t :: ts)
  | strand {inside : Bool} {t : Token} {ts us : List Token} {w v : Word} {vs : List Word}
      (hm : t.modifier? path = none) (hw : Derives path inside (.term w) (t :: ts))
      (hvs : Derives path inside (.members (v :: vs)) us) :
      Derives path inside (.word (.strand (w :: v :: vs) (Token.spanOver path (t :: ts ++ us))))
        (t :: ts ++ us)
  | membersNil {inside : Bool} : Derives path inside (.members []) []
  | membersCons {inside : Bool} {t : Token} {g ts us : List Token} {w : Word} {ws : List Word}
      (ht : t.lexeme = .underscore) (hg : Gap inside g)
      (hw : Derives path inside (.term w) ts) (hws : Derives path inside (.members ws) us) :
      Derives path inside (.members (w :: ws)) (t :: (g ++ (ts ++ us)))
  | atom {inside : Bool} {t : Token} {w : Word} (h : t.atom? path = some w) :
      Derives path inside (.term w) [t]
  | array {inside : Bool} {o t : Token} {ts : List Token} {ws : List Word}
      (ho : o.lexeme = .openSquare) (hws : Derives path true (.words ws) ts)
      (ht : t.lexeme = .closeSquare) :
      Derives path inside (.term (.array ws (Token.spanOver path (o :: (ts ++ [t])))))
        (o :: (ts ++ [t]))
  | func {inside : Bool} {o t : Token} {ts : List Token} {b : List Word}
      (ho : o.lexeme = .openRound) (hb : Derives path true (.words b) ts)
      (ht : t.lexeme = .closeRound) :
      Derives path inside (.term (.func b (Token.spanOver path (o :: (ts ++ [t])))))
        (o :: (ts ++ [t]))
  | funcArray {inside : Bool} {o t : Token} {ts us : List Token} {b b' : List Word}
      {bs : List (List Word)} (ho : o.lexeme = .openRound)
      (hb : Derives path true (.words b) ts) (hbs : Derives path true (.bodies (b' :: bs)) us)
      (ht : t.lexeme = .closeRound) :
      Derives path inside
        (.term (.funcArray (b :: b' :: bs) (Token.spanOver path (o :: (ts ++ (us ++ [t]))))))
        (o :: (ts ++ (us ++ [t])))
  | bodiesNil {inside : Bool} : Derives path inside (.bodies []) []
  | bodiesCons {inside : Bool} {t : Token} {ts us : List Token} {b : List Word}
      {bs : List (List Word)} (ht : t.lexeme = .pipe) (hb : Derives path inside (.words b) ts)
      (hbs : Derives path inside (.bodies bs) us) :
      Derives path inside (.bodies (b :: bs)) (t :: (ts ++ us))

namespace Cursor

variable {c d : Cursor}

/-! ## What is read is derived -/

theorem gap_of_skipLayout {c d : Cursor} (h : c.skipLayout.Gives () d) :
    ∃ g, c.Takes g d ∧ Gap c.inside g ∧ d.GapEnds := by
  by_cases hdepth : c.depth = 0
  · obtain rfl := (gives_skipLayout_outside hdepth).mp h
    exact ⟨[], .refl d, .nil, fun hd => absurd hdepth (depth_of_inside hd)⟩
  by_cases hs : c.sees .newline = true
  · have hus := rest_of_sees hs (by decide)
    have hlt := (follows_advance_of_sees hs (by decide)).le
    obtain ⟨g, hg, hgap, hends⟩ := gap_of_skipLayout ((gives_skipLayout_newline hdepth hs).mp h)
    refine ⟨c.current :: g, .cons hus hg, ?_, hends⟩
    exact gap_cons.mpr ⟨decide_eq_true hdepth, (sees_iff rfl).mp hs, hgap⟩
  · have hs := Bool.eq_false_iff.mpr hs
    obtain ⟨hcomment, rfl⟩ := (gives_skipLayout_else hdepth hs).mp h
    exact ⟨[], .refl d, .nil, fun _ => ⟨hs, hcomment⟩⟩
termination_by c.remaining

theorem startsWord_of_modifier {path : Option Path} {t : Token} {m : Word}
    (h : t.modifier? path = some m) : t.lexeme.startsWord = true := by
  unfold Token.modifier? at h
  split at h
  · rename_i hl
    rw [hl]
    rfl
  · rename_i hl
    rw [hl]
    rfl
  · cases h

theorem startsWord_of_atom {path : Option Path} {t : Token} {w : Word}
    (h : t.atom? path = some w) : t.lexeme.startsWord = true := by
  unfold Token.atom? at h
  cases hl : t.lexeme <;> rw [hl] at h <;> first | rfl | cases h

/-- A cursor at which a word starts is not at the end of the tokens. -/
theorem rest_of_startsWord (h : c.startsWord = true) :
    c.rest = c.current :: c.advance.rest := by
  cases hr : c.rest with
  | nil => rw [startsWord, current, hr] at h; cases h
  | cons t us => rw [current, advance, hr]; rfl

mutual

theorem derives_words {c f : Cursor} {ws : List Word} (h : c.words.Gives ws f)
    (hdepth : 0 ≤ c.depth) : ∃ ts, c.Takes ts f ∧ Derives c.path c.inside (.words ws) ts := by
  obtain ⟨d, hlayout, h⟩ := gives_words_iff.mp h
  obtain ⟨g, hg, hgap, -⟩ := gap_of_skipLayout hlayout
  have hd := hlayout.follows.le
  rcases h with ⟨-, rfl, rfl⟩ | ⟨-, w, e, vs, hw, hvs, rfl⟩
  · exact ⟨g, hg, .wordsNil hgap⟩
  · have he := hw.follows.le
    obtain ⟨ts, hts, hderw⟩ := derives_word hw (hg.depth_nonneg hdepth)
    have hge := hg.trans hts
    obtain ⟨us, hus, hdervs⟩ := derives_words hvs (hge.depth_nonneg hdepth)
    rw [hg.path, hg.inside] at hderw
    rw [hge.path, hge.inside] at hdervs
    exact ⟨g ++ (ts ++ us), hg.trans (hts.trans hus), .wordsCons hgap hderw hdervs⟩
termination_by 8 * c.remaining + 5

theorem derives_word {c f : Cursor} {w : Word} (h : c.word.Gives w f) (hdepth : 0 ≤ c.depth) :
    ∃ ts, c.Takes ts f ∧ Derives c.path c.inside (.word w) ts := by
  cases hm : c.modifier? with
  | none => exact derives_strand hm ((gives_word_of_strand hm).mp h) hdepth
  | some m =>
      obtain ⟨d, hlayout, -, v, hv, rfl⟩ := (gives_word_of_modifier hm).mp h
      have hus := rest_of_startsWord (startsWord_of_modifier hm)
      obtain ⟨g, hg, hgap, -⟩ := gap_of_skipLayout hlayout
      have ha := (follows_advance_of_ne_end (Token.ne_end_of_modifier? hm)).le
      have hd := hlayout.follows.le
      have hcd := Takes.cons hus hg
      obtain ⟨ts, hts, hderv⟩ := derives_word hv (hcd.depth_nonneg hdepth)
      have htakes := Takes.cons hus (hg.trans hts)
      rw [hcd.path, hcd.inside] at hderv
      refine ⟨c.current :: (g ++ ts), htakes, ?_⟩
      rw [htakes.spanFrom (by simp)]
      exact .modified hm hgap hderv
termination_by 8 * c.remaining + 4

theorem derives_strand {c f : Cursor} {w : Word} (hm : c.modifier? = none)
    (h : c.strand.Gives w f) (hdepth : 0 ≤ c.depth) :
    ∃ ts, c.Takes ts f ∧ Derives c.path c.inside (.word w) ts := by
  obtain ⟨t, d, ht, h⟩ := gives_strand_iff.mp h
  obtain ⟨ts, hts, hder, hne⟩ := derives_term ht hdepth
  have hd := ht.follows.le
  cases ts with
  | nil => exact absurd rfl hne
  | cons t' ts =>
      have hcur := hts.current
      have hm' : t'.modifier? c.path = none := by rw [← hcur]; exact hm
      have hdd := hts.depth_nonneg hdepth
      rcases h with ⟨hms, rfl⟩ | ⟨u, us, hms, rfl⟩
      · rcases gives_members_iff.mp hms with ⟨-, -, rfl⟩ | ⟨-, _, _, _, _, _, _, _, hcons⟩
        · exact ⟨t' :: ts, hts, .lone hm' hder⟩
        · cases hcons
      · obtain ⟨vs, hvs, hdervs⟩ := derives_members hms hdd
        have htakes := hts.trans hvs
        rw [hts.path, hts.inside] at hdervs
        refine ⟨t' :: ts ++ vs, htakes, ?_⟩
        rw [htakes.spanFrom (by simp)]
        exact .strand hm' hder hdervs
termination_by 8 * c.remaining + 3

theorem derives_members {c f : Cursor} {ws : List Word} (h : c.members.Gives ws f)
    (hdepth : 0 ≤ c.depth) :
    ∃ ts, c.Takes ts f ∧ Derives c.path c.inside (.members ws) ts := by
  rcases gives_members_iff.mp h with ⟨-, rfl, rfl⟩ | ⟨hs, d, hlayout, t, e, ts, ht, hts, rfl⟩
  · exact ⟨[], .refl f, .membersNil⟩
  · have hus := rest_of_sees hs (by decide)
    obtain ⟨g, hg, hgap, -⟩ := gap_of_skipLayout hlayout
    have ha := (follows_advance_of_sees hs (by decide)).le
    have hd := hlayout.follows.le
    have he := ht.follows.le
    have hcd := Takes.cons hus hg
    obtain ⟨vs, hvs, hder, -⟩ := derives_term ht (hcd.depth_nonneg hdepth)
    have hce := hcd.trans hvs
    obtain ⟨rs, hrs, hders⟩ := derives_members hts (hce.depth_nonneg hdepth)
    rw [hcd.path, hcd.inside] at hder
    rw [hce.path, hce.inside] at hders
    refine ⟨c.current :: (g ++ (vs ++ rs)), .cons hus (hg.trans (hvs.trans hrs)), ?_⟩
    exact .membersCons ((sees_iff rfl).mp hs) hgap hder hders
termination_by 8 * c.remaining

theorem derives_term {c f : Cursor} {w : Word} (h : c.term.Gives w f) (hdepth : 0 ≤ c.depth) :
    ∃ ts, c.Takes ts f ∧ Derives c.path c.inside (.term w) ts ∧ ts ≠ [] := by
  rcases gives_term_iff.mp h with ⟨hatom, rfl⟩ | h | h
  · have hus := rest_of_startsWord (startsWord_of_atom hatom)
    exact ⟨[c.current], .advance hus, .atom hatom, by simp⟩
  · obtain ⟨hs, ws, d, hws, hclose, rfl, rfl⟩ := gives_array_iff.mp h
    have hus := rest_of_sees hs (by decide)
    have hvs := rest_of_sees hclose (by decide)
    have ha := opened_lt hs (by decide)
    have hdd : 0 ≤ c.advance.depth := hdepth
    obtain ⟨ts, hts, hder⟩ := derives_words hws (Int.add_nonneg hdepth (by decide))
    rw [inside_opened hdd] at hder
    have htakes := hts.bracketed hus hvs
    refine ⟨_, htakes, ?_, by simp⟩
    rw [htakes.spanFrom (by simp)]
    exact .array ((sees_iff rfl).mp hs) hder ((sees_iff rfl).mp hclose)
  · obtain ⟨hs, b, d, bs, e, hb, hbs, hclose, rfl, rfl⟩ := gives_func_iff.mp h
    have hus := rest_of_sees hs (by decide)
    have hvs := rest_of_sees hclose (by decide)
    have ha := opened_lt hs (by decide)
    have hd := hb.follows.le
    have hdd : 0 ≤ c.advance.depth := hdepth
    obtain ⟨ts, hts, hder⟩ := derives_words hb (Int.add_nonneg hdepth (by decide))
    obtain ⟨rs, hrs, hders⟩ := derives_alternatives hbs
      (by rw [hts.depth]; exact Int.add_nonneg hdepth (by decide))
    rw [hts.inside, inside_opened hdd, hts.path] at hders
    rw [inside_opened hdd] at hder
    have htakes := (hts.trans hrs).bracketed hus hvs
    refine ⟨_, htakes, ?_, by simp⟩
    rw [htakes.spanFrom (by simp)]
    have hopen := (sees_iff rfl).mp hs
    have hclosed := (sees_iff rfl).mp hclose
    cases bs with
    | nil =>
        cases hders with
        | bodiesNil =>
            rw [List.append_nil]
            exact .func hopen hder hclosed
    | cons b' bs =>
        rw [List.append_assoc]
        exact .funcArray hopen hder hders hclosed
termination_by 8 * c.remaining + 2

theorem derives_alternatives {c f : Cursor} {bs : List (List Word)}
    (h : c.alternatives.Gives bs f) (hdepth : 0 ≤ c.depth) :
    ∃ ts, c.Takes ts f ∧ Derives c.path c.inside (.bodies bs) ts := by
  rcases gives_alternatives_iff.mp h with ⟨-, rfl, rfl⟩ | ⟨hs, b, d, cs, hb, hcs, rfl⟩
  · exact ⟨[], .refl f, .bodiesNil⟩
  · have hus := rest_of_sees hs (by decide)
    have ha := (follows_advance_of_sees hs (by decide)).le
    have hd := hb.follows.le
    obtain ⟨ts, hts, hder⟩ := derives_words hb hdepth
    have hcd := Takes.cons hus hts
    obtain ⟨rs, hrs, hders⟩ := derives_alternatives hcs (hcd.depth_nonneg hdepth)
    rw [hcd.path, hcd.inside] at hders
    exact ⟨c.current :: (ts ++ rs), .cons hus (hts.trans hrs),
      .bodiesCons ((sees_iff rfl).mp hs) hder hders⟩
termination_by 8 * c.remaining

end

end Cursor

end GlyphFormat
