import GlyphFormat.Grammar.Line

/-!
# Successful reads

What it means for each function of the grammar to succeed, one equivalence for each: which
functions must have succeeded before, where, and with what values. Nothing else in the theory of
the grammar opens the functions themselves.
-/

namespace GlyphFormat

namespace Read

variable {α : Type} {c d e : Cursor} {k : Nat} {x : α}

/-- The read succeeds with the value and ends at the cursor. -/
def Gives (r : Read c k α) (x : α) (d : Cursor) : Prop := ∃ h, r = .ok x d h

theorem Gives.follows {r : Read c k α} (h : r.Gives x d) : d.Follows c k := h.1

theorem gives_ok {x' : α} {h : e.Follows c k} :
    (Read.ok x' e h).Gives x d ↔ x = x' ∧ d = e := by
  constructor
  · rintro ⟨h', he⟩
    cases he
    exact ⟨rfl, rfl⟩
  · rintro ⟨rfl, rfl⟩
    exact ⟨h, rfl⟩

theorem not_gives_fail {error : ParseError} {h : e.Follows c 0} :
    ¬(Read.fail error e h : Read c k α).Gives x d := by
  rintro ⟨h', he⟩
  cases he

/-- A read succeeds in one way only. -/
theorem Gives.unique {r : Read c k α} {x' : α} (h : r.Gives x d) (h' : r.Gives x' e) :
    x = x' ∧ d = e := by
  obtain ⟨_, rfl⟩ := h
  obtain ⟨hx, hd⟩ := gives_ok.mp h'
  exact ⟨hx.symm, hd.symm⟩

end Read

namespace Cursor

variable {c d e f : Cursor}

open Read (gives_ok not_gives_fail)

theorem gives_words_iff {ws : List Word} :
    c.words.Gives ws f ↔ ∃ d, c.skipLayout.Gives () d ∧
      ((d.startsWord = false ∧ ws = [] ∧ f = d) ∨
        (d.startsWord = true ∧ ∃ w e vs, d.word.Gives w e ∧ e.words.Gives vs f ∧
          ws = w :: vs)) := by
  constructor
  · intro h
    rw [words] at h
    split at h
    · exact absurd h not_gives_fail
    · rename_i d hd hs
      refine ⟨d, ⟨hd, hs⟩, ?_⟩
      split at h
      · rename_i hstart
        split at h
        · exact absurd h not_gives_fail
        · rename_i w e he hw
          split at h
          · exact absurd h not_gives_fail
          · rename_i vs g hg hvs
            obtain ⟨rfl, rfl⟩ := gives_ok.mp h
            exact Or.inr ⟨hstart, w, e, vs, ⟨he, hw⟩, ⟨hg, hvs⟩, rfl⟩
      · rename_i hstart
        obtain ⟨rfl, rfl⟩ := gives_ok.mp h
        exact Or.inl ⟨Bool.eq_false_iff.mpr hstart, rfl, rfl⟩
  · rintro ⟨d, ⟨hd, hs⟩, h⟩
    rw [words, hs]
    dsimp only
    rcases h with ⟨hstart, rfl, rfl⟩ | ⟨hstart, w, e, vs, ⟨he, hw⟩, ⟨hf, hvs⟩, rfl⟩
    · rw [if_neg (Bool.eq_false_iff.mp hstart)]
      exact gives_ok.mpr ⟨rfl, rfl⟩
    · rw [if_pos hstart, hw]
      dsimp only
      rw [hvs]
      exact gives_ok.mpr ⟨rfl, rfl⟩

theorem gives_word_of_strand {w : Word} (hm : c.modifier? = none) :
    c.word.Gives w f ↔ c.strand.Gives w f := by
  rw [word]
  split
  · rfl
  · rename_i h
    rw [hm] at h
    cases h

theorem gives_word_of_modifier {m w : Word} (hm : c.modifier? = some m) :
    c.word.Gives w f ↔ ∃ d, c.advance.skipLayout.Gives () d ∧ d.startsWord = true ∧
      ∃ v, d.word.Gives v f ∧ w = .modified m v (f.spanFrom c.current) := by
  rw [word]
  split
  · rename_i h
    rw [hm] at h
    cases h
  · rename_i m' h
    obtain rfl : m = m' := Option.some.inj (hm.symm.trans h)
    constructor
    · intro h
      dsimp only at h
      split at h
      · exact absurd h not_gives_fail
      · rename_i d hd hs
        split at h
        · rename_i hstart
          split at h
          · exact absurd h not_gives_fail
          · rename_i v e he hv
            obtain ⟨rfl, rfl⟩ := gives_ok.mp h
            exact ⟨d, ⟨hd, hs⟩, hstart, v, ⟨he, hv⟩, rfl⟩
        · exact absurd h not_gives_fail
    · rintro ⟨d, ⟨hd, hs⟩, hstart, v, ⟨hf, hv⟩, rfl⟩
      dsimp only
      rw [hs]
      dsimp only
      rw [if_pos hstart, hv]
      exact gives_ok.mpr ⟨rfl, rfl⟩

theorem gives_strand_iff {w : Word} :
    c.strand.Gives w f ↔ ∃ t d, c.term.Gives t d ∧
      ((d.members.Gives [] f ∧ w = t) ∨
        ∃ u us, d.members.Gives (u :: us) f ∧
          w = .strand (t :: u :: us) (f.spanFrom c.current)) := by
  constructor
  · intro h
    rw [strand] at h
    split at h
    · exact absurd h not_gives_fail
    · rename_i t d hd ht
      refine ⟨t, d, ⟨hd, ht⟩, ?_⟩
      split at h
      · exact absurd h not_gives_fail
      · rename_i e he hms
        obtain ⟨rfl, rfl⟩ := gives_ok.mp h
        exact Or.inl ⟨⟨he, hms⟩, rfl⟩
      · rename_i u us e he hms
        obtain ⟨rfl, rfl⟩ := gives_ok.mp h
        exact Or.inr ⟨u, us, ⟨he, hms⟩, rfl⟩
  · rintro ⟨t, d, ⟨hd, ht⟩, h⟩
    rw [strand, ht]
    dsimp only
    rcases h with ⟨⟨hf, hms⟩, rfl⟩ | ⟨u, us, ⟨hf, hms⟩, rfl⟩
    · rw [hms]
      exact gives_ok.mpr ⟨rfl, rfl⟩
    · rw [hms]
      exact gives_ok.mpr ⟨rfl, rfl⟩

theorem gives_members_iff {ws : List Word} :
    c.members.Gives ws f ↔
      (c.sees .underscore = false ∧ ws = [] ∧ f = c) ∨
        (c.sees .underscore = true ∧ ∃ d, c.advance.skipLayout.Gives () d ∧
          ∃ t e ts, d.term.Gives t e ∧ e.members.Gives ts f ∧ ws = t :: ts) := by
  constructor
  · intro h
    rw [members] at h
    split at h
    · rename_i hs
      refine Or.inr ⟨hs, ?_⟩
      dsimp only at h
      split at h
      · exact absurd h not_gives_fail
      · rename_i d hd hlayout
        refine ⟨d, ⟨hd, hlayout⟩, ?_⟩
        split at h
        · exact absurd h not_gives_fail
        · rename_i t e he ht
          split at h
          · exact absurd h not_gives_fail
          · rename_i ts g hg hts
            obtain ⟨rfl, rfl⟩ := gives_ok.mp h
            exact ⟨t, e, ts, ⟨he, ht⟩, ⟨hg, hts⟩, rfl⟩
    · rename_i hs
      obtain ⟨rfl, rfl⟩ := gives_ok.mp h
      exact Or.inl ⟨Bool.eq_false_iff.mpr hs, rfl, rfl⟩
  · intro h
    rw [members]
    rcases h with ⟨hs, rfl, rfl⟩ | ⟨hs, d, ⟨hd, hlayout⟩, t, e, ts, ⟨he, ht⟩, ⟨hf, hts⟩, rfl⟩
    · rw [dif_neg (Bool.eq_false_iff.mp hs)]
      exact gives_ok.mpr ⟨rfl, rfl⟩
    · rw [dif_pos hs]
      dsimp only
      rw [hlayout]
      dsimp only
      rw [ht]
      dsimp only
      rw [hts]
      exact gives_ok.mpr ⟨rfl, rfl⟩

/-! ## Brackets -/

theorem gives_close_iff {opening : Token} {k : Lexeme.Kind} {t : Text} :
    (c.close opening k t).Gives () d ↔ c.sees k = true ∧ d = c.advance.closed := by
  unfold close
  constructor
  · intro h
    split at h
    · rename_i hs
      exact ⟨hs, (gives_ok.mp h).2⟩
    · split at h
      · exact absurd h not_gives_fail
      · exact absurd h not_gives_fail
  · rintro ⟨hs, rfl⟩
    rw [if_pos hs]
    exact gives_ok.mpr ⟨rfl, rfl⟩

theorem gives_array_iff {w : Word} :
    c.array.Gives w f ↔ c.sees .openSquare = true ∧ ∃ ws d, c.advance.opened.words.Gives ws d ∧
      d.sees .closeSquare = true ∧ f = d.advance.closed ∧
        w = .array ws (f.spanFrom c.current) := by
  constructor
  · intro h
    rw [array] at h
    split at h
    · rename_i hs
      refine ⟨hs, ?_⟩
      dsimp only at h
      split at h
      · exact absurd h not_gives_fail
      · rename_i ws d hd hws
        split at h
        · exact absurd h not_gives_fail
        · rename_i e he hclose
          obtain ⟨hsees, rfl⟩ := gives_close_iff.mp ⟨he, hclose⟩
          obtain ⟨rfl, rfl⟩ := gives_ok.mp h
          exact ⟨ws, d, ⟨hd, hws⟩, hsees, rfl, rfl⟩
    · exact absurd h not_gives_fail
  · rintro ⟨hs, ws, d, ⟨hd, hws⟩, hsees, rfl, rfl⟩
    obtain ⟨he, hclose⟩ : (d.close c.current .closeSquare "]").Gives () d.advance.closed :=
      gives_close_iff.mpr ⟨hsees, rfl⟩
    rw [array, dif_pos hs]
    dsimp only
    rw [hws]
    dsimp only
    rw [hclose]
    exact gives_ok.mpr ⟨rfl, rfl⟩

theorem gives_alternatives_iff {bs : List (List Word)} :
    c.alternatives.Gives bs f ↔
      (c.sees .pipe = false ∧ bs = [] ∧ f = c) ∨
        (c.sees .pipe = true ∧ ∃ b d cs, c.advance.words.Gives b d ∧ d.alternatives.Gives cs f ∧
          bs = b :: cs) := by
  constructor
  · intro h
    rw [alternatives] at h
    split at h
    · rename_i hs
      refine Or.inr ⟨hs, ?_⟩
      dsimp only at h
      split at h
      · exact absurd h not_gives_fail
      · rename_i b d hd hb
        split at h
        · exact absurd h not_gives_fail
        · rename_i cs e he hcs
          obtain ⟨rfl, rfl⟩ := gives_ok.mp h
          exact ⟨b, d, cs, ⟨hd, hb⟩, ⟨he, hcs⟩, rfl⟩
    · rename_i hs
      obtain ⟨rfl, rfl⟩ := gives_ok.mp h
      exact Or.inl ⟨Bool.eq_false_iff.mpr hs, rfl, rfl⟩
  · intro h
    rw [alternatives]
    rcases h with ⟨hs, rfl, rfl⟩ | ⟨hs, b, d, cs, ⟨hd, hb⟩, ⟨hf, hcs⟩, rfl⟩
    · rw [dif_neg (Bool.eq_false_iff.mp hs)]
      exact gives_ok.mpr ⟨rfl, rfl⟩
    · rw [dif_pos hs]
      dsimp only
      rw [hb]
      dsimp only
      rw [hcs]
      exact gives_ok.mpr ⟨rfl, rfl⟩

theorem gives_func_iff {w : Word} :
    c.func.Gives w f ↔ c.sees .openRound = true ∧ ∃ b d bs e, c.advance.opened.words.Gives b d ∧
      d.alternatives.Gives bs e ∧ e.sees .closeRound = true ∧ f = e.advance.closed ∧
        w = if bs.isEmpty then .func b (f.spanFrom c.current)
          else .funcArray (b :: bs) (f.spanFrom c.current) := by
  constructor
  · intro h
    rw [func] at h
    split at h
    · rename_i hs
      refine ⟨hs, ?_⟩
      dsimp only at h
      split at h
      · exact absurd h not_gives_fail
      · rename_i b d hd hb
        split at h
        · exact absurd h not_gives_fail
        · rename_i bs e he hbs
          split at h
          · exact absurd h not_gives_fail
          · rename_i g hg hclose
            obtain ⟨hsees, rfl⟩ := gives_close_iff.mp ⟨hg, hclose⟩
            obtain ⟨rfl, rfl⟩ := gives_ok.mp h
            exact ⟨b, d, bs, e, ⟨hd, hb⟩, ⟨he, hbs⟩, hsees, rfl, rfl⟩
    · exact absurd h not_gives_fail
  · rintro ⟨hs, b, d, bs, e, ⟨hd, hb⟩, ⟨he, hbs⟩, hsees, rfl, rfl⟩
    obtain ⟨hg, hclose⟩ : (e.close c.current .closeRound ")").Gives () e.advance.closed :=
      gives_close_iff.mpr ⟨hsees, rfl⟩
    rw [func, dif_pos hs]
    dsimp only
    rw [hb]
    dsimp only
    rw [hbs]
    dsimp only
    rw [hclose]
    exact gives_ok.mpr ⟨rfl, rfl⟩

theorem atom?_of_sees {k : Lexeme.Kind} (h : c.sees k = true)
    (hk : k = .openSquare ∨ k = .openRound) : c.current.atom? c.path = none := by
  have hkind : c.current.lexeme.kind = k := of_decide_eq_true h
  unfold Token.atom?
  rcases hk with rfl | rfl <;> cases hl : c.current.lexeme <;> rw [hl] at hkind <;>
    first | rfl | cases hkind

theorem gives_term_iff {w : Word} :
    c.term.Gives w f ↔ (c.current.atom? c.path = some w ∧ f = c.advance) ∨ c.array.Gives w f ∨
      c.func.Gives w f := by
  constructor
  · intro h
    rw [term] at h
    split at h
    · rename_i hatom
      obtain ⟨rfl, rfl⟩ := gives_ok.mp h
      exact Or.inl ⟨hatom, rfl⟩
    · split at h
      · exact Or.inr (Or.inl h)
      · split at h
        · exact Or.inr (Or.inr h)
        · exact absurd h not_gives_fail
  · intro h
    rw [term]
    rcases h with ⟨hatom, rfl⟩ | h | h
    · split
      · rename_i hatom'
        obtain rfl := Option.some.inj (hatom.symm.trans hatom')
        exact gives_ok.mpr ⟨rfl, rfl⟩
      · rename_i hatom'
        rw [hatom] at hatom'
        cases hatom'
    · have hs := (gives_array_iff.mp h).1
      split
      · rename_i hatom
        rw [atom?_of_sees hs (Or.inl rfl)] at hatom
        cases hatom
      · rwa [if_pos hs]
    · have hs := (gives_func_iff.mp h).1
      have hsquare : ¬c.sees .openSquare = true := fun h' => by
        have := (of_decide_eq_true h').symm.trans (of_decide_eq_true hs)
        cases this
      split
      · rename_i hatom
        rw [atom?_of_sees hs (Or.inr rfl)] at hatom
        cases hatom
      · rwa [if_neg hsquare, if_pos hs]

/-! ## Layout and lines -/

theorem gives_skipLayout_outside (h : c.depth = 0) :
    c.skipLayout.Gives () d ↔ d = c := by
  rw [skipLayout, if_pos h, gives_ok]
  exact ⟨And.right, fun h => ⟨rfl, h⟩⟩

theorem gives_skipLayout_newline (h : c.depth ≠ 0) (hs : c.sees .newline = true) :
    c.skipLayout.Gives () d ↔ c.advance.skipLayout.Gives () d := by
  have hcomment : ¬c.sees .comment = true := fun h' => by
    have := (of_decide_eq_true h').symm.trans (of_decide_eq_true hs)
    cases this
  rw [skipLayout, if_neg h, if_neg hcomment, dif_pos hs]
  cases c.advance.skipLayout with
  | ok u e he =>
      dsimp only
      rw [gives_ok, gives_ok]
  | fail error e he => exact ⟨fun h => absurd h not_gives_fail, fun h => absurd h not_gives_fail⟩

theorem gives_skipLayout_else (h : c.depth ≠ 0) (hs : c.sees .newline = false) :
    c.skipLayout.Gives () d ↔ c.sees .comment = false ∧ d = c := by
  rw [skipLayout, if_neg h]
  by_cases hcomment : c.sees .comment = true
  · rw [if_pos hcomment]
    refine ⟨fun h => absurd h not_gives_fail, fun h => ?_⟩
    rw [hcomment] at h
    exact absurd h.1 (by decide)
  · rw [if_neg hcomment, dif_neg (Bool.eq_false_iff.mp hs), gives_ok]
    exact ⟨fun h => ⟨Bool.eq_false_iff.mpr hcomment, h.2⟩, fun h => ⟨rfl, h.2⟩⟩

theorem gives_expectLineEnd_iff :
    c.expectLineEnd.Gives () d ↔
      (c.sees .newline = true ∧ d = c.advance) ∨ (c.atEnd = true ∧ d = c) := by
  have hboth : c.sees .newline = true → c.atEnd = true → False := fun h h' => by
    have := (of_decide_eq_true h').symm.trans (of_decide_eq_true h)
    cases this
  unfold expectLineEnd
  by_cases hs : c.sees .newline = true
  · rw [if_pos hs, gives_ok]
    refine ⟨fun h => Or.inl ⟨hs, h.2⟩, ?_⟩
    rintro (h | h)
    · exact ⟨rfl, h.2⟩
    · exact (hboth hs h.1).elim
  · rw [if_neg hs]
    by_cases he : c.atEnd = true
    · rw [if_pos he, gives_ok]
      refine ⟨fun h => Or.inr ⟨he, h.2⟩, ?_⟩
      rintro (h | h)
      · exact absurd h.1 hs
      · exact ⟨rfl, h.2⟩
    · rw [if_neg he]
      refine ⟨fun h => absurd h not_gives_fail, ?_⟩
      rintro (h | h)
      · exact absurd h.1 hs
      · exact absurd h.1 he

theorem gives_lineTail_iff {items : List Item} :
    c.lineTail.Gives items f ↔
      (∃ text, c.comment? = some text ∧ c.advance.expectLineEnd.Gives () f ∧
        items = [.comment text c.here]) ∨
      (c.comment? = none ∧ c.expectLineEnd.Gives () f ∧ items = []) := by
  constructor
  · intro h
    unfold lineTail at h
    split at h
    · rename_i text hc
      split at h
      · exact absurd h not_gives_fail
      · rename_i d hd hend
        obtain ⟨rfl, rfl⟩ := gives_ok.mp h
        exact Or.inl ⟨text, hc, ⟨hd, hend⟩, rfl⟩
    · rename_i hc
      split at h
      · exact absurd h not_gives_fail
      · rename_i d hd hend
        obtain ⟨rfl, rfl⟩ := gives_ok.mp h
        exact Or.inr ⟨hc, ⟨hd, hend⟩, rfl⟩
  · unfold lineTail
    rintro (⟨text, hc, ⟨hd, hend⟩, rfl⟩ | ⟨hc, ⟨hd, hend⟩, rfl⟩)
    · rw [hc]
      dsimp only
      rw [hend]
      exact gives_ok.mpr ⟨rfl, rfl⟩
    · rw [hc]
      dsimp only
      rw [hend]
      exact gives_ok.mpr ⟨rfl, rfl⟩

theorem gives_statement_iff {item : Item} :
    c.statement.Gives item f ↔
      (∃ name ws, c.boundName? = some name ∧ c.advance.advance.words.Gives ws f ∧
        item = .binding name ws c.here (f.spanFrom c.current)) ∨
      (∃ ws, c.boundName? = none ∧ c.words.Gives ws f ∧
        item = .words ws (f.spanFrom c.current)) := by
  constructor
  · intro h
    unfold statement at h
    split at h
    · rename_i name hname
      split at h
      · exact absurd h not_gives_fail
      · rename_i ws d hd hws
        obtain ⟨rfl, rfl⟩ := gives_ok.mp h
        exact Or.inl ⟨name, ws, hname, ⟨hd, hws⟩, rfl⟩
    · rename_i hname
      split at h
      · exact absurd h not_gives_fail
      · rename_i ws d hd hws
        obtain ⟨rfl, rfl⟩ := gives_ok.mp h
        exact Or.inr ⟨ws, hname, ⟨hd, hws⟩, rfl⟩
  · unfold statement
    rintro (⟨name, ws, hname, ⟨hd, hws⟩, rfl⟩ | ⟨ws, hname, ⟨hd, hws⟩, rfl⟩)
    · rw [hname]
      dsimp only
      rw [hws]
      exact gives_ok.mpr ⟨rfl, rfl⟩
    · rw [hname]
      dsimp only
      rw [hws]
      exact gives_ok.mpr ⟨rfl, rfl⟩

theorem gives_line_iff {items : List Item} :
    c.line.Gives items f ↔
      (c.comment?.isSome = true ∧ c.lineTail.Gives items f) ∨
      (c.comment? = none ∧ ∃ item d more, c.statement.Gives item d ∧ d.lineTail.Gives more f ∧
        items = item :: more) := by
  unfold line
  by_cases hc : c.comment?.isSome = true
  · rw [if_pos hc]
    refine ⟨fun h => Or.inl ⟨hc, h⟩, ?_⟩
    rintro (h | h)
    · exact h.2
    · rw [h.1] at hc
      cases hc
  · rw [if_neg hc]
    have hnone : c.comment? = none := by simpa using hc
    constructor
    · intro h
      refine Or.inr ⟨hnone, ?_⟩
      split at h
      · exact absurd h not_gives_fail
      · rename_i item d hd hstatement
        split at h
        · exact absurd h not_gives_fail
        · rename_i more e he htail
          obtain ⟨rfl, rfl⟩ := gives_ok.mp h
          exact ⟨item, d, more, ⟨hd, hstatement⟩, ⟨he, htail⟩, rfl⟩
    · rintro (h | ⟨-, item, d, more, ⟨hd, hstatement⟩, ⟨hf, htail⟩, rfl⟩)
      · exact absurd h.1 hc
      · rw [hstatement]
        dsimp only
        rw [htail]
        exact gives_ok.mpr ⟨rfl, rfl⟩

end Cursor

end GlyphFormat
