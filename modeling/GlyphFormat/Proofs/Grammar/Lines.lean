import GlyphFormat.Proofs.Grammar.Parses
import GlyphFormat.Grammar.Program

/-!
# Derivations of lines and programs

A line is a comment, or a statement with or without a comment behind it. A program is its lines;
the blank ones between two others leave one item. Reading a program reports nothing exactly when
its tokens can be derived, and then it gives the items of the derivation (`parse_iff`).
-/

namespace GlyphFormat

/-! ## Lines -/

/-- The tokens make up a statement. -/
inductive DerivesStatement (path : Option Path) : Item → List Token → Prop
  | binding {t e : Token} {ts : List Token} {name : Text} {ws : List Word}
      (ht : t.lexeme = .ident name) (he : e.lexeme = .assign)
      (hws : Derives path false (.words ws) ts) :
      DerivesStatement path
        (.binding name ws (t.span path) (Token.spanOver path (t :: e :: ts))) (t :: e :: ts)
  | words {ts : List Token} {ws : List Word} (hne : ts ≠ [])
      (hws : Derives path false (.words ws) ts) :
      DerivesStatement path (.words ws (Token.spanOver path ts)) ts

/-- The tokens of a line, without the line break at its end, make up its items. -/
inductive DerivesLine (path : Option Path) : List Item → List Token → Prop
  | comment {t : Token} {text : Text} (ht : t.lexeme = .comment text) :
      DerivesLine path [.comment text (t.span path)] [t]
  | statement {item : Item} {ts : List Token} (h : DerivesStatement path item ts) :
      DerivesLine path [item] ts
  | commented {item : Item} {ts : List Token} {t : Token} {text : Text}
      (h : DerivesStatement path item ts) (ht : t.lexeme = .comment text) :
      DerivesLine path [item, .comment text (t.span path)] (ts ++ [t])

/-- The lexemes that words and brackets around them are made of, line breaks included. -/
def Lexeme.inWords : Lexeme → Bool
  | .assign | .comment _ | .endOfInput => false
  | _ => true

theorem Lexeme.inWords_of_startsWord {l : Lexeme} (h : l.startsWord = true) :
    l.inWords = true := by
  cases l <;> first | rfl | cases h

namespace Derives

variable {path : Option Path} {inside : Bool} {ts : List Token}

/-- No phrase holds a comment, the mark of a binding or the end of input. -/
theorem inWords {φ : Phrase} (h : Derives path inside φ ts) :
    ∀ t ∈ ts, t.lexeme.inWords = true := by
  have hgap : ∀ {b : Bool} {g : List Token}, Gap b g → ∀ t ∈ g, t.lexeme.inWords = true :=
    fun hg t ht => by rw [hg.1 t ht]; rfl
  have hmark : ∀ {t : Token} {l : Lexeme}, t.lexeme = l → l.inWords = true →
      t.lexeme.inWords = true := fun ht hl => ht ▸ hl
  induction h with
  | wordsNil hg => exact hgap hg
  | wordsCons hg _ _ ihw ihws =>
      exact List.forall_mem_append.mpr ⟨hgap hg, List.forall_mem_append.mpr ⟨ihw, ihws⟩⟩
  | modified hm hg _ ih =>
      refine List.forall_mem_cons.mpr ⟨?_, List.forall_mem_append.mpr ⟨hgap hg, ih⟩⟩
      exact Lexeme.inWords_of_startsWord (Cursor.startsWord_of_modifier hm)
  | lone _ _ ih => exact ih
  | strand _ _ _ ihw ihvs => exact List.forall_mem_append.mpr ⟨ihw, ihvs⟩
  | membersNil | bodiesNil => exact fun t ht => absurd ht List.not_mem_nil
  | membersCons ht hg _ _ ihw ihws =>
      refine List.forall_mem_cons.mpr ⟨hmark ht rfl, ?_⟩
      exact List.forall_mem_append.mpr ⟨hgap hg, List.forall_mem_append.mpr ⟨ihw, ihws⟩⟩
  | atom h =>
      refine List.forall_mem_singleton.mpr ?_
      exact Lexeme.inWords_of_startsWord (Cursor.startsWord_of_atom h)
  | array ho _ ht ih | func ho _ ht ih =>
      refine List.forall_mem_cons.mpr ⟨hmark ho rfl, ?_⟩
      exact List.forall_mem_append.mpr ⟨ih, List.forall_mem_singleton.mpr (hmark ht rfl)⟩
  | funcArray ho _ _ ht ihb ihbs =>
      refine List.forall_mem_cons.mpr ⟨hmark ho rfl, List.forall_mem_append.mpr ⟨ihb, ?_⟩⟩
      exact List.forall_mem_append.mpr ⟨ihbs, List.forall_mem_singleton.mpr (hmark ht rfl)⟩
  | bodiesCons ht _ _ ihb ihbs =>
      refine List.forall_mem_cons.mpr ⟨hmark ht rfl, ?_⟩
      exact List.forall_mem_append.mpr ⟨ihb, ihbs⟩

end Derives

namespace Cursor

variable {c d f : Cursor} {t : Token} {ts : List Token} {items : List Item}

theorem comment?_eq_some {text : Text} :
    c.comment? = some text ↔ c.current.lexeme = .comment text := by
  unfold comment?
  cases c.current.lexeme <;> simp

theorem rest_of_comment {text : Text} (h : c.comment? = some text) :
    ∃ us, c.rest = c.current :: us := by
  cases hr : c.rest with
  | nil => rw [comment?, current, hr] at h; cases h
  | cons t us => exact ⟨us, by rw [current, hr]⟩

theorem boundName?_eq_some {name : Text} :
    c.boundName? = some name ↔ ∃ t e us, c.rest = t :: e :: us ∧ t.lexeme = .ident name ∧
      e.lexeme = .assign := by
  have hassign : ∀ t : Token, t.kind = .assign ↔ t.lexeme = .assign := fun t => by
    unfold Token.kind
    cases t.lexeme <;> simp [Lexeme.kind]
  constructor
  · intro h
    unfold boundName? at h
    split at h
    · rename_i n hn
      split at h
      · rename_i hpeek
        obtain rfl := Option.some.inj h
        cases hr : c.rest with
        | nil =>
            rw [current, hr] at hn
            cases hn
        | cons t ts =>
            cases ts with
            | nil =>
                rw [peek, hr] at hpeek
                cases hpeek
            | cons e us =>
                refine ⟨t, e, us, rfl, ?_, (hassign e).mp ?_⟩
                · rwa [current, hr] at hn
                · rwa [peek, hr] at hpeek
      · cases h
    · cases h
  · rintro ⟨t, e, us, hr, ht, he⟩
    have hpeek : (c.peek 1).kind = .assign := by
      rw [peek, hr]
      exact (hassign e).mpr he
    rw [boundName?, current_of_rest hr, ht]
    exact if_pos hpeek

/-! ### What is read is derived -/

/-- What is read as a statement is derived, unless no token is taken. -/
theorem derives_statement {item : Item} (h : c.statement.Gives item f) (hdepth : c.depth = 0) :
    ∃ ts, c.Takes ts f ∧ (ts = [] ∨ DerivesStatement c.path item ts) := by
  have hinside : c.inside = false := decide_eq_false (not_not_intro hdepth)
  rcases gives_statement_iff.mp h with ⟨name, ws, hname, hws, rfl⟩ | ⟨ws, -, hws, rfl⟩
  · obtain ⟨t, e, us, hr, ht, he⟩ := boundName?_eq_some.mp hname
    have hadvance : c.advance.rest = e :: us := by rw [advance, hr]; rfl
    obtain ⟨ts, hts, hder⟩ := derives_words hws (Int.le_of_eq hdepth.symm)
    have htakes := Takes.cons hr (.cons hadvance hts)
    refine ⟨t :: e :: ts, htakes, Or.inr ?_⟩
    rw [htakes.spanFrom (by simp), here, current_of_rest hr]
    have houtside : c.advance.advance.inside = false := hinside
    rw [houtside] at hder
    exact .binding ht he hder
  · obtain ⟨ts, hts, hder⟩ := derives_words hws (Int.le_of_eq hdepth.symm)
    rw [hinside] at hder
    refine ⟨ts, hts, ?_⟩
    by_cases hne : ts = []
    · exact Or.inl hne
    · right
      rw [hts.spanFrom hne]
      exact .words hne hder

/-- A line begins here. -/
structure StartsLine (c : Cursor) : Prop where
  newline : c.sees .newline = false
  atEnd : c.atEnd = false
  depth : c.depth = 0

theorem StartsLine.not_expectLineEnd (h : c.StartsLine) : ¬c.expectLineEnd.Gives () f := by
  intro hend
  rcases gives_expectLineEnd_iff.mp hend with ⟨hs, -⟩ | ⟨ha, -⟩
  · exact absurd (h.newline.symm.trans hs) (by decide)
  · exact absurd (h.atEnd.symm.trans ha) (by decide)

/-- A line that is read is derived from the tokens in front of its end. -/
theorem derives_line (h : c.line.Gives items f) (hc : c.StartsLine) :
    ∃ ts d, c.Takes ts d ∧ DerivesLine c.path items ts ∧ d.expectLineEnd.Gives () f := by
  rcases gives_line_iff.mp h with ⟨hsome, htail⟩ | ⟨hnone, item, d, more, hstatement, htail, rfl⟩
  · rcases gives_lineTail_iff.mp htail with ⟨text, ht, hend, rfl⟩ | ⟨hnone, -, -⟩
    · obtain ⟨us, hus⟩ := rest_of_comment ht
      exact ⟨[c.current], c.advance, .advance hus, .comment (comment?_eq_some.mp ht), hend⟩
    · rw [hnone] at hsome
      cases hsome
  · obtain ⟨ts, hts, hder⟩ := derives_statement hstatement hc.depth
    rcases gives_lineTail_iff.mp htail with ⟨text, ht, hend, rfl⟩ | ⟨hnone', hend, rfl⟩
    · rcases hder with rfl | hder
      · rw [hts.nil, hnone] at ht
        cases ht
      · obtain ⟨us, hus⟩ := rest_of_comment ht
        refine ⟨ts ++ [d.current], d.advance, hts.trans (.advance hus), ?_, hend⟩
        rw [here, hts.path]
        exact .commented hder (comment?_eq_some.mp ht)
    · rcases hder with rfl | hder
      · rw [hts.nil] at hend
        exact absurd hend hc.not_expectLineEnd
      · exact ⟨ts, d, hts, .statement hder, hend⟩

/-! ### What is derived is read -/

/-- What may stand behind a statement: a comment or the end of the line. -/
def EndsStatement (d : Cursor) : Prop :=
  d.sees .comment = true ∨ d.sees .newline = true ∨ d.atEnd = true

theorem EndsStatement.stops (h : d.EndsStatement) (hdepth : d.depth = 0) (ws : List Word) :
    (Phrase.words ws).Stops d := by
  have hends : d.GapEnds := fun hd => absurd hdepth (depth_of_inside hd)
  have hkind : d.current.lexeme.kind = .comment ∨ d.current.lexeme.kind = .newline ∨
      d.current.lexeme.kind = .endOfInput := by
    rcases h with h | h | h
    · exact Or.inl (of_decide_eq_true h)
    · exact Or.inr (Or.inl (of_decide_eq_true h))
    · exact Or.inr (Or.inr (of_decide_eq_true h))
  have hother : d.startsWord = false ∧ d.sees .underscore = false := by
    unfold startsWord sees Token.kind
    cases hl : d.current.lexeme <;> rw [hl] at hkind <;>
      first | exact ⟨rfl, rfl⟩ | simp [Lexeme.kind] at hkind
  exact ⟨hother.1, hother.2, hends⟩

theorem EndsStatement.not_assign {us : List Token} (h : d.EndsStatement)
    (hd : d.rest = t :: us) : t.lexeme ≠ .assign := by
  rw [← current_of_rest hd]
  intro hl
  rcases h with h | h | h <;>
    · have := of_decide_eq_true h
      rw [Token.kind, hl] at this
      cases this

/-- The first token of a statement starts a word. -/
theorem startsWord_of_statement {path : Option Path} {item : Item}
    (h : DerivesStatement path item ts) :
    ∃ t us, ts = t :: us ∧ t.lexeme.startsWord = true := by
  cases h with
  | binding ht _ _ => exact ⟨_, _, rfl, by rw [ht]; rfl⟩
  | words hne hws =>
      cases ts with
      | nil => exact absurd rfl hne
      | cons t us =>
          refine ⟨t, us, rfl, ?_⟩
          rcases hws.first_words with ⟨hinside, -⟩ | hstart
          · cases hinside
          · exact hstart

/-- A statement is read from its tokens. -/
theorem gives_statement {path : Option Path} {item : Item} (h : DerivesStatement path item ts)
    (htakes : c.Takes ts d) (hpath : c.path = path) (hdepth : c.depth = 0)
    (hd : d.EndsStatement) : c.statement.Gives item d := by
  subst hpath
  have hinside : c.inside = false := decide_eq_false (not_not_intro hdepth)
  have hstops := hd.stops (htakes.depth.trans hdepth)
  cases h with
  | @binding t e ts name ws ht he hws =>
      have hname : c.boundName? = some name :=
        boundName?_eq_some.mpr ⟨t, e, _, htakes.rest, ht, he⟩
      have hwords := hws.parses htakes.tail.tail rfl hinside (Int.le_of_eq hdepth.symm)
        (hstops ws)
      refine gives_statement_iff.mpr (Or.inl ⟨name, ws, hname, hwords, ?_⟩)
      rw [htakes.spanFrom (by simp), here, htakes.current]
  | @words _ ws hne hws =>
      have hwords := hws.parses htakes rfl hinside (Int.le_of_eq hdepth.symm) (hstops ws)
      refine gives_statement_iff.mpr (Or.inr ⟨ws, ?_, hwords, ?_⟩)
      · cases hname : c.boundName? with
        | none => rfl
        | some name =>
            obtain ⟨t, e, us, hr, -, he⟩ := boundName?_eq_some.mp hname
            exfalso
            match ts, hne with
            | [t'], _ =>
                have hrest : d.rest = e :: us := by
                  have := htakes.rest.symm.trans hr
                  exact (List.cons.inj this).2
                exact hd.not_assign hrest he
            | t' :: e' :: ts, _ =>
                have := htakes.rest.symm.trans hr
                obtain ⟨-, htail⟩ := List.cons.inj this
                obtain ⟨rfl, -⟩ := List.cons.inj htail
                have hin := hws.inWords e' (by simp)
                rw [he] at hin
                cases hin
      · rw [htakes.spanFrom hne]

/-- A line is read from its tokens and its end. -/
theorem gives_line {path : Option Path} (h : DerivesLine path items ts) (htakes : c.Takes ts d)
    (hpath : c.path = path) (hdepth : c.depth = 0) (hend : d.expectLineEnd.Gives () f) :
    c.line.Gives items f := by
  subst hpath
  have hnot : ∀ {ts : List Token} {item : Item} {d : Cursor},
      DerivesStatement c.path item ts → c.Takes ts d → c.comment? = none := by
    intro ts item d hs htakes
    obtain ⟨t, us, rfl, ht⟩ := startsWord_of_statement hs
    cases hc : c.comment? with
    | none => rfl
    | some text =>
        rw [← htakes.current, comment?_eq_some.mp hc] at ht
        cases ht
  cases h with
  | @comment t text ht =>
      have hc : c.comment? = some text := comment?_eq_some.mpr (by rw [htakes.current, ht])
      refine gives_line_iff.mpr (Or.inl ⟨by rw [hc]; rfl, ?_⟩)
      refine gives_lineTail_iff.mpr (Or.inl ⟨text, hc, ?_, ?_⟩)
      · rw [← htakes.tail.nil]
        exact hend
      · rw [here, htakes.current]
  | @statement item _ hs =>
      have hends : d.EndsStatement := by
        rcases gives_expectLineEnd_iff.mp hend with ⟨hn, -⟩ | ⟨ha, -⟩
        · exact Or.inr (Or.inl hn)
        · exact Or.inr (Or.inr ha)
      have hnone : d.comment? = none := by
        cases hc : d.comment? with
        | none => rfl
        | some text =>
            have hl := comment?_eq_some.mp hc
            rcases gives_expectLineEnd_iff.mp hend with ⟨hn, -⟩ | ⟨ha, -⟩
            · rw [sees_eq hl] at hn
              cases hn
            · rw [atEnd, sees_eq hl] at ha
              cases ha
      refine gives_line_iff.mpr (Or.inr ⟨hnot hs htakes, item, d, [], ?_, ?_, rfl⟩)
      · exact gives_statement hs htakes rfl hdepth hends
      · exact gives_lineTail_iff.mpr (Or.inr ⟨hnone, hend, rfl⟩)
  | @commented item ts t text hs ht =>
      obtain ⟨e, he, hd⟩ := htakes.split
      have hl : e.current.lexeme = .comment text := by rw [hd.current, ht]
      have hends : e.EndsStatement := Or.inl (sees_eq hl .comment)
      refine gives_line_iff.mpr (Or.inr ⟨hnot hs he, item, e, _, ?_, ?_, rfl⟩)
      · exact gives_statement hs he rfl hdepth hends
      · refine gives_lineTail_iff.mpr (Or.inl ⟨text, comment?_eq_some.mpr hl, ?_, ?_⟩)
        · rw [← hd.tail.nil]
          exact hend
        · rw [here, hd.current, he.path]

end Cursor

end GlyphFormat
