import GlyphFormat.Proofs.Grammar.Faults
import GlyphFormat.Proofs.Grammar.Parses
import GlyphFormat.Proofs.Token.Breaks

/-!
# Walking along a line

Reading moves over tokens one by one and counts the open brackets. `Walks` says so for what is read
and for what is passed over after an error alike: the count is that of the tokens, and no token on
the way ends the line, for line breaks are passed only where a bracket is open.

What is read returns to its count of brackets. What fails stops with at least as many brackets open
as where it began, and its error is at a token that was passed or at the one it stopped at
(`BreaksOff`).
-/

namespace GlyphFormat

open Cursor (depthAfter)

/-! ## Crossing tokens -/

/-- Neither a bracket nor the end of a line. -/
def Lexeme.isPlain : Lexeme → Bool
  | .openSquare | .openRound | .closeSquare | .closeRound | .newline | .endOfInput => false
  | _ => true

theorem Lexeme.nesting_of_isPlain {l : Lexeme} (h : l.isPlain = true) : l.nesting = 0 := by
  cases l <;> first | rfl | cases h

namespace Cursor

variable {t : Token} (depth : Int)

theorem depthAfter_eq (t : Token) : depthAfter depth t = depth + t.lexeme.nesting := by
  unfold depthAfter Lexeme.nesting
  cases t.lexeme <;> first | rfl | exact (Int.add_zero depth).symm

theorem depthAfter_of_isPlain (ht : t.lexeme.isPlain = true) : depthAfter depth t = depth := by
  rw [depthAfter_eq, Lexeme.nesting_of_isPlain ht, Int.add_zero]

theorem depthAfter_newline (ht : t.lexeme = .newline) : depthAfter depth t = depth := by
  rw [depthAfter, ht]

theorem depthAfter_opening (ht : t.lexeme = .openSquare ∨ t.lexeme = .openRound) :
    depthAfter depth t = depth + 1 := by
  rcases ht with ht | ht <;> rw [depthAfter, ht]

theorem depthAfter_closing (ht : t.lexeme = .closeSquare ∨ t.lexeme = .closeRound) :
    depthAfter depth t = depth - 1 := by
  rcases ht with ht | ht <;> rw [depthAfter, ht]

end Cursor

open Cursor (depthAfter_of_isPlain depthAfter_newline depthAfter_opening depthAfter_closing)

/-- Crossing the tokens leads from the one number of open brackets to the other, and over no end of
a line: line breaks are crossed inside brackets only. -/
inductive Crosses : Int → List Token → Int → Prop
  | nil {depth : Int} : Crosses depth [] depth
  | cons {depth depth' : Int} {t : Token} {ts : List Token} (hend : t.lexeme ≠ .endOfInput)
      (hnewline : t.lexeme = .newline → 0 < depth) (h : Crosses (depthAfter depth t) ts depth') :
      Crosses depth (t :: ts) depth'

namespace Crosses

variable {depth depth' depth'' : Int} {t o : Token} {ts us : List Token}

theorem trans (h : Crosses depth ts depth') (h' : Crosses depth' us depth'') :
    Crosses depth (ts ++ us) depth'' := by
  induction h with
  | nil => exact h'
  | cons hend hnewline _ ih => exact .cons hend hnewline (ih h')

theorem plain (ht : t.lexeme.isPlain = true) (h : Crosses depth ts depth') :
    Crosses depth (t :: ts) depth' := by
  refine .cons ?_ ?_ (by rw [depthAfter_of_isPlain depth ht]; exact h) <;>
    · intro hl
      rw [hl] at ht
      cases ht

theorem newline (ht : t.lexeme = .newline) (hdepth : 0 < depth) (h : Crosses depth ts depth') :
    Crosses depth (t :: ts) depth' :=
  .cons (by rw [ht]; exact nofun) (fun _ => hdepth) (by rw [depthAfter_newline depth ht]; exact h)

theorem opening (ho : o.lexeme = .openSquare ∨ o.lexeme = .openRound)
    (h : Crosses (depth + 1) ts depth') : Crosses depth (o :: ts) depth' := by
  refine .cons ?_ ?_ (by rw [depthAfter_opening depth ho]; exact h) <;>
    · intro hl
      rcases ho with ho | ho <;> cases ho.symm.trans hl

theorem closing (ht : t.lexeme = .closeSquare ∨ t.lexeme = .closeRound) :
    Crosses (depth + 1) [t] depth := by
  have hnil : Crosses (depthAfter (depth + 1) t) [] depth := by
    rw [depthAfter_closing _ ht, Int.add_sub_cancel]
    exact .nil
  refine .cons ?_ ?_ hnil <;>
    · intro hl
      rcases ht with ht | ht <;> cases ht.symm.trans hl

/-- The way between brackets and over them. -/
theorem bracketed (ho : o.lexeme = .openSquare ∨ o.lexeme = .openRound)
    (h : Crosses (depth + 1) ts (depth + 1))
    (ht : t.lexeme = .closeSquare ∨ t.lexeme = .closeRound) :
    Crosses depth (o :: (ts ++ [t])) depth :=
  .opening ho (h.trans (.closing ht))

theorem gap {inside : Bool} {g : List Token} (hg : Gap inside g) (hin : inside = true → 0 < depth) :
    Crosses depth g depth := by
  induction g with
  | nil => exact .nil
  | cons t g ih =>
      obtain ⟨hinside, ht, hg⟩ := gap_cons.mp hg
      exact .newline ht (hin hinside) (ih hg)

/-- Tokens that are crossed change the count by their brackets. -/
theorem balance (h : Crosses depth ts depth') :
    depth' = depth + Lexeme.balance (ts.map Token.lexeme) := by
  induction h with
  | nil => exact (Int.add_zero _).symm
  | cons _ _ _ ih =>
      rw [ih, Cursor.depthAfter_eq, List.map_cons, Lexeme.balance, Int.add_assoc]

/-- No end of input is crossed. -/
theorem ne_end (h : Crosses depth ts depth') : ∀ t ∈ ts, t.lexeme ≠ .endOfInput := by
  induction h with
  | nil => exact fun t ht => absurd ht List.not_mem_nil
  | cons hend _ _ ih => exact List.forall_mem_cons.mpr ⟨hend, ih⟩

end Crosses

theorem Token.isPlain_of_atom? {path : Option Path} {t : Token} {w : Word}
    (h : t.atom? path = some w) : t.lexeme.isPlain = true := by
  unfold Token.atom? at h
  cases hl : t.lexeme <;> rw [hl] at h <;> first | rfl | cases h

theorem Token.isPlain_of_modifier? {path : Option Path} {t : Token} {m : Word}
    (h : t.modifier? path = some m) : t.lexeme.isPlain = true := by
  unfold Token.modifier? at h
  cases hl : t.lexeme <;> rw [hl] at h <;> first | rfl | cases h

/-- A phrase opens and closes its brackets. -/
theorem Derives.crosses {path : Option Path} {inside : Bool} {φ : Phrase} {ts : List Token}
    (h : Derives path inside φ ts) :
    ∀ {depth : Int}, 0 ≤ depth → (inside = true → 0 < depth) → Crosses depth ts depth := by
  have hopen : ∀ {depth : Int}, 0 ≤ depth → 0 ≤ depth + 1 ∧ (true = true → 0 < depth + 1) :=
    fun h => ⟨by omega, fun _ => by omega⟩
  induction h with
  | wordsNil hg => exact fun _ hin => .gap hg hin
  | wordsCons hg _ _ ihw ihws =>
      exact fun h hin => (Crosses.gap hg hin).trans ((ihw h hin).trans (ihws h hin))
  | modified hm hg _ ih =>
      exact fun h hin =>
        .plain (Token.isPlain_of_modifier? hm) ((Crosses.gap hg hin).trans (ih h hin))
  | lone _ _ ih => exact ih
  | strand _ _ _ ihw ihvs => exact fun h hin => (ihw h hin).trans (ihvs h hin)
  | membersNil | bodiesNil => exact fun _ _ => .nil
  | membersCons ht hg _ _ ihw ihws =>
      exact fun h hin => .plain (by rw [ht]; rfl)
        ((Crosses.gap hg hin).trans ((ihw h hin).trans (ihws h hin)))
  | atom h => exact fun _ _ => .plain (Token.isPlain_of_atom? h) .nil
  | array ho _ ht ih =>
      exact fun h _ => .bracketed (Or.inl ho) (ih (hopen h).1 (hopen h).2) (Or.inl ht)
  | func ho _ ht ih =>
      exact fun h _ => .bracketed (Or.inr ho) (ih (hopen h).1 (hopen h).2) (Or.inr ht)
  | funcArray ho _ _ ht ihb ihbs =>
      intro depth h _
      obtain ⟨hdepth, hin⟩ := hopen h
      rw [← List.append_assoc]
      exact .bracketed (Or.inr ho) ((ihb hdepth hin).trans (ihbs hdepth hin)) (Or.inr ht)
  | bodiesCons ht _ _ ihb ihbs =>
      exact fun h hin => .plain (by rw [ht]; rfl) ((ihb h hin).trans (ihbs h hin))

/-! ## Walking -/

namespace Cursor

variable {c d f : Cursor} {e : ParseError} {ts us : List Token}

/-- Over the tokens the one cursor gets to the other, with the count of brackets kept. -/
structure Walks (c : Cursor) (ts : List Token) (d : Cursor) : Prop where
  rest : c.rest = ts ++ d.rest
  path : d.path = c.path
  crosses : Crosses c.depth ts d.depth

theorem Walks.refl (c : Cursor) : c.Walks [] c := ⟨rfl, rfl, .nil⟩

theorem Walks.trans (h : c.Walks ts d) (h' : d.Walks us f) : c.Walks (ts ++ us) f where
  rest := by rw [h.rest, h'.rest, List.append_assoc]
  path := h'.path.trans h.path
  crosses := h.crosses.trans h'.crosses

theorem Takes.walks {φ : Phrase} (h : c.Takes ts d) (hder : Derives c.path c.inside φ ts)
    (hdepth : 0 ≤ c.depth) : c.Walks ts d where
  rest := h.rest
  path := h.path
  crosses := by
    rw [h.depth]
    refine hder.crosses hdepth fun hin => ?_
    have := depth_of_inside hin
    omega

/-- A step over a token, after which the count of brackets is that behind the token. -/
theorem walks_step (hend : c.current.lexeme ≠ .endOfInput)
    (hnewline : c.current.lexeme = .newline → 0 < c.depth) :
    c.Walks [c.current] { c.advance with depth := depthAfter c.depth c.current } where
  rest := by
    cases hr : c.rest with
    | nil => exact absurd (by rw [current, hr]) hend
    | cons t us => rw [current_of_rest hr, advance, hr]; rfl
  path := rfl
  crosses := .cons hend hnewline .nil

theorem walks_advance (h : c.current.lexeme.isPlain = true) : c.Walks [c.current] c.advance := by
  have hne : ∀ {l : Lexeme}, l.isPlain = false → c.current.lexeme ≠ l := by
    rintro l hl rfl
    exact absurd (h.symm.trans hl) (by decide)
  have hstep := walks_step (hne rfl) fun hl => absurd hl (hne rfl)
  exact ⟨hstep.rest, rfl, .plain h .nil⟩

theorem walks_opened (h : c.current.lexeme = .openSquare ∨ c.current.lexeme = .openRound) :
    c.Walks [c.current] c.advance.opened := by
  have hstep := c.walks_step (by rcases h with h | h <;> rw [h] <;> exact nofun)
    (by rcases h with h | h <;> rw [h] <;> exact nofun)
  exact ⟨hstep.rest, rfl, .opening h .nil⟩

/-! ### What is read -/

/-- The cursor is reached, with no fewer brackets open. -/
def Reaches (c d : Cursor) : Prop := ∃ ts, c.Walks ts d ∧ c.depth ≤ d.depth

theorem Reaches.depth (h : c.Reaches d) (hc : 0 ≤ c.depth) : 0 ≤ d.depth :=
  Int.le_trans hc h.choose_spec.2

theorem Reaches.trans (h : c.Reaches d) (h' : d.Reaches f) : c.Reaches f := by
  obtain ⟨ts, hts, hle⟩ := h
  obtain ⟨us, hus, hle'⟩ := h'
  exact ⟨ts ++ us, hts.trans hus, Int.le_trans hle hle'⟩

theorem Takes.reaches {φ : Phrase} (h : c.Takes ts d) (hder : Derives c.path c.inside φ ts)
    (hdepth : 0 ≤ c.depth) : c.Reaches d :=
  ⟨ts, h.walks hder hdepth, Int.le_of_eq h.depth.symm⟩

theorem reaches_advance (h : c.current.lexeme.isPlain = true) : c.Reaches c.advance :=
  ⟨_, walks_advance h, Int.le_refl _⟩

theorem reaches_opened (h : c.current.lexeme = .openSquare ∨ c.current.lexeme = .openRound) :
    c.Reaches c.advance.opened :=
  ⟨_, walks_opened h, Int.le_of_lt (Int.lt_succ c.depth)⟩

theorem reaches_of_skipLayout (h : c.skipLayout.Gives () d) (hdepth : 0 ≤ c.depth) :
    c.Reaches d := by
  obtain ⟨g, hg, hgap, -⟩ := gap_of_skipLayout h
  exact hg.reaches (Derives.wordsNil hgap) hdepth

theorem reaches_of_words {ws : List Word} (h : c.words.Gives ws d) (hdepth : 0 ≤ c.depth) :
    c.Reaches d := by
  obtain ⟨ts, hts, hder⟩ := derives_words h hdepth
  exact hts.reaches hder hdepth

theorem reaches_of_word {w : Word} (h : c.word.Gives w d) (hdepth : 0 ≤ c.depth) :
    c.Reaches d := by
  obtain ⟨ts, hts, hder⟩ := derives_word h hdepth
  exact hts.reaches hder hdepth

theorem reaches_of_term {w : Word} (h : c.term.Gives w d) (hdepth : 0 ≤ c.depth) :
    c.Reaches d := by
  obtain ⟨ts, hts, hder, -⟩ := derives_term h hdepth
  exact hts.reaches hder hdepth

theorem reaches_of_alternatives {bs : List (List Word)} (h : c.alternatives.Gives bs d)
    (hdepth : 0 ≤ c.depth) : c.Reaches d := by
  obtain ⟨ts, hts, hder⟩ := derives_alternatives h hdepth
  exact hts.reaches hder hdepth

/-! ### What fails -/

/-- Reading gets to the other cursor and no further. The error is at a token on the way there or at
the one that stands there. -/
def BreaksOff (c : Cursor) (e : ParseError) (f : Cursor) : Prop :=
  ∃ ts, c.Walks ts f ∧ c.depth ≤ f.depth ∧ (e.token ∈ ts ∨ e.token = f.current)

theorem BreaksOff.behind (h : d.BreaksOff e f) (hd : c.Reaches d) : c.BreaksOff e f := by
  obtain ⟨us, hus, hle, htoken⟩ := h
  obtain ⟨ts, hts, hle'⟩ := hd
  exact ⟨ts ++ us, hts.trans hus, Int.le_trans hle' hle,
    htoken.imp_left (List.mem_append_right ts)⟩

/-- An error at the token behind which reading went on. -/
theorem breaksOff_at (hstep : c.Walks [c.current] d) (hle : c.depth ≤ d.depth) (hf : d.Reaches f)
    (htoken : e.token = c.current) : c.BreaksOff e f := by
  obtain ⟨ts, hts, hle'⟩ := hf
  exact ⟨_, hstep.trans hts, Int.le_trans hle hle', Or.inl (by rw [htoken]; simp)⟩

theorem FailsHere.breaksOff (h : c.FailsHere e f) : c.BreaksOff e f := by
  obtain ⟨htoken, rfl⟩ := h
  exact ⟨[], .refl f, Int.le_refl _, Or.inr htoken⟩

theorem breaksOff_skipLayout {c f : Cursor} (h : c.skipLayout.Faults e f) (hdepth : 0 ≤ c.depth) :
    c.BreaksOff e f := by
  obtain ⟨hne, hhere | ⟨hs, h⟩⟩ := faults_skipLayout h
  · exact hhere.breaksOff
  · have hlt := (follows_advance_of_sees hs (by decide)).le
    have hl := (sees_iff rfl).mp hs
    have hwalk : c.Walks [c.current] c.advance :=
      ⟨rest_of_sees hs (by decide), rfl, .newline hl (by omega) .nil⟩
    exact (breaksOff_skipLayout h hdepth).behind ⟨_, hwalk, Int.le_refl _⟩
termination_by c.remaining

/-- A closing bracket that is missing behind an opened one. -/
theorem breaksOff_close {k : Lexeme.Kind} {text : Text}
    (ho : c.current.lexeme = .openSquare ∨ c.current.lexeme = .openRound)
    (hd : c.advance.opened.Reaches d) (h : (d.close c.current k text).Faults e f) :
    c.BreaksOff e f := by
  obtain ⟨htoken | htoken, rfl⟩ := faults_close h
  · exact breaksOff_at (walks_opened ho) (reaches_opened ho).choose_spec.2 hd htoken
  · exact (FailsHere.breaksOff ⟨htoken, rfl⟩).behind ((reaches_opened ho).trans hd)

mutual

theorem breaksOff_words {c f : Cursor} (h : c.words.Faults e f) (hdepth : 0 ≤ c.depth) :
    c.BreaksOff e f := by
  rcases faults_words h with hlayout | ⟨d, hlayout, h⟩
  · exact breaksOff_skipLayout hlayout hdepth
  have hd := reaches_of_skipLayout hlayout hdepth
  have hle := hlayout.follows.le
  rcases h with hw | ⟨w, g, hw, hws⟩
  · exact (breaksOff_word hw (hd.depth hdepth)).behind hd
  · have hg := reaches_of_word hw (hd.depth hdepth)
    have hlt := hw.follows.le
    exact (breaksOff_words hws (hg.depth (hd.depth hdepth))).behind (hd.trans hg)
termination_by 8 * c.remaining + 5

theorem breaksOff_word {c f : Cursor} (h : c.word.Faults e f) (hdepth : 0 ≤ c.depth) :
    c.BreaksOff e f := by
  cases hm : c.modifier? with
  | none => exact breaksOff_strand (faults_word_of_strand hm h) hdepth
  | some m =>
      have hplain := Token.isPlain_of_modifier? hm
      have ha := reaches_advance hplain
      have hlt := (follows_advance_of_ne_end (Token.ne_end_of_modifier? hm)).le
      rcases faults_word_of_modifier hm h with hlayout | ⟨d, hlayout, hw | ⟨htoken, rfl⟩⟩
      · exact (breaksOff_skipLayout hlayout hdepth).behind ha
      · have hd := reaches_of_skipLayout hlayout hdepth
        have hle := hlayout.follows.le
        exact (breaksOff_word hw (hd.depth hdepth)).behind (ha.trans hd)
      · have hd := reaches_of_skipLayout hlayout hdepth
        exact breaksOff_at (walks_advance hplain) (Int.le_refl _) hd htoken
termination_by 8 * c.remaining + 4

theorem breaksOff_strand {c f : Cursor} (h : c.strand.Faults e f) (hdepth : 0 ≤ c.depth) :
    c.BreaksOff e f := by
  rcases faults_strand h with ht | ⟨t, d, ht, hms⟩
  · exact breaksOff_term ht hdepth
  · have hd := reaches_of_term ht hdepth
    have hlt := ht.follows.le
    exact (breaksOff_members hms (hd.depth hdepth)).behind hd
termination_by 8 * c.remaining + 3

theorem breaksOff_members {c f : Cursor} (h : c.members.Faults e f) (hdepth : 0 ≤ c.depth) :
    c.BreaksOff e f := by
  obtain ⟨hs, h⟩ := faults_members h
  have ha := reaches_advance (c := c) (by rw [(sees_iff rfl).mp hs]; rfl)
  have hlt := (follows_advance_of_sees hs (by decide)).le
  rcases h with hlayout | ⟨d, hlayout, h⟩
  · exact (breaksOff_skipLayout hlayout hdepth).behind ha
  have hd := reaches_of_skipLayout hlayout hdepth
  have hle := hlayout.follows.le
  rcases h with ht | ⟨t, g, ht, hms⟩
  · exact (breaksOff_term ht (hd.depth hdepth)).behind (ha.trans hd)
  · have hg := reaches_of_term ht (hd.depth hdepth)
    have hlt' := ht.follows.le
    exact (breaksOff_members hms (hg.depth (hd.depth hdepth))).behind (ha.trans (hd.trans hg))
termination_by 8 * c.remaining

theorem breaksOff_term {c f : Cursor} (h : c.term.Faults e f) (hdepth : 0 ≤ c.depth) :
    c.BreaksOff e f := by
  rcases faults_term h with h | h | h
  · exact breaksOff_array h hdepth
  · exact breaksOff_func h hdepth
  · exact h.breaksOff
termination_by 8 * c.remaining + 2

theorem breaksOff_array {c f : Cursor} (h : c.array.Faults e f) (hdepth : 0 ≤ c.depth) :
    c.BreaksOff e f := by
  rcases faults_array h with h | ⟨hs, h⟩
  · exact h.breaksOff
  have hl : c.current.lexeme = .openSquare ∨ c.current.lexeme = .openRound :=
    Or.inl ((sees_iff rfl).mp hs)
  have ha := reaches_opened hl
  have hlt := opened_lt hs (by decide)
  rcases h with hws | ⟨ws, d, hws, hclose⟩
  · exact (breaksOff_words hws (ha.depth hdepth)).behind ha
  · exact breaksOff_close hl (reaches_of_words hws (ha.depth hdepth)) hclose
termination_by 8 * c.remaining + 1

theorem breaksOff_func {c f : Cursor} (h : c.func.Faults e f) (hdepth : 0 ≤ c.depth) :
    c.BreaksOff e f := by
  rcases faults_func h with h | ⟨hs, h⟩
  · exact h.breaksOff
  have hl : c.current.lexeme = .openSquare ∨ c.current.lexeme = .openRound :=
    Or.inr ((sees_iff rfl).mp hs)
  have ha := reaches_opened hl
  have hlt := opened_lt hs (by decide)
  rcases h with hb | ⟨b, d, hb, h⟩
  · exact (breaksOff_words hb (ha.depth hdepth)).behind ha
  have hd := reaches_of_words hb (ha.depth hdepth)
  have hle := hb.follows.le
  rcases h with hbs | ⟨bs, g, hbs, hclose⟩
  · exact (breaksOff_alternatives hbs (hd.depth (ha.depth hdepth))).behind (ha.trans hd)
  · exact breaksOff_close hl
      (hd.trans (reaches_of_alternatives hbs (hd.depth (ha.depth hdepth)))) hclose
termination_by 8 * c.remaining + 1

theorem breaksOff_alternatives {c f : Cursor} (h : c.alternatives.Faults e f)
    (hdepth : 0 ≤ c.depth) : c.BreaksOff e f := by
  obtain ⟨hs, h⟩ := faults_alternatives h
  have ha := reaches_advance (c := c) (by rw [(sees_iff rfl).mp hs]; rfl)
  have hlt := (follows_advance_of_sees hs (by decide)).le
  rcases h with hb | ⟨b, d, hb, hbs⟩
  · exact (breaksOff_words hb hdepth).behind ha
  · have hd := reaches_of_words hb hdepth
    have hle := hb.follows.le
    exact (breaksOff_alternatives hbs (hd.depth hdepth)).behind (ha.trans hd)
termination_by 8 * c.remaining

end

end Cursor

end GlyphFormat
