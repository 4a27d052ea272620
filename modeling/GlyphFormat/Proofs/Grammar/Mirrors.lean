import GlyphFormat.Proofs.Grammar.Endings
import GlyphFormat.Proofs.Grammar.LogicalLines
import GlyphFormat.Proofs.Grammar.Moved

/-!
# Reading the same line elsewhere

Reading a line looks at no token behind the line's end. So where the tokens of a line stand some
lines further down, whatever follows them, the same is read there: the same items or the same error,
further down (`Cursor.Mirrors.line_gives`, `Cursor.Mirrors.line_faults`). Endings say this for each
function of the grammar at once, whether it succeeds or fails.
-/

namespace GlyphFormat

open Cursor (depthAfter)

variable {n : Nat} {R : List Token → List Token → Prop}

/-- The line at the front of the one tokens stands, that many lines further down, at the front of
the others. So many brackets are open, and `R` relates what is behind the line's end; behind the end
of input that is nothing. -/
inductive SameLine (n : Nat) (R : List Token → List Token → Prop) :
    Int → List Token → List Token → Prop
  | input {depth : Int} {t : Token} {ts us : List Token} (ht : t.lexeme = .endOfInput)
      (h : R [] []) : SameLine n R depth (t :: ts) (t.down n :: us)
  | stop {depth : Int} {t : Token} {ts us : List Token} (ht : t.lexeme = .newline)
      (hdepth : depth ≤ 0) (h : R ts us) : SameLine n R depth (t :: ts) (t.down n :: us)
  | cons {depth : Int} {t : Token} {ts us : List Token} (hend : t.lexeme ≠ .endOfInput)
      (hnewline : t.lexeme = .newline → 0 < depth) (h : SameLine n R (depthAfter depth t) ts us) :
      SameLine n R depth (t :: ts) (t.down n :: us)

namespace SameLine

variable {depth depth' : Int} {t : Token} {ts us : List Token}

theorem head (h : SameLine n R depth ts us) :
    ∃ t vs ws, ts = t :: vs ∧ us = t.down n :: ws := by
  cases h <;> exact ⟨_, _, _, rfl, rfl⟩

/-- A token that does not end the line is passed on both sides. -/
theorem tail (h : SameLine n R depth (t :: ts) us) (hend : t.lexeme ≠ .endOfInput)
    (hnewline : t.lexeme = .newline → 0 < depth) :
    ∃ vs, us = t.down n :: vs ∧ SameLine n R (depthAfter depth t) ts vs := by
  cases h with
  | input ht _ => exact absurd ht hend
  | stop ht hdepth _ => exact absurd (hnewline ht) (Int.not_lt.mpr hdepth)
  | cons _ _ h => exact ⟨_, rfl, h⟩

theorem past {vs : List Token} (hcrosses : Crosses depth ts depth')
    (h : SameLine n R depth (ts ++ vs) us) :
    ∃ ws, us = ts.map (Token.down n) ++ ws ∧ SameLine n R depth' vs ws := by
  induction hcrosses generalizing us with
  | nil => exact ⟨us, rfl, h⟩
  | cons hend hnewline _ ih =>
      obtain ⟨us', rfl, htail⟩ := h.tail hend hnewline
      obtain ⟨ws, rfl, hrest⟩ := ih htail
      exact ⟨ws, rfl, hrest⟩

end SameLine

/-- The error, that many lines further down. -/
def ParseError.down (n : Nat) (e : ParseError) : ParseError := ⟨e.fault, e.token.down n⟩

namespace Cursor

/-- The cursors are at the same place of the same line, the second that many lines further down. -/
structure Mirrors (n : Nat) (R : List Token → List Token → Prop) (c c' : Cursor) : Prop where
  path : c'.path = c.path
  depth : c'.depth = c.depth
  rest : SameLine n R c.depth c.rest c'.rest

/-! ## What is seen -/

namespace Mirrors

variable {c c' d d' : Cursor}

theorem current (h : c.Mirrors n R c') : c'.current = c.current.down n := by
  obtain ⟨t, vs, ws, hrest, hrest'⟩ := h.rest.head
  rw [current_of_rest hrest, current_of_rest hrest']

theorem lexeme (h : c.Mirrors n R c') : c'.current.lexeme = c.current.lexeme := by
  rw [h.current, Token.lexeme_down]

theorem sees (h : c.Mirrors n R c') (k : Lexeme.Kind) : c'.sees k = c.sees k := by
  rw [Cursor.sees, Token.kind, h.lexeme]
  rfl

theorem atEnd (h : c.Mirrors n R c') : c'.atEnd = c.atEnd := h.sees .endOfInput

theorem startsWord (h : c.Mirrors n R c') : c'.startsWord = c.startsWord := by
  rw [Cursor.startsWord, h.lexeme, Cursor.startsWord]

theorem comment? (h : c.Mirrors n R c') : c'.comment? = c.comment? := by
  rw [Cursor.comment?, h.lexeme, Cursor.comment?]

theorem atom? (h : c.Mirrors n R c') :
    c'.current.atom? c'.path = (c.current.atom? c.path).map (Word.down n) := by
  rw [h.current, h.path, Token.atom?_down]

theorem modifier? (h : c.Mirrors n R c') : c'.modifier? = c.modifier?.map (Word.down n) := by
  rw [Cursor.modifier?, h.current, h.path, Token.modifier?_down, Cursor.modifier?]

/-! ## Steps -/

/-- A step over a token that does not end the line. -/
theorem step (h : c.Mirrors n R c') (hend : c.current.lexeme ≠ .endOfInput)
    (hnewline : c.current.lexeme = .newline → 0 < c.depth) :
    Mirrors n R { c.advance with depth := depthAfter c.depth c.current }
      { c'.advance with depth := depthAfter c'.depth c'.current } where
  path := h.path
  depth := by
    show depthAfter c'.depth c'.current = depthAfter c.depth c.current
    rw [h.depth, depthAfter, h.lexeme, depthAfter]
  rest := by
    have hrest := h.rest
    obtain ⟨t, vs, ws, hc, hc'⟩ := hrest.head
    rw [current_of_rest hc] at hend hnewline ⊢
    rw [hc] at hrest
    obtain ⟨us, hus, htail⟩ := hrest.tail hend hnewline
    show SameLine n R _ c.rest.tail c'.rest.tail
    rw [hc, hus]
    exact htail

theorem advance (h : c.Mirrors n R c') (hplain : c.current.lexeme.isPlain = true) :
    c.advance.Mirrors n R c'.advance := by
  have hne : ∀ {l : Lexeme}, l.isPlain = false → c.current.lexeme ≠ l := by
    rintro l hl rfl
    exact absurd (hplain.symm.trans hl) (by decide)
  have hstep := h.step (hne rfl) fun hl => absurd hl (hne rfl)
  rw [depthAfter_of_isPlain _ hplain,
    depthAfter_of_isPlain _ (show c'.current.lexeme.isPlain = true by rwa [h.lexeme])] at hstep
  exact hstep

theorem newline (h : c.Mirrors n R c') (hs : c.sees .newline = true) (hdepth : 0 < c.depth) :
    c.advance.Mirrors n R c'.advance := by
  have hl := (sees_iff rfl).mp hs
  have hstep := h.step (by rw [hl]; exact nofun) fun _ => hdepth
  rw [depthAfter_newline _ hl, depthAfter_newline _ (h.lexeme.trans hl)] at hstep
  exact hstep

theorem opened (h : c.Mirrors n R c')
    (hl : c.current.lexeme = .openSquare ∨ c.current.lexeme = .openRound) :
    c.advance.opened.Mirrors n R c'.advance.opened := by
  have hstep := h.step (by rcases hl with hl | hl <;> rw [hl] <;> exact nofun)
    (by rcases hl with hl | hl <;> rw [hl] <;> exact nofun)
  rw [depthAfter_opening _ hl, depthAfter_opening _ (by rw [h.lexeme]; exact hl)] at hstep
  exact hstep

theorem closed (h : c.Mirrors n R c')
    (hl : c.current.lexeme = .closeSquare ∨ c.current.lexeme = .closeRound) :
    c.advance.closed.Mirrors n R c'.advance.closed := by
  have hstep := h.step (by rcases hl with hl | hl <;> rw [hl] <;> exact nofun)
    (by rcases hl with hl | hl <;> rw [hl] <;> exact nofun)
  rw [depthAfter_closing _ hl, depthAfter_closing _ (by rw [h.lexeme]; exact hl)] at hstep
  exact hstep

theorem boundName? (h : c.Mirrors n R c') : c'.boundName? = c.boundName? := by
  unfold Cursor.boundName?
  rw [h.lexeme]
  cases hl : c.current.lexeme with
  | ident name =>
      obtain ⟨t, vs, ws, hrest, hrest'⟩ := (h.advance (by rw [hl]; rfl)).rest.head
      have hpeek : ∀ {b : Cursor} {t : Token} {vs : List Token}, b.advance.rest = t :: vs →
          b.peek 1 = t := by
        intro b t vs hb
        rw [peek, ← List.getElem?_tail, show b.rest.tail = t :: vs from hb]
        rfl
      rw [hpeek hrest, hpeek hrest']
      rfl
  | _ => rfl

/-- The end of the line is found at the same place. -/
theorem toLineEnd (h : c.Mirrors n R c') : c.toLineEnd.Mirrors n R c'.toLineEnd := by
  fun_induction Cursor.toLineEnd c generalizing c' with
  | case1 c ha =>
      rw [Cursor.toLineEnd.eq_def c', dif_pos (h.atEnd.trans ha)]
      exact h
  | case2 c ha hs =>
      rw [Cursor.toLineEnd.eq_def c', dif_neg (by rw [h.atEnd]; exact ha),
        if_pos (by rwa [h.sees, h.depth])]
      exact h
  | case3 c ha hs ih =>
      rw [Cursor.toLineEnd.eq_def c', dif_neg (by rw [h.atEnd]; exact ha),
        if_neg (by rwa [h.sees, h.depth])]
      refine ih (h.step (fun hl => ha (sees_eq hl _)) fun hl => Int.not_le.mp fun hle => hs ?_)
      rw [Bool.and_eq_true, decide_eq_true_eq]
      exact ⟨sees_eq hl _, hle⟩

end Mirrors

/-! ## The same ending -/

/-- Both reads end at the same place of the same line, with `P` where they succeed and with the same
error where they fail. -/
inductive Agree (n : Nat) (R : List Token → List Token → Prop) (P : Cursor → Cursor → Prop) :
    Except (ParseError × Cursor) Cursor → Except (ParseError × Cursor) Cursor → Prop
  | ok {d d' : Cursor} (h : P d d') : Agree n R P (.ok d) (.ok d')
  | error {e : ParseError} {d d' : Cursor} (h : d.Mirrors n R d') :
      Agree n R P (.error (e, d)) (.error (e.down n, d'))

/-- The cursors are at the same place, with so many brackets open. -/
def MirrorsAt (n : Nat) (R : List Token → List Token → Prop) (depth : Int) (d d' : Cursor) : Prop :=
  d.Mirrors n R d' ∧ d.depth = depth

namespace Agree

variable {P Q : Cursor → Cursor → Prop} {x x' y y' : Except (ParseError × Cursor) Cursor}
  {f f' : Cursor → Except (ParseError × Cursor) Cursor} {c c' : Cursor}

theorem bind (h : Agree n R P x x')
    (hf : ∀ d d', x = .ok d → P d d' → Agree n R Q (f d) (f' d')) :
    Agree n R Q (x >>= f) (x' >>= f') := by
  cases h with
  | ok h => exact hf _ _ rfl h
  | error h => exact .error h

theorem ite {p : Prop} [Decidable p] (h : p → Agree n R P x x') (h' : ¬p → Agree n R P y y') :
    Agree n R P (if p then x else y) (if p then x' else y') := by
  split
  · exact h ‹p›
  · exact h' ‹¬p›

theorem stuck (h : c.Mirrors n R c') (fault : ParseFault) :
    Agree n R P (c.stuck fault) (c'.stuck fault) := by
  rw [Cursor.stuck, Cursor.stuck, h.current]
  exact .error (e := ⟨fault, c.current⟩) h

end Agree

open Read (follows_of_ending)

theorem agree_skipLayout {c c' : Cursor} (h : c.Mirrors n R c') (hdepth : 0 ≤ c.depth) :
    Agree n R (MirrorsAt n R c.depth) c.skipLayout.ending c'.skipLayout.ending := by
  rw [ending_skipLayout c, ending_skipLayout c', h.depth, h.sees, h.sees]
  refine .ite (fun _ => .ok ⟨h, rfl⟩) fun hne => .ite (fun _ => .stuck h _) fun _ =>
    .ite (fun hs => ?_) fun _ => .ok ⟨h, rfl⟩
  have hlt := (follows_advance_of_sees hs (by decide)).le
  exact agree_skipLayout (h.newline hs (by omega)) hdepth
termination_by c.remaining

theorem agree_close {d d' : Cursor} {o : Token} {depth : Int} (h : d.Mirrors n R d')
    (hdepth : d.depth = depth + 1) {k : Lexeme.Kind} (hk : k = .closeSquare ∨ k = .closeRound)
    (text : Text) : Agree n R (MirrorsAt n R depth) (d.close o k text).ending
      (d'.close (o.down n) k text).ending := by
  rw [ending_close d, ending_close d', h.sees, h.atEnd]
  refine .ite (fun hs => .ok ⟨h.closed ?_, ?_⟩) fun _ => .ite (fun _ => ?_) fun _ => ?_
  · rcases hk with rfl | rfl
    · exact Or.inl ((sees_iff rfl).mp hs)
    · exact Or.inr ((sees_iff rfl).mp hs)
  · show d.depth - 1 = depth
    omega
  · exact .error (e := ⟨.unclosed o.lexeme, o⟩) h
  · rw [h.lexeme]
    exact .stuck h _

mutual

theorem agree_words {c c' : Cursor} (h : c.Mirrors n R c') (hdepth : 0 ≤ c.depth) :
    Agree n R (MirrorsAt n R c.depth) c.words.ending c'.words.ending := by
  rw [ending_words c, ending_words c']
  refine (agree_skipLayout h hdepth).bind fun d d' hd ⟨hm, hk⟩ => ?_
  have hle := (follows_of_ending hd).le
  rw [hm.startsWord, ← hk]
  refine .ite (fun _ => ?_) fun _ => .ok ⟨hm, rfl⟩
  refine (agree_word hm (by omega)).bind fun f f' hf ⟨hm', hk'⟩ => ?_
  have hlt := (follows_of_ending hf).le
  rw [← hk']
  exact agree_words hm' (by omega)
termination_by 8 * c.remaining + 5

theorem agree_word {c c' : Cursor} (h : c.Mirrors n R c') (hdepth : 0 ≤ c.depth) :
    Agree n R (MirrorsAt n R c.depth) c.word.ending c'.word.ending := by
  cases hmod : c.modifier? with
  | none =>
      have hmod' : c'.modifier? = none := by rw [h.modifier?, hmod]; rfl
      rw [ending_word_of_strand c hmod, ending_word_of_strand c' hmod']
      exact agree_strand h hdepth
  | some m =>
      have hmod' : c'.modifier? = some (m.down n) := by rw [h.modifier?, hmod]; rfl
      have hlt := (follows_advance_of_ne_end (Token.ne_end_of_modifier? hmod)).le
      rw [ending_word_of_modifier c hmod, ending_word_of_modifier c' hmod']
      refine (agree_skipLayout (h.advance (Token.isPlain_of_modifier? hmod)) hdepth).bind
        fun d d' hd ⟨hm, hk⟩ => ?_
      have hle := (follows_of_ending hd).le
      have hk : d.depth = c.depth := hk
      rw [hm.startsWord, h.current]
      refine .ite (fun _ => ?_) fun _ => .error (e := ⟨.missingOperand _, _⟩) hm
      rw [← hk]
      exact agree_word hm (by omega)
termination_by 8 * c.remaining + 4

theorem agree_strand {c c' : Cursor} (h : c.Mirrors n R c') (hdepth : 0 ≤ c.depth) :
    Agree n R (MirrorsAt n R c.depth) c.strand.ending c'.strand.ending := by
  rw [ending_strand c, ending_strand c']
  refine (agree_term h hdepth).bind fun d d' hd ⟨hm, hk⟩ => ?_
  have hlt := (follows_of_ending hd).le
  rw [← hk]
  exact agree_members hm (by omega)
termination_by 8 * c.remaining + 3

theorem agree_members {c c' : Cursor} (h : c.Mirrors n R c') (hdepth : 0 ≤ c.depth) :
    Agree n R (MirrorsAt n R c.depth) c.members.ending c'.members.ending := by
  rw [ending_members c, ending_members c', h.sees]
  refine .ite (fun hs => ?_) fun _ => .ok ⟨h, rfl⟩
  have hlt := (follows_advance_of_sees hs (by decide)).le
  refine (agree_skipLayout (h.advance (by rw [(sees_iff rfl).mp hs]; rfl)) hdepth).bind
    fun d d' hd ⟨hm, hk⟩ => ?_
  have hle := (follows_of_ending hd).le
  have hk : d.depth = c.depth := hk
  refine (agree_term hm (by omega)).bind fun f f' hf ⟨hm', hk'⟩ => ?_
  have hlt' := (follows_of_ending hf).le
  rw [← hk, ← hk']
  exact agree_members hm' (by omega)
termination_by 8 * c.remaining

theorem agree_term {c c' : Cursor} (h : c.Mirrors n R c') (hdepth : 0 ≤ c.depth) :
    Agree n R (MirrorsAt n R c.depth) c.term.ending c'.term.ending := by
  rw [ending_term c, ending_term c', h.atom?, Option.isSome_map, h.sees, h.sees, h.lexeme]
  refine .ite (fun hatom => ?_) fun _ => .ite (fun _ => agree_array h hdepth) fun _ =>
    .ite (fun _ => agree_func h hdepth) fun _ => .stuck h _
  obtain ⟨w, hw⟩ := Option.isSome_iff_exists.mp hatom
  exact .ok ⟨h.advance (Token.isPlain_of_atom? hw), rfl⟩
termination_by 8 * c.remaining + 2

theorem agree_array {c c' : Cursor} (h : c.Mirrors n R c') (hdepth : 0 ≤ c.depth) :
    Agree n R (MirrorsAt n R c.depth) c.array.ending c'.array.ending := by
  rw [ending_array c, ending_array c', h.sees, h.lexeme]
  refine .ite (fun hs => ?_) fun _ => .stuck h _
  have hlt := opened_lt hs (by decide)
  have hopened := h.opened (Or.inl ((sees_iff rfl).mp hs))
  refine (agree_words hopened (Int.add_nonneg hdepth (by decide))).bind
    fun d d' _ ⟨hm, hk⟩ => ?_
  rw [h.current]
  exact agree_close hm hk (Or.inl rfl) _
termination_by 8 * c.remaining + 1

theorem agree_func {c c' : Cursor} (h : c.Mirrors n R c') (hdepth : 0 ≤ c.depth) :
    Agree n R (MirrorsAt n R c.depth) c.func.ending c'.func.ending := by
  rw [ending_func c, ending_func c', h.sees, h.lexeme]
  refine .ite (fun hs => ?_) fun _ => .stuck h _
  have hlt := opened_lt hs (by decide)
  have hopened := h.opened (Or.inr ((sees_iff rfl).mp hs))
  have hdepth' : 0 ≤ c.advance.opened.depth := Int.add_nonneg hdepth (by decide)
  refine (agree_words hopened hdepth').bind fun d d' hd ⟨hm, hk⟩ => ?_
  have hle := (follows_of_ending hd).le
  refine (agree_alternatives hm (by omega)).bind fun f f' _ ⟨hm', hk'⟩ => ?_
  rw [h.current]
  exact agree_close hm' (hk'.trans hk) (Or.inr rfl) _
termination_by 8 * c.remaining + 1

theorem agree_alternatives {c c' : Cursor} (h : c.Mirrors n R c') (hdepth : 0 ≤ c.depth) :
    Agree n R (MirrorsAt n R c.depth) c.alternatives.ending c'.alternatives.ending := by
  rw [ending_alternatives c, ending_alternatives c', h.sees]
  refine .ite (fun hs => ?_) fun _ => .ok ⟨h, rfl⟩
  have hlt := (follows_advance_of_sees hs (by decide)).le
  refine (agree_words (h.advance (by rw [(sees_iff rfl).mp hs]; rfl)) hdepth).bind
    fun d d' hd ⟨hm, hk⟩ => ?_
  have hle := (follows_of_ending hd).le
  have hk : d.depth = c.depth := hk
  rw [← hk]
  exact agree_alternatives hm (by omega)
termination_by 8 * c.remaining

end

/-! ## Lines -/

theorem agree_expectLineEnd {c c' : Cursor} (h : c.Mirrors n R c') :
    Agree n R (fun _ _ => True) c.expectLineEnd.ending c'.expectLineEnd.ending := by
  rw [ending_expectLineEnd c, ending_expectLineEnd c', h.sees, h.atEnd, h.lexeme]
  exact .ite (fun _ => .ok trivial) fun _ => .ite (fun _ => .ok trivial) fun _ => .stuck h _

theorem agree_lineTail {c c' : Cursor} (h : c.Mirrors n R c') :
    Agree n R (fun _ _ => True) c.lineTail.ending c'.lineTail.ending := by
  rw [ending_lineTail c, ending_lineTail c', h.comment?]
  refine .ite (fun hs => ?_) fun _ => agree_expectLineEnd h
  obtain ⟨text, htext⟩ := Option.isSome_iff_exists.mp hs
  exact agree_expectLineEnd (h.advance (by rw [comment?_eq_some.mp htext]; rfl))

theorem agree_statement {c c' : Cursor} (h : c.Mirrors n R c') (hdepth : c.depth = 0) :
    Agree n R (MirrorsAt n R 0) c.statement.ending c'.statement.ending := by
  have hwords : ∀ {d d' : Cursor}, d.Mirrors n R d' → d.depth = 0 →
      Agree n R (MirrorsAt n R 0) d.words.ending d'.words.ending := fun hm hd => by
    have hagree := agree_words hm (Int.le_of_eq hd.symm)
    rwa [hd] at hagree
  rw [ending_statement c, ending_statement c', h.boundName?]
  refine .ite (fun hs => ?_) fun _ => hwords h hdepth
  obtain ⟨name, hname⟩ := Option.isSome_iff_exists.mp hs
  obtain ⟨t, a, us, hr, ht, ha⟩ := boundName?_eq_some.mp hname
  have hadvance : c.advance.rest = a :: us := by rw [advance, hr]; rfl
  have h₁ := h.advance (by rw [current_of_rest hr, ht]; rfl)
  exact hwords (h₁.advance (by rw [current_of_rest hadvance, ha]; rfl)) hdepth

theorem agree_line {c c' : Cursor} (h : c.Mirrors n R c') (hdepth : c.depth = 0) :
    Agree n R (fun _ _ => True) c.line.ending c'.line.ending := by
  rw [ending_line c, ending_line c', h.comment?]
  refine .ite (fun _ => agree_lineTail h) fun _ => ?_
  exact (agree_statement h hdepth).bind fun d d' _ hm => agree_lineTail hm.1

namespace Mirrors

variable {c c' d d' z z' : Cursor} {e : ParseError} {items : List Item}

/-- Both cursors are where the next line begins: at the end, or in front of related tokens. -/
structure Onward (R : List Token → List Token → Prop) (d d' : Cursor) : Prop where
  path : d'.path = d.path
  depth : d.depth = 0 ∧ d'.depth = 0
  rest : (d.atEnd = true ∧ d'.atEnd = true ∧ R [] []) ∨ R d.rest d'.rest

theorem onward (h : z.Mirrors n R z') (hd : z.NextLine d) (hd' : z'.NextLine d') :
    Onward R d d' := by
  refine ⟨hd'.path.trans (h.path.trans hd.path.symm), ⟨hd.depth, hd'.depth⟩, ?_⟩
  have hboth : ∀ {b : Cursor}, b.atEnd = true → b.sees .newline = true → False := fun h h' => by
    have := (of_decide_eq_true h).symm.trans (of_decide_eq_true h')
    cases this
  rcases hd.ends, hd'.ends with ⟨⟨ha, had⟩ | ⟨hs, hle, hrest⟩, ⟨ha', had'⟩ | ⟨hs', -, hrest'⟩⟩
  · refine Or.inl ⟨had, had', ?_⟩
    have hl := (sees_iff rfl).mp ha
    have hsame := h.rest
    obtain ⟨t, vs, ws, hz, hz'⟩ := hsame.head
    rw [current_of_rest hz] at hl
    rw [hz, hz'] at hsame
    cases hsame with
    | input _ h => exact h
    | stop ht _ _ => cases hl.symm.trans ht
    | cons hend _ _ => exact absurd hl hend
  · exact (hboth (h.atEnd.trans ha) hs').elim
  · exact (hboth (h.atEnd.symm.trans ha') hs).elim
  · right
    have hl := (sees_iff rfl).mp hs
    have hsame := h.rest
    obtain ⟨t, vs, ws, hz, hz'⟩ := hsame.head
    rw [current_of_rest hz] at hl
    rw [hz, hz'] at hsame
    rw [hrest, hrest', Cursor.advance, Cursor.advance, hz, hz']
    cases hsame with
    | input ht _ => cases hl.symm.trans ht
    | stop _ _ h => exact h
    | cons _ hnewline _ => exact absurd (hnewline hl) (Int.not_lt.mpr hle)

/-- A line that fits gives its items further down. -/
theorem line_gives (h : c.Mirrors n R c') (hc : c.StartsLine) (hline : c.line.Gives items d) :
    ∃ d', c'.line.Gives (items.map (Item.down n)) d' ∧ Onward R d d' := by
  obtain ⟨ts, z, htakes, hder, hend⟩ := derives_line hline hc
  have hsame := h.rest
  have hcrosses : Crosses c.depth ts 0 := by
    rw [hc.depth]
    exact hder.crosses
  rw [htakes.rest] at hsame
  obtain ⟨ws, hws, hsame⟩ := hsame.past hcrosses
  obtain ⟨htakes', hrest⟩ := takes_past hws
  have hz : z.Mirrors n R (c'.past (ts.map (Token.down n)).length) := by
    have hdepth := htakes.depth.trans hc.depth
    refine ⟨htakes'.path.trans (h.path.trans htakes.path.symm), ?_, ?_⟩
    · rw [htakes'.depth, h.depth, htakes.depth]
    · rw [hrest, hdepth]
      exact hsame
  have hdepth' : c'.depth = 0 := h.depth.trans hc.depth
  obtain ⟨d', hend'⟩ :
      ∃ d', (c'.past (ts.map (Token.down n)).length).expectLineEnd.Gives () d' := by
    rcases gives_expectLineEnd_iff.mp hend with ⟨hs, -⟩ | ⟨ha, -⟩
    · exact ⟨_, gives_expectLineEnd_iff.mpr (Or.inl ⟨(hz.sees _).trans hs, rfl⟩)⟩
    · exact ⟨_, gives_expectLineEnd_iff.mpr (Or.inr ⟨hz.atEnd.trans ha, rfl⟩)⟩
  refine ⟨d', gives_line (hder.down n) htakes' h.path hdepth' hend', hz.onward ?_ ?_⟩
  · exact nextLine_of_expectLineEnd hend (htakes.depth.trans hc.depth)
  · exact nextLine_of_expectLineEnd hend' (htakes'.depth.trans hdepth')

/-- A line that does not fit gives its error further down. -/
theorem line_faults (h : c.Mirrors n R c') (hdepth : c.depth = 0) (hline : c.line.Faults e d) :
    ∃ d', c'.line.Faults (e.down n) d' ∧ Onward R d.recover d'.recover := by
  have hagree := agree_line h hdepth
  rw [Read.ending_eq_error_iff.mpr hline] at hagree
  generalize hy : c'.line.ending = y at hagree
  cases hagree with
  | error hd =>
      refine ⟨_, Read.ending_eq_error_iff.mp hy, ?_⟩
      exact hd.toLineEnd.onward (nextLine_recover _) (nextLine_recover _)

end Mirrors

end Cursor

end GlyphFormat
