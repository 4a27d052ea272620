import GlyphFormat.Proofs.Grammar.Rebreaks

/-!
# Programs and line breaks inside brackets

Taking line breaks inside brackets out of a program leaves the same program, and so does putting
them in, except in front of an underscore. No program has a line break there
(`ProgramTree.breaksApart`).

So a source is read without a report exactly when its text without those line breaks is and no line
break stands in front of an underscore, and then both have the same items up to their spans
(`parse_unbroken`).
-/

namespace GlyphFormat

open Cursor (depthAfter depthAfter_newline)

/-! ## Taking line breaks out -/

/-- The tokens have the lexemes of the others without the line breaks inside brackets. -/
def Unbreaks (depth : Int) (ts us : List Token) : Prop :=
  us.map Token.lexeme = Lexeme.unbroken depth (ts.map Token.lexeme)

theorem Unbreaks.kept {depth : Int} {t : Token} {ts us : List Token}
    (h : Unbreaks depth (t :: ts) us) (ht : ¬(t.lexeme = .newline ∧ 0 < depth)) :
    ∃ u us', us = u :: us' ∧ u.lexeme = t.lexeme ∧ Unbreaks (depthAfter depth t) ts us' := by
  rw [Unbreaks, List.map_cons, Lexeme.unbroken, if_neg ht, ← Cursor.depthAfter_eq] at h
  exact List.map_eq_cons_iff.mp h

theorem unbroken_gap {depth : Int} {g : List Token} (h : Gap (decide (0 < depth)) g) :
    Lexeme.unbroken depth (g.map Token.lexeme) = [] := by
  induction g with
  | nil => rfl
  | cons t g ih =>
      obtain ⟨hinside, ht, hg⟩ := gap_cons.mp h
      rw [List.map_cons, Lexeme.unbroken, if_pos ⟨ht, of_decide_eq_true hinside⟩, ih hg]

theorem rebreaks_unbreaks : Rebreaks Unbreaks where
  nil := List.map_eq_nil_iff.mp
  gap := fun hg h => by
    rw [Unbreaks, unbroken_gap hg] at h
    rw [List.map_eq_nil_iff.mp h]
    exact .nil
  cons := fun hnewline h => by
    obtain ⟨u, us', rfl, hu, htail⟩ := h.kept fun ⟨hl, hlt⟩ => Int.not_lt.mpr (hnewline hl) hlt
    exact ⟨[], u, us', rfl, .nil, fun _ => rfl, hu, htail⟩
  append := fun hcrosses h => by
    rw [Unbreaks, List.map_append, Lexeme.unbroken_append, ← hcrosses.balance] at h
    obtain ⟨vs, vs', rfl, hv, hv'⟩ := List.map_eq_append_iff.mp h
    exact ⟨vs, vs', rfl, hv, hv'⟩

/-! ## Putting line breaks in -/

/-- The tokens are the others with line breaks in front of them, inside brackets only and in front
of no underscore. -/
inductive Spreads : Int → List Token → List Token → Prop
  | nil {depth : Int} : Spreads depth [] []
  | cons {depth : Int} {g : List Token} {t u : Token} {ts us : List Token}
      (hg : Gap (decide (0 < depth)) g) (hunderscore : t.lexeme = .underscore → g = [])
      (hu : u.lexeme = t.lexeme) (h : Spreads (depthAfter depth t) ts us) :
      Spreads depth (t :: ts) (g ++ u :: us)

namespace Spreads

variable {depth depth' : Int} {t u : Token} {ts ts' us g : List Token}

theorem kept (hu : u.lexeme = t.lexeme) (h : Spreads (depthAfter depth t) ts us) :
    Spreads depth (t :: ts) (u :: us) :=
  @cons depth [] t u ts us .nil (fun _ => rfl) hu h

theorem gap (hg : Gap (decide (0 < depth)) g) (h : Spreads depth g us) :
    Gap (decide (0 < depth)) us := by
  induction g generalizing us with
  | nil =>
      cases h
      exact .nil
  | cons t g ih =>
      cases h with
      | cons hg' _ hu h =>
          obtain ⟨hinside, ht, hg⟩ := gap_cons.mp hg
          rw [depthAfter_newline depth ht] at h
          exact hg'.append (gap_cons.mpr ⟨hinside, hu.trans ht, ih hg h⟩)

theorem append (hcrosses : Crosses depth ts depth') (h : Spreads depth (ts ++ ts') us) :
    ∃ vs vs', us = vs ++ vs' ∧ Spreads depth ts vs ∧ Spreads depth' ts' vs' := by
  induction hcrosses generalizing us with
  | nil => exact ⟨[], us, rfl, .nil, h⟩
  | cons _ _ _ ih =>
      cases h with
      | @cons _ g _ u _ us' hg hunderscore hu h =>
          obtain ⟨vs, vs', rfl, hv, hv'⟩ := ih h
          exact ⟨g ++ u :: vs, vs', by rw [List.append_assoc, List.cons_append],
            .cons hg hunderscore hu hv, hv'⟩

theorem newline (h : Spreads depth ts us) (ht : t.lexeme = .newline) (hdepth : 0 < depth)
    (hne : us ≠ []) (hhead : ∀ u ∈ us.head?, u.lexeme ≠ .underscore) :
    Spreads depth ts (t :: us) := by
  cases h with
  | nil => exact absurd rfl hne
  | @cons _ g _ _ _ _ hg hunderscore hu h =>
      refine @cons _ (t :: g) _ _ _ _ (gap_cons.mpr ⟨decide_eq_true hdepth, ht, hg⟩)
        (fun hl => ?_) hu h
      obtain rfl := hunderscore hl
      exact absurd (hu.trans hl) (hhead _ rfl)

end Spreads

theorem rebreaks_spreads : Rebreaks Spreads where
  nil := fun h => by
    cases h
    rfl
  gap := Spreads.gap
  cons := fun _ h => by
    cases h with
    | cons hg hunderscore hu h => exact ⟨_, _, _, rfl, hg, hunderscore, hu, h⟩
  append := Spreads.append

/-- Tokens without line breaks inside brackets are spread to those with them, if none stands in
front of an underscore. -/
theorem Unbreaks.spreads {depth : Int} {ts narrow : List Token} {stop : Token}
    (hstop : stop.lexeme = .endOfInput) (h : Unbreaks depth (ts ++ [stop]) narrow)
    (happart : ¬[.newline, .underscore] <:+: (ts ++ [stop]).map Token.lexeme) :
    Spreads depth narrow (ts ++ [stop]) := by
  induction ts generalizing depth narrow with
  | nil =>
      obtain ⟨u, us, rfl, hu, htail⟩ := h.kept fun hbreak => by cases hstop.symm.trans hbreak.1
      obtain rfl := List.map_eq_nil_iff.mp htail
      exact .kept hu.symm .nil
  | cons t ts ih =>
      have happart' : ¬[.newline, .underscore] <:+: (ts ++ [stop]).map Token.lexeme :=
        fun hin => happart (List.infix_cons hin)
      rw [List.cons_append] at h
      by_cases hbreak : t.lexeme = .newline ∧ 0 < depth
      · rw [Unbreaks, List.map_cons, Lexeme.unbroken, if_pos hbreak] at h
        refine (ih h happart').newline hbreak.1 hbreak.2 (by simp) fun u hu hl => ?_
        obtain ⟨us, hus⟩ := List.head?_eq_some_iff.mp hu
        rw [List.cons_append, hus, List.map_cons, List.map_cons, hbreak.1, hl] at happart
        exact happart (List.prefix_append [_, _] _).isInfix
      · obtain ⟨u, us, rfl, hu, htail⟩ := h.kept hbreak
        rw [Cursor.depthAfter_eq, ← hu, ← Cursor.depthAfter_eq] at htail
        exact .kept hu.symm (ih htail happart')

/-! ## Line breaks and underscores -/

/-- None of the tokens is an underscore behind a line break. Whether a line break stands right in
front is known before the tokens and behind them. -/
inductive BreaksApart : Bool → List Token → Bool → Prop
  | nil {behind : Bool} : BreaksApart behind [] behind
  | cons {behind behind' : Bool} {t : Token} {ts : List Token}
      (ht : behind = true → t.lexeme ≠ .underscore)
      (h : BreaksApart (decide (t.lexeme = .newline)) ts behind') :
      BreaksApart behind (t :: ts) behind'

namespace BreaksApart

variable {behind behind' behind'' : Bool} {t o : Token} {ts us : List Token}

theorem trans (h : BreaksApart behind ts behind') (h' : BreaksApart behind' us behind'') :
    BreaksApart behind (ts ++ us) behind'' := by
  induction h with
  | nil => exact h'
  | cons ht _ ih => exact .cons ht (ih h')

theorem other (ht : ¬(t.lexeme = .newline ∨ t.lexeme = .underscore))
    (h : BreaksApart false ts behind') : BreaksApart behind (t :: ts) behind' := by
  rw [not_or] at ht
  exact .cons (fun _ => ht.2) (by rwa [decide_eq_false ht.1])

theorem atom (ht : t.lexeme.isAtom = true) (h : BreaksApart false ts behind') :
    BreaksApart behind (t :: ts) behind' := by
  refine .other ?_ h
  rintro (hl | hl) <;>
    · rw [hl] at ht
      cases ht

theorem bracketed (ho : o.lexeme = .openSquare ∨ o.lexeme = .openRound)
    (h : ∃ behind', BreaksApart false ts behind')
    (ht : t.lexeme = .closeSquare ∨ t.lexeme = .closeRound) :
    BreaksApart behind (o :: (ts ++ [t])) false := by
  obtain ⟨behind', h⟩ := h
  refine .other ?_ (h.trans (.other ?_ .nil))
  · rcases ho with ho | ho <;> simp [ho]
  · rcases ht with ht | ht <;> simp [ht]

theorem newline (ht : t.lexeme = .newline) : BreaksApart behind [t] true :=
  .cons (fun _ => by simp [ht]) (by rw [decide_eq_true ht]; exact .nil)

theorem gap {inside : Bool} {g : List Token} (hg : Gap inside g) :
    ∃ behind', BreaksApart behind g behind' := by
  induction g generalizing behind with
  | nil => exact ⟨behind, .nil⟩
  | cons t g ih =>
      obtain ⟨-, ht, hg⟩ := gap_cons.mp hg
      obtain ⟨behind', h⟩ := ih hg
      exact ⟨behind', (newline ht).trans h⟩

theorem not_infix (h : BreaksApart behind ts behind') :
    ¬[.newline, .underscore] <:+: ts.map Token.lexeme := by
  induction h with
  | nil => exact fun hin => nomatch List.infix_nil.mp hin
  | cons ht h ih =>
      intro hin
      rcases List.infix_cons_iff.mp hin with hprefix | hin
      · obtain ⟨ht, hprefix⟩ := List.cons_prefix_cons.mp hprefix
        rw [← ht, decide_eq_true rfl] at h
        cases h with
        | nil => exact nomatch List.prefix_nil.mp hprefix
        | cons hu _ => exact hu rfl (List.cons_prefix_cons.mp hprefix).1.symm
      · exact ih hin

end BreaksApart

/-- Every part keeps line breaks off underscores. Words and bodies begin with no underscore, a word
and further members end with no line break. -/
def Part.ApartAt (ts : List Token) : Part → Prop
  | .words | .bodies => ∀ behind, ∃ behind', BreaksApart behind ts behind'
  | .word | .term _ => ∀ behind, BreaksApart behind ts false
  | .members => BreaksApart false ts false

theorem Derivation.apart {part : Part} {inside : Bool} (d : Derivation part inside) :
    part.ApartAt d.tokens := by
  induction d with
  | noWords g hg => exact fun _ => BreaksApart.gap hg
  | moreWords g hg w ws ihw ihws =>
      intro behind
      obtain ⟨behind', hg⟩ := BreaksApart.gap hg
      obtain ⟨behind'', hws⟩ := ihws false
      exact ⟨behind'', hg.trans ((ihw behind').trans hws)⟩
  | modified t ht g hg w ih =>
      intro behind
      obtain ⟨behind', hg⟩ := BreaksApart.gap hg
      exact .atom (Lexeme.isAtom_of_isModifier ht) (hg.trans (ih behind'))
  | strand w ws ihw ihws => exact fun behind => (ihw behind).trans ihws
  | noMembers => exact .nil
  | moreMembers t ht g hg w ws ihw ihws =>
      obtain ⟨behind', hg⟩ := BreaksApart.gap hg
      refine .cons (by rintro ⟨⟩) ?_
      rw [ht]
      exact hg.trans ((ihw behind').trans ihws)
  | atom t ht hm => exact fun _ => .atom ht .nil
  | array o ho ws t ht ih => exact fun _ => .bracketed (Or.inl ho) (ih false) (Or.inl ht)
  | func o ho b bs t ht ihb ihbs =>
      intro behind
      obtain ⟨behind', hb⟩ := ihb false
      obtain ⟨behind'', hbs⟩ := ihbs behind'
      rw [Derivation.tokens, ← List.append_assoc]
      exact .bracketed (Or.inr ho) ⟨behind'', hb.trans hbs⟩ (Or.inr ht)
  | noBodies => exact fun behind => ⟨behind, .nil⟩
  | moreBodies t ht b bs ihb ihbs =>
      intro behind
      obtain ⟨behind', hb⟩ := ihb false
      obtain ⟨behind'', hbs⟩ := ihbs behind'
      exact ⟨behind'', .other (by simp [ht]) (hb.trans hbs)⟩

theorem StatementTree.apart (s : StatementTree) (behind : Bool) :
    ∃ behind', BreaksApart behind s.tokens behind' := by
  cases s with
  | binding t e name ht he ws =>
      obtain ⟨behind', hws⟩ := ws.apart false
      exact ⟨behind', .other (by simp [ht]) (.other (by simp [he]) hws)⟩
  | words w ws =>
      obtain ⟨behind', hws⟩ := ws.apart false
      exact ⟨behind', (w.apart behind).trans hws⟩

theorem LineTree.apart? (l : Option LineTree) (behind : Bool) :
    ∃ behind', BreaksApart behind (LineTree.tokens? l) behind' := by
  have hcomment : ∀ {t : Token} {text : Text} {behind : Bool}, t.lexeme = .comment text →
      BreaksApart behind [t] false := fun ht => .other (by simp [ht]) .nil
  cases l with
  | none => exact ⟨behind, .nil⟩
  | some l =>
      cases l with
      | comment t text ht => exact ⟨false, hcomment ht⟩
      | statement s => exact s.apart behind
      | commented s t text ht =>
          obtain ⟨behind', hs⟩ := s.apart behind
          exact ⟨false, hs.trans (hcomment ht)⟩

/-- No line break of a program stands in front of an underscore. -/
theorem ProgramTree.breaksApart (p : ProgramTree) :
    ¬[.newline, .underscore] <:+: p.tokens.map Token.lexeme := by
  obtain ⟨rows, last, stop, hstop⟩ := p
  have hrows : ∀ behind, ∃ behind', BreaksApart behind
      (rows.flatMap Row.tokens ++ (LineTree.tokens? last ++ [stop])) behind' := by
    induction rows with
    | nil =>
        intro behind
        obtain ⟨behind', hlast⟩ := LineTree.apart? last behind
        exact ⟨false, hlast.trans (.other (by simp [hstop]) .nil)⟩
    | cons r rows ih =>
        intro behind
        obtain ⟨behind', hline⟩ := LineTree.apart? r.line behind
        obtain ⟨behind'', hrows⟩ := ih true
        rw [List.flatMap_cons, Row.tokens, List.append_assoc, List.append_assoc]
        exact ⟨behind'', hline.trans ((BreaksApart.newline r.newline).trans hrows)⟩
  obtain ⟨behind', h⟩ := hrows true
  exact h.not_infix

/-! ## Sources -/

theorem Lexeme.unbroken_concat_end (depth : Int) (ls : List Lexeme) :
    unbroken depth (ls ++ [.endOfInput]) = unbroken depth ls ++ [.endOfInput] :=
  unbroken_append depth ls _

/-- Behind lexemes stands the end of input, which is no underscore. -/
theorem Lexeme.infix_concat_end {ls : List Lexeme} :
    [.newline, .underscore] <:+: ls ++ [.endOfInput] ↔ [.newline, .underscore] <:+: ls := by
  rw [List.infix_concat_iff]
  refine or_iff_right fun hsuffix => ?_
  rcases List.suffix_concat_iff.mp hsuffix with hnil | ⟨ms, heq, -⟩
  · cases hnil
  · have hlast : [Lexeme.newline] ++ [.underscore] = ms ++ [.endOfInput] := heq
    cases (List.append_inj' hlast rfl).2

theorem infix_lexemes_iff {s : Text} (h : (tokenize s).2 = none) :
    [.newline, .underscore] <:+: (tokenize s).1.map Token.lexeme ↔
      [.newline, .underscore] <:+: s.lexemes := by
  rw [(lexes_iff.mp (lexes_lexemes h)).2, Lexeme.infix_concat_end]

/-- The text without line breaks inside brackets has the tokens without them. -/
theorem unbreaks_tokenize {s : Text} (h : (tokenize s).2 = none)
    (hcomments : Lexeme.CommentsOutside 0 s.lexemes) :
    (tokenize s.unbroken).2 = none ∧ Unbreaks 0 (tokenize s).1 (tokenize s.unbroken).1 := by
  have hls := lexes_lexemes h
  obtain ⟨hlex, htokens⟩ := lexes_iff.mp (hls.unbroken hcomments)
  refine ⟨hlex, ?_⟩
  rw [Unbreaks, htokens, (lexes_iff.mp hls).2, Lexeme.unbroken_concat_end]

/-- Where no comment stands inside brackets, a source is read without a report exactly when its text
without line breaks inside brackets is and no line break stands in front of an underscore. Both then
have the same items up to their spans. -/
theorem parse_unbroken {s : Text} {path : Option Path} (h : (tokenize s).2 = none)
    (hcomments : Lexeme.CommentsOutside 0 s.lexemes) :
    ((parse s path).diagnostics = [] ↔
      (parse s.unbroken path).diagnostics = [] ∧ ¬[.newline, .underscore] <:+: s.lexemes) ∧
    ((parse s path).diagnostics = [] →
      (parse s.unbroken path).items.map Item.strip = (parse s path).items.map Item.strip) := by
  obtain ⟨hlex, hunbreaks⟩ := unbreaks_tokenize h hcomments
  have htold : (parse s path).diagnostics = [] → (parse s.unbroken path).diagnostics = [] ∧
      ¬[.newline, .underscore] <:+: s.lexemes ∧
      (parse s.unbroken path).items.map Item.strip = (parse s path).items.map Item.strip := by
    intro hdiag
    obtain ⟨-, p, hp⟩ := exists_tree hdiag
    obtain ⟨p', hp', hitems⟩ :=
      (rebreaks_unbreaks.keepsWords path).program p (show Unbreaks 0 p.tokens _ from hp ▸ hunbreaks)
    rw [p.parse_eq h hp, p'.parse_eq hlex hp', ← infix_lexemes_iff h, ← hp]
    exact ⟨rfl, p.breaksApart, hitems⟩
  refine ⟨⟨fun hdiag => ?_, fun ⟨hdiag, happart⟩ => ?_⟩, fun hdiag => (htold hdiag).2.2⟩
  · exact ⟨(htold hdiag).1, (htold hdiag).2.1⟩
  · obtain ⟨-, p, hp⟩ := exists_tree hdiag
    obtain ⟨ts, stop, hts, hstop, -⟩ := endsInput_tokenize h
    rw [← infix_lexemes_iff h, hts] at happart
    rw [hts] at hunbreaks
    have hspreads := hunbreaks.spreads hstop happart
    rw [← hp, ← hts] at hspreads
    obtain ⟨p', hp', -⟩ := (rebreaks_spreads.keepsWords path).program p hspreads
    rw [p'.parse_eq h hp']

/-- Line breaks behind a modifier, behind an underscore, in an array and behind a bar. -/
theorem parse_unbroken_layout : (tokenize "(/\n+_\n[1\n]|\n)\n2").2 = none ∧
    Lexeme.CommentsOutside 0 (Text.lexemes "(/\n+_\n[1\n]|\n)\n2") ∧
    (parse "(/\n+_\n[1\n]|\n)\n2" none).diagnostics = [] ∧
    Text.unbroken "(/\n+_\n[1\n]|\n)\n2" = "(/ +_ [1 ]| )\n2" ∧
    (parse "(/ +_ [1 ]| )\n2" none).diagnostics = [] ∧
    (parse "(/ +_ [1 ]| )\n2" none).items.map Item.strip =
      (parse "(/\n+_\n[1\n]|\n)\n2" none).items.map Item.strip := by
  have hlex : (tokenize "(/\n+_\n[1\n]|\n)\n2").2 = none := by decide +kernel
  have hcomments : Lexeme.CommentsOutside 0 (Text.lexemes "(/\n+_\n[1\n]|\n)\n2") := by
    decide +kernel
  have hdiag : (parse "(/\n+_\n[1\n]|\n)\n2" none).diagnostics = [] := by decide +kernel
  have htext : Text.unbroken "(/\n+_\n[1\n]|\n)\n2" = "(/ +_ [1 ]| )\n2" := by decide +kernel
  obtain ⟨hiff, hitems⟩ := @parse_unbroken _ none hlex hcomments
  rw [htext] at hiff hitems
  exact ⟨hlex, hcomments, hdiag, htext, (hiff.mp hdiag).1, hitems hdiag⟩

/-- In front of an underscore a line break counts, also where all brackets are nested. -/
theorem exists_parse_unbroken_ne : ¬∀ (s : Text) (path : Option Path), (tokenize s).2 = none →
    Lexeme.nested [] s.lexemes = true → Lexeme.CommentsOutside 0 s.lexemes →
    ((parse s path).diagnostics = [] ↔ (parse s.unbroken path).diagnostics = []) := by
  intro h
  have hiff := h "[1\n_2]" none (by decide +kernel) (by decide +kernel) (by decide +kernel)
  have htext : Text.unbroken "[1\n_2]" = "[1 _2]" := by decide +kernel
  have hnarrow : (parse "[1 _2]" none).diagnostics = [] := by decide +kernel
  have hwide : (parse "[1\n_2]" none).diagnostics ≠ [] := by decide +kernel
  rw [htext] at hiff
  exact hwide (hiff.mpr hnarrow)

end GlyphFormat
