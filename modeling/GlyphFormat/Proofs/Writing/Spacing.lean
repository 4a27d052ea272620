import GlyphFormat.Proofs.Writing.Runs

/-!
# Spacing

The room in front of a mark is enough: what is written stays apart from what comes next, whatever
the words are and however they nest (`begins_put`). So writing a word behind other words of a line
adds the lexemes of the word and changes none before them (`Writing.word_extends`).
-/

namespace GlyphFormat

/-! ## Room -/

namespace Layout

variable {l : Layout} {ls : List Lexeme}

theorem getLast?_text (l : Layout) : l.text.getLast? = l.reversed.head? := by
  rw [text, List.getLast?_reverse]

/-- A mark is written as its room and its lexeme. -/
theorem text_put_of_lexeme {m : Mark} {lexeme : Lexeme} (h : m.lexeme? = some lexeme) :
    (l.put m).text = (m.makeRoom l).text ++ lexeme.text := by
  rw [put, h]
  exact text_push _ _

theorem text_put_of_none {m : Mark} (h : m.lexeme? = none) : (l.put m).text = l.text := by
  rw [put, h]
  rfl

theorem begins_pushSpace (h : Begins l.text ls) : Begins (l.push " ").text ls := by
  rw [text_push]
  exact h.space

theorem begins_spaceAfterStrand (h : Begins l.text ls) : Begins l.spaceAfterStrand.text ls := by
  unfold spaceAfterStrand
  split
  · exact begins_pushSpace h
  · exact h

theorem begins_spaceAfter {p : CodePoint → Bool} (h : Begins l.text ls) :
    Begins (l.spaceAfter p).text ls := by
  unfold spaceAfter
  dsimp only
  split
  · exact begins_pushSpace (begins_spaceAfterStrand h)
  · exact begins_spaceAfterStrand h

/-- Behind the room for a class no code point of the class comes last. -/
theorem last_spaceAfter {p : CodePoint → Bool} (hp : p ' ' = false) (l : Layout) :
    ∀ c ∈ (l.spaceAfter p).text.getLast?, p c = false := by
  intro c hc
  rw [getLast?_text] at hc
  unfold spaceAfter at hc
  dsimp only at hc
  by_cases hany : l.spaceAfterStrand.reversed.head?.any p = true
  · rw [if_pos hany] at hc
    obtain rfl : CodePoint.ofChar ' ' = c := Option.some.inj hc
    exact hp
  · rw [if_neg hany] at hc
    refine Bool.eq_false_iff.mpr fun hpc => hany ?_
    rw [show l.spaceAfterStrand.reversed.head? = some c from hc]
    exact hpc

theorem last_spaceAfterAlphanumeric (l : Layout) :
    ∀ c ∈ l.spaceAfterAlphanumeric.text.getLast?, c.isLetter = false ∧ c.isDigit = false := by
  intro c hc
  have halnum : c.isAlphanumeric = false := last_spaceAfter (by decide +kernel) l c hc
  refine ⟨?_, Bool.eq_false_iff.mpr fun hd => ?_⟩
  · exact (Bool.or_eq_false_iff.mp halnum).1
  · rw [CodePoint.isAlphanumeric_of_isDigit hd] at halnum
    cases halnum

theorem last_spaceAfterLetter (l : Layout) :
    ∀ c ∈ l.spaceAfterLetter.text.getLast?, c.isLetter = false :=
  last_spaceAfter (by decide +kernel) l

end Layout

namespace Mark

variable {m : Mark} {l : Layout} {ls : List Lexeme} {lexeme : Lexeme}

theorem begins_makeRoom (m : Mark) (h : Begins l.text ls) : Begins (m.makeRoom l).text ls := by
  cases m with
  | number _ | char _ | string _ => exact Layout.begins_spaceAfter h
  | ident _ | selector _ => exact Layout.begins_spaceAfter h
  | prim p =>
      unfold makeRoom
      dsimp only
      split
      · exact Layout.begins_spaceAfter h
      · exact h
  | punctuation _ | strandEnd | missing => exact h

theorem punctuation_spec {c : CodePoint} (h : Lexeme.ofPunctuation? c = some lexeme) :
    lexeme.IsInline ∧ lexeme.text = [c] ∧ c.isLetter = false ∧ c.isDigit = false ∧ c ≠ '.' ∧
      c.isBlank = false := by
  unfold Lexeme.ofPunctuation? at h
  repeat' split at h
  case isFalse => cases h
  all_goals
    rename_i hc
    subst hc
    obtain rfl := Option.some.inj h
    exact ⟨nofun, rfl, by decide +kernel⟩

/-- What a mark that can be lexed spells is valid and leaves the rest of its line alone. -/
theorem valid_lexeme (hm : m.Lexable) (h : m.lexeme? = some lexeme) :
    lexeme.Valid ∧ lexeme.IsInline := by
  cases m with
  | number x | char t | ident n =>
      obtain rfl := Option.some.inj h
      exact ⟨hm, fun _ h => by cases h⟩
  | string t =>
      obtain rfl := Option.some.inj h
      exact ⟨trivial, fun _ h => by cases h⟩
  | selector s =>
      obtain ⟨t, ht, hsmall, hslots⟩ := Selector.characters?_of_hasLetter hm.2
      rw [lexeme?, ht] at h
      obtain rfl := Option.some.inj h
      refine ⟨⟨fun hnil => hm.1 ?_, hsmall⟩, fun _ h => by cases h⟩
      rw [← hslots, hnil]
      rfl
  | prim p =>
      obtain rfl := Option.some.inj h
      by_cases hg : p.glyph?.isSome = true
      · rw [if_pos hg]
        exact ⟨hg, fun _ h => by cases h⟩
      · rw [if_neg hg]
        exact ⟨p.name_isLetter, fun _ h => by cases h⟩
  | punctuation p =>
      obtain rfl := Option.some.inj h
      obtain ⟨c, hc⟩ := hm
      exact ⟨(Lexeme.valid_of_ofPunctuation? hc).1, (punctuation_spec hc).1⟩
  | strandEnd | missing => cases h

/-- Behind its room a lexeme joins nothing. -/
theorem joins_makeRoom (hm : m.Lexable) (h : m.lexeme? = some lexeme) :
    ∀ c ∈ (m.makeRoom l).text.getLast?, ∀ d ∈ lexeme.text.head?, c.joins d = false := by
  intro c hc d hd
  have halnum : c ∈ l.spaceAfterAlphanumeric.text.getLast? → c.joins d = false := fun hc => by
    obtain ⟨hletter, hdigit⟩ := l.last_spaceAfterAlphanumeric c hc
    exact CodePoint.joins_eq_false hletter hdigit
  cases m with
  | number _ | char _ | string _ => exact halnum hc
  | ident n =>
      obtain rfl := Option.some.inj h
      have hletter := l.last_spaceAfterLetter c hc
      exact CodePoint.joins_eq_false_of_isLetter hletter (hm.2 d (List.mem_of_mem_head? hd))
  | selector s =>
      obtain ⟨t, ht, -, -⟩ := Selector.characters?_of_hasLetter hm.2
      rw [lexeme?, ht] at h
      obtain rfl := Option.some.inj h
      obtain rfl : CodePoint.ofChar ':' = d := Option.some.inj hd
      exact CodePoint.joins_separator (by decide)
  | prim p =>
      obtain rfl := Option.some.inj h
      rw [Writing.text_primitive] at hd
      by_cases hp : p.startsWithLetter = true
      · rw [makeRoom, if_pos hp] at hc
        exact halnum hc
      · have hletter : d.isLetter = false := by
          rw [Primitive.startsWithLetter, hd] at hp
          exact Bool.eq_false_iff.mpr hp
        cases hg : p.glyph? with
        | some g =>
            rw [Primitive.display, hg] at hd
            obtain rfl : g = d := Option.some.inj hd
            have hdigit : g.isDigit = false := Bool.eq_false_iff.mpr fun h => by
              have := (Primitive.glyph_classes hg).2.1
              rw [CodePoint.isAlphanumeric_of_isDigit h] at this
              cases this
            exact CodePoint.joins_eq_false_right hletter hdigit (Primitive.glyph_ne_point hg)
        | none =>
            rw [Primitive.display, hg] at hd
            rw [p.name_isLetter.2 d (List.mem_of_mem_head? hd)] at hletter
            cases hletter
  | punctuation p =>
      obtain rfl := Option.some.inj h
      obtain ⟨e, he⟩ := hm
      obtain ⟨-, htext, hletter, hdigit, hpoint, -⟩ := punctuation_spec he
      rw [htext] at hd
      obtain rfl : e = d := Option.some.inj hd
      exact CodePoint.joins_eq_false_right hletter hdigit hpoint
  | strandEnd | missing => cases h

/-- What a name stands for can be lexed as well. -/
theorem lexable_settle {σ : Type} [Scope σ] (hm : m.Lexable) (scope : σ) :
    (m.settle scope).1.Lexable := by
  cases m with
  | ident n =>
      show (ofName (Scope.isBound n scope).1 n).Lexable
      unfold ofName
      split
      · trivial
      · exact hm
  | _ => exact hm

theorem lexable_settleAll {σ : Type} [Scope σ] {ms : List Mark} (hms : ∀ m ∈ ms, m.Lexable)
    (scope : σ) : ∀ m ∈ (settleAll ms scope).1, m.Lexable := by
  induction ms generalizing scope with
  | nil => exact fun m hm => absurd hm List.not_mem_nil
  | cons m ms ih =>
      intro n hn
      rcases List.mem_cons.mp hn with rfl | hn
      · exact lexable_settle (hms m List.mem_cons_self) scope
      · exact ih (fun k hk => hms k (List.mem_cons_of_mem _ hk)) _ n hn

end Mark

/-! ## What is written goes on -/

namespace Layout

variable {l : Layout} {ls : List Lexeme}

theorem begins_put {m : Mark} (h : Begins l.text ls) (hm : m.Lexable) :
    Begins (l.put m).text (ls ++ m.lexeme?.toList) := by
  cases hlexeme : m.lexeme? with
  | none =>
      rw [text_put_of_none hlexeme, Option.toList_none, List.append_nil]
      exact h
  | some lexeme =>
      obtain ⟨hvalid, hinline⟩ := Mark.valid_lexeme hm hlexeme
      rw [text_put_of_lexeme hlexeme, Option.toList_some]
      exact (Mark.begins_makeRoom m h).lexeme hvalid hinline (Mark.joins_makeRoom hm hlexeme)

theorem begins_putAll {ms : List Mark} (h : Begins l.text ls) (hms : ∀ m ∈ ms, m.Lexable) :
    Begins (ms.foldl put l).text (ls ++ ms.filterMap Mark.lexeme?) := by
  induction ms generalizing l ls with
  | nil =>
      rw [List.filterMap_nil, List.append_nil]
      exact h
  | cons m ms ih =>
      have := ih (begins_put h (hms m List.mem_cons_self))
        fun n hn => hms n (List.mem_cons_of_mem _ hn)
      rw [List.append_assoc] at this
      rw [List.foldl_cons]
      cases hlexeme : m.lexeme? with
      | none => rwa [List.filterMap_cons_none hlexeme, ← List.nil_append (ms.filterMap _),
          ← Option.toList_none, ← hlexeme]
      | some lexeme => rwa [List.filterMap_cons_some hlexeme, ← List.singleton_append,
          ← Option.toList_some, ← hlexeme]

/-- The room in front of a word is a space at most: behind the one that keeps a strand apart no
other one is needed. -/
theorem text_spaceAfter {p : CodePoint → Bool} (hp : p ' ' = false) (l : Layout) :
    ∃ gap : Text, (gap = [] ∨ gap = " ") ∧ (l.spaceAfter p).text = l.text ++ gap := by
  unfold spaceAfter spaceAfterStrand
  dsimp only
  by_cases hstrand : l.afterStrand = true
  · have hstop : (l.push " ").reversed.head?.any p = false := hp
    rw [if_pos hstrand, if_neg (by rw [hstop]; exact Bool.false_ne_true)]
    exact ⟨" ", .inr rfl, text_push l _⟩
  · rw [if_neg hstrand]
    split
    · exact ⟨" ", .inr rfl, text_push l _⟩
    · exact ⟨[], .inl rfl, (List.append_nil _).symm⟩

theorem text_makeRoom (l : Layout) (m : Mark) :
    ∃ gap : Text, (gap = [] ∨ gap = " ") ∧ (m.makeRoom l).text = l.text ++ gap := by
  have hnone : ∃ gap : Text, (gap = [] ∨ gap = " ") ∧ l.text = l.text ++ gap :=
    ⟨[], .inl rfl, (List.append_nil _).symm⟩
  cases m with
  | number _ | char _ | string _ | ident _ | selector _ =>
      exact text_spaceAfter (by decide +kernel) l
  | prim p =>
      rw [Mark.makeRoom]
      split
      · exact text_spaceAfter (by decide +kernel) l
      · exact hnone
  | punctuation _ | strandEnd | missing => exact hnone

/-- Nothing that was written is taken back. -/
theorem text_put (l : Layout) (m : Mark) : ∃ t, (l.put m).text = l.text ++ t := by
  cases hlexeme : m.lexeme? with
  | none => exact ⟨[], by rw [text_put_of_none hlexeme, List.append_nil]⟩
  | some lexeme =>
      obtain ⟨gap, -, hgap⟩ := text_makeRoom l m
      exact ⟨gap ++ lexeme.text, by rw [text_put_of_lexeme hlexeme, hgap, List.append_assoc]⟩

theorem text_putAll (l : Layout) (ms : List Mark) :
    ∃ t, (ms.foldl put l).text = l.text ++ t := by
  induction ms generalizing l with
  | nil => exact ⟨[], (List.append_nil _).symm⟩
  | cons m ms ih =>
      obtain ⟨t, ht⟩ := text_put l m
      obtain ⟨u, hu⟩ := ih (l.put m)
      exact ⟨t ++ u, by rw [List.foldl_cons, hu, ht, List.append_assoc]⟩

end Layout

end GlyphFormat
