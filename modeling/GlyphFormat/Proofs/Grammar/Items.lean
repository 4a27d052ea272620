import GlyphFormat.Proofs.Grammar.Trees
import GlyphFormat.Proofs.Token.Lexes

/-!
# Programs and well-formed items

What a source that is read without a report gives is well formed (`wellFormed_of_parse`), and every
list of well-formed items is read back, up to spans, from a text that spells it line by line
(`parse_of_spelling`).
-/

namespace GlyphFormat

/-! ## Blank lines between items -/

/-- Behind every item for blank lines stands another item. -/
def GapsFilled : List Item → Prop
  | [] => True
  | i :: is => (i.isNewlines = true → ∃ j js, is = j :: js ∧ j.isNewlines = false) ∧ GapsFilled is

theorem GapsFilled.last {is : List Item} (h : GapsFilled is) :
    ∀ i ∈ is.getLast?, i.isNewlines = false := by
  induction is with
  | nil => exact fun i hi => nomatch hi
  | cons i is ih =>
      intro j hj
      cases is with
      | nil =>
          obtain rfl : i = j := Option.some.inj hj
          refine Bool.eq_false_iff.mpr fun hi => ?_
          obtain ⟨_, _, hnil, -⟩ := h.1 hi
          cases hnil
      | cons k is =>
          rw [List.getLast?_cons_cons] at hj
          exact ih h.2 j hj

theorem GapsFilled.apart {is : List Item} (h : GapsFilled is) :
    ∀ before i j after, is = before ++ i :: j :: after →
      i.isNewlines = false ∨ j.isNewlines = false := by
  intro before i j after hsplit
  induction before generalizing is with
  | nil =>
      subst hsplit
      cases hi : i.isNewlines with
      | false => exact Or.inl rfl
      | true =>
          obtain ⟨k, ks, hk, hfalse⟩ := h.1 hi
          obtain ⟨rfl, -⟩ := List.cons.inj hk
          exact Or.inr hfalse
  | cons k before ih =>
      subst hsplit
      exact ih h.2 rfl

/-- Well-formed items are those that are well formed each and have no stray blank lines. -/
theorem GapsFilled.wellFormed {is : List Item} (h : GapsFilled is) (heach : ∀ i ∈ is, i.WellFormed)
    (hfirst : ∀ i ∈ is.head?, i.isNewlines = false) : WellFormedItems is :=
  ⟨heach, hfirst, h.last, h.apart⟩

theorem WellFormedItems.gapsFilled {is : List Item} (h : WellFormedItems is) : GapsFilled is := by
  have hlast := h.last
  have hapart := h.apart
  clear h
  induction is with
  | nil => trivial
  | cons i is ih =>
      refine ⟨fun hi => ?_, ih (fun j hj => ?_) fun before j k after hsplit => ?_⟩
      · cases is with
        | nil => exact absurd (hi.symm.trans (hlast i rfl)) (by decide)
        | cons j js =>
            refine ⟨j, js, rfl, ?_⟩
            rcases hapart [] i j js rfl with h | h
            · exact absurd (hi.symm.trans h) (by decide)
            · exact h
      · refine hlast j ?_
        cases is with
        | nil => cases hj
        | cons k is => rwa [List.getLast?_cons_cons]
      · exact hapart (i :: before) j k after (by rw [hsplit]; rfl)

/-! ## Derived items are well formed -/

namespace DerivesLine

variable {path : Option Path} {items : List Item} {ts : List Token}

theorem wellFormed_statement {item : Item} (h : DerivesStatement path item ts)
    (hts : TokensValid ts) : item.WellFormed ∧ item.isNewlines = false := by
  cases h with
  | @binding t e ts name ws ht he hws =>
      have hname : t.lexeme.Valid := hts t List.mem_cons_self (by rw [ht]; exact nofun)
      rw [ht] at hname
      exact ⟨⟨hname, hws.formed hts.tail.tail⟩, rfl⟩
  | @words _ ws hne hws =>
      refine ⟨⟨?_, hws.formed hts⟩, rfl⟩
      rintro rfl
      cases hws with
      | wordsNil hg => exact hne (hg.2 rfl)

theorem wellFormed (h : DerivesLine path items ts) (hts : TokensValid ts) :
    items ≠ [] ∧ ∀ i ∈ items, i.WellFormed ∧ i.isNewlines = false := by
  have hcomment : ∀ {t : Token} {text : Text}, t ∈ ts → t.lexeme = .comment text →
      Item.WellFormed (.comment text (t.span path)) := by
    intro t text hmem ht
    have := hts t hmem (by rw [ht]; exact nofun)
    rwa [ht] at this
  cases h with
  | comment ht =>
      refine ⟨nofun, List.forall_mem_singleton.mpr ⟨hcomment List.mem_cons_self ht, rfl⟩⟩
  | statement hs => exact ⟨nofun, List.forall_mem_singleton.mpr (wellFormed_statement hs hts)⟩
  | commented hs ht =>
      refine ⟨nofun, List.forall_mem_cons.mpr ⟨wellFormed_statement hs hts.append.1, ?_⟩⟩
      exact List.forall_mem_singleton.mpr ⟨hcomment (by simp) ht, rfl⟩

end DerivesLine

namespace DerivesLines

variable {path : Option Path} {started : Bool} {blank : Option Span} {ts : List Token}
  {is : List Item}

theorem gapsFilled_append {items : List Item} (hne : items ≠ [])
    (hitems : ∀ i ∈ items, i.isNewlines = false) (his : GapsFilled is) :
    GapsFilled (gapItems blank ++ items ++ is) ∧
      (blank = none → ∀ i ∈ (gapItems blank ++ items ++ is).head?, i.isNewlines = false) := by
  have happend : GapsFilled (items ++ is) := by
    clear hne
    induction items with
    | nil => exact his
    | cons i items ih =>
        refine ⟨fun hi => ?_, ih fun j hj => hitems j (List.mem_cons_of_mem _ hj)⟩
        exact absurd (hi.symm.trans (hitems i List.mem_cons_self)) (by decide)
  cases items with
  | nil => exact absurd rfl hne
  | cons i items =>
      have hi := hitems i List.mem_cons_self
      cases blank with
      | none =>
          refine ⟨happend, fun _ j hj => ?_⟩
          obtain rfl : i = j := Option.some.inj hj
          exact hi
      | some span => exact ⟨⟨fun _ => ⟨i, _, rfl, hi⟩, happend⟩, nofun⟩

theorem wellFormed (h : DerivesLines path started blank ts is) (hts : TokensValid ts) :
    (∀ i ∈ is, i.WellFormed) ∧ GapsFilled is ∧
      (started = false → blank = none → ∀ i ∈ is.head?, i.isNewlines = false) := by
  have hgap : ∀ (blank : Option Span), ∀ i ∈ gapItems blank, i.WellFormed := by
    intro blank i hi
    cases blank with
    | none => cases hi
    | some span =>
        obtain rfl := List.mem_singleton.mp hi
        trivial
  induction h with
  | done _ => exact ⟨fun i hi => absurd hi List.not_mem_nil, trivial, fun _ _ _ hi => nomatch hi⟩
  | @blank started blank t ts is _ _ ih =>
      obtain ⟨hall, hfilled, hhead⟩ := ih hts.tail
      refine ⟨hall, hfilled, fun hs hb => hhead hs ?_⟩
      rw [hs, hb]
      rfl
  | line hl _ _ ih =>
      obtain ⟨hline, hrest⟩ := hts.append
      obtain ⟨hne, hitems⟩ := hl.wellFormed hline
      obtain ⟨hall, hfilled, -⟩ := ih hrest.tail
      obtain ⟨h₁, h₂⟩ := gapsFilled_append hne (fun i hi => (hitems i hi).2) hfilled
      refine ⟨?_, h₁, fun _ => h₂⟩
      refine List.forall_mem_append.mpr ⟨List.forall_mem_append.mpr ⟨hgap _, ?_⟩, hall⟩
      exact fun i hi => (hitems i hi).1
  | last hl _ =>
      obtain ⟨hline, -⟩ := hts.append
      obtain ⟨hne, hitems⟩ := hl.wellFormed hline
      obtain ⟨h₁, h₂⟩ := gapsFilled_append hne (fun i hi => (hitems i hi).2)
        (show GapsFilled [] from trivial)
      rw [List.append_nil] at h₁ h₂
      refine ⟨List.forall_mem_append.mpr ⟨hgap _, fun i hi => (hitems i hi).1⟩, h₁, fun _ => h₂⟩

end DerivesLines

/-- The tokens of a text that is scanned without a fault are valid. -/
theorem tokensValid_of_tokenize {s : Text} (h : (tokenize s).2 = none) :
    TokensValid (tokenize s).1 := by
  have hls := lexes_lexemes h
  intro t ht hne
  have hmem : t.lexeme ∈ s.lexemes ++ [Lexeme.endOfInput] := by
    rw [← (lexes_iff.mp hls).2]
    exact List.mem_map_of_mem ht
  rcases List.mem_append.mp hmem with hmem | hmem
  · exact hls.valid _ hmem
  · exact absurd (List.mem_singleton.mp hmem) hne

/-- What is read without a report is well formed. -/
theorem wellFormed_of_parse {s : Text} {path : Option Path}
    (h : (parse s path).diagnostics = []) : WellFormedItems (parse s path).items := by
  have hparse : parse s path = ⟨(parse s path).items, []⟩ := by rw [← h]
  obtain ⟨hnone, hder⟩ := parse_iff.mp hparse
  obtain ⟨hall, hfilled, hhead⟩ := hder.wellFormed (tokensValid_of_tokenize hnone)
  exact hfilled.wellFormed hall (hhead rfl rfl)

/-! ## Well-formed items are read back -/

variable {path : Option Path} {ts : List Token}

/-- An item with a line of its own is derived from any tokens that spell it. -/
theorem Item.WellFormed.derives {i : Item} (h : i.WellFormed) (path : Option Path)
    (hi : i.isNewlines = false)
    (hts : ts.map Token.lexeme = i.spelling) :
    ∃ j, j.strip = i.strip ∧ DerivesLine path [j] ts := by
  cases i with
  | words ws span =>
      obtain ⟨vs, hvs, hder⟩ : ∃ vs, Word.stripAll vs = Word.stripAll ws ∧
          Derives path false (.words vs) ts :=
        Word.derives_words (fun w hw => (h.2 w hw).derives) hts
      refine ⟨_, ?_, .statement (.words (fun hnil => ?_) hder)⟩
      · rw [Item.strip, Item.strip, hvs]
      · subst hnil
        cases vs with
        | nil =>
            cases ws with
            | nil => exact h.1 rfl
            | cons _ _ => cases hvs
        | cons v vs =>
            generalize hφ : Phrase.words (v :: vs) = φ at hder
            generalize hnil : ([] : List Token) = ts at hder
            cases hder with
            | wordsCons _ hw _ =>
                obtain ⟨t, us, rfl, -⟩ := hw.first_word
                simp at hnil
            | _ => cases hφ
  | binding n ws nameSpan span =>
      obtain ⟨t, ts, rfl, ht, hts⟩ := List.map_eq_cons_iff.mp hts
      obtain ⟨e, ts, rfl, he, hts⟩ := List.map_eq_cons_iff.mp hts
      obtain ⟨vs, hvs, hder⟩ : ∃ vs, Word.stripAll vs = Word.stripAll ws ∧
          Derives path false (.words vs) ts :=
        Word.derives_words (fun w hw => (h.2 w hw).derives) hts
      refine ⟨_, ?_, .statement (.binding ht he hder)⟩
      rw [Item.strip, Item.strip, hvs]
  | comment text span =>
      obtain ⟨t, rfl, ht⟩ := List.map_eq_singleton_iff.mp hts
      exact ⟨.comment text (t.span path), rfl, .comment ht⟩
  | newlines span => cases hi
  | missing => exact h.elim

/-- Well-formed items are derived from any tokens that spell them line by line. The blank lines
before them count as one more item. -/
theorem derivesLines_of_spelling {is : List Item} (hall : ∀ i ∈ is, i.WellFormed)
    (hfilled : GapsFilled is) :
    ∀ {started : Bool} {blank : Option Span} {ts : List Token},
      ts.map Token.lexeme = spellLines is ++ [.endOfInput] →
      (started = false → ∀ i ∈ is.head?, i.isNewlines = false) →
      (blank ≠ none → ∃ j js, is = j :: js ∧ j.isNewlines = false) →
      ∃ js, js.map Item.strip = is.map Item.strip ∧
        DerivesLines path started blank ts (gapItems blank ++ js) := by
  induction is with
  | nil =>
      intro started blank ts hts _ hblank
      obtain rfl : blank = none := by
        cases blank with
        | none => rfl
        | some span =>
            obtain ⟨_, _, hnil, -⟩ := hblank nofun
            cases hnil
      refine ⟨[], rfl, .done fun t ht => ?_⟩
      obtain ⟨u, rfl, hu⟩ := List.map_eq_singleton_iff.mp hts
      obtain rfl : u = t := Option.some.inj ht
      exact hu
  | cons i is ih =>
      intro started blank ts hts hstarted hblank
      have htail : ∀ j ∈ is, j.WellFormed := fun j hj => hall j (List.mem_cons_of_mem _ hj)
      rw [spellLines_cons, List.append_assoc] at hts
      obtain ⟨us, rs, rfl, hus, hrs⟩ := List.map_eq_append_iff.mp hts
      obtain ⟨t, ts, rfl, ht, hmore⟩ := List.map_eq_cons_iff.mp hrs
      cases hi : i.isNewlines with
      | true =>
          obtain rfl : blank = none := by
            cases blank with
            | none => rfl
            | some span =>
                obtain ⟨j, js, hj, hfalse⟩ := hblank nofun
                obtain ⟨rfl, -⟩ := List.cons.inj hj
                exact absurd (hi.symm.trans hfalse) (by decide)
          obtain rfl : started = true := by
            cases started with
            | true => rfl
            | false => exact absurd (hi.symm.trans (hstarted rfl i rfl)) (by decide)
          obtain ⟨span, rfl⟩ : ∃ span, i = .newlines span := by
            cases i <;> first | exact ⟨_, rfl⟩ | cases hi
          obtain rfl : us = [] := List.map_eq_nil_iff.mp hus
          obtain ⟨js, hjs, hder⟩ :=
            @ih htail hfilled.2 true (some (t.span path)) _ hmore nofun
              fun _ => hfilled.1 hi
          refine ⟨.newlines (some (t.span path)) :: js, ?_, .blank ht hder⟩
          rw [List.map_cons, List.map_cons, hjs]
          rfl
      | false =>
          obtain ⟨j, hj, hline⟩ := (hall i List.mem_cons_self).derives path hi hus
          obtain ⟨js, hjs, hder⟩ :=
            @ih htail hfilled.2 true none _ hmore nofun
              fun h => absurd rfl h
          refine ⟨j :: js, by rw [List.map_cons, List.map_cons, hj, hjs], ?_⟩
          have : DerivesLines path started blank (us ++ t :: ts) (gapItems blank ++ [j] ++ js) :=
            .line hline ht hder
          rwa [List.append_assoc] at this

/-- A text that spells well-formed items line by line is read back as these items. -/
theorem parse_of_spelling {s : Text} {is : List Item} (his : WellFormedItems is)
    (hs : Lexes s (spellLines is)) :
    (parse s path).diagnostics = [] ∧
      (parse s path).items.map Item.strip = is.map Item.strip := by
  obtain ⟨hnone, htokens⟩ := lexes_iff.mp hs
  obtain ⟨js, hjs, hder⟩ : ∃ js, js.map Item.strip = is.map Item.strip ∧
      DerivesLines path false none (tokenize s).1 (gapItems none ++ js) :=
    derivesLines_of_spelling his.each his.gapsFilled htokens (fun _ => his.first)
      fun h => absurd rfl h
  rw [parse_iff.mpr ⟨hnone, hder⟩]
  exact ⟨rfl, hjs⟩

/-- A lone line break spells no items. -/
theorem parse_newline {s : Text} (hs : Lexes s [.newline]) : parse s path = ⟨[], []⟩ := by
  obtain ⟨hnone, htokens⟩ := lexes_iff.mp hs
  obtain ⟨t, ts, hts, ht, htokens⟩ := List.map_eq_cons_iff.mp htokens
  obtain ⟨u, rfl, hu⟩ := List.map_eq_singleton_iff.mp htokens
  refine parse_iff.mpr ⟨hnone, ?_⟩
  rw [hts]
  refine .blank ht (.done fun v hv => ?_)
  obtain rfl : u = v := Option.some.inj hv
  exact hu

end GlyphFormat
