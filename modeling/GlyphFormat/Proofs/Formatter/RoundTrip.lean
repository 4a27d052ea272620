import GlyphFormat.Proofs.Formatter.Sources

/-!
# Round trips

Reading what was written gives back what was meant. For trees made by hand and any scope this is
`parse_formatItems`; for sources, where the scope is name resolution, `parse_formatSource`.
-/

namespace GlyphFormat

/-- The canonical text of well-formed items is read back as the items in canonical form, up to the
blanks at the end of a last comment. -/
theorem parse_canonicalText (bound : List Item → Text → Bool) {items : List Item}
    (hitems : WellFormedItems items) (path : Option Path) :
    (parse (canonicalText bound items) path).diagnostics = [] ∧
      (parse (canonicalText bound items) path).items.map Item.strip =
        (trimLast (canonicalItems bound [] items)).map Item.strip := by
  by_cases hne : items = []
  · subst hne
    have hlex : Lexes (canonicalText bound []) [.newline] := Begins.nil.newline.lexes
    rw [parse_newline hlex]
    exact ⟨rfl, rfl⟩
  · exact parse_of_spelling (hitems.canonical []).trimLast (lexes_canonicalText hitems hne)

/-! ## Trees -/

/-- Well-formed items have a text under every scope that reports nothing and whose answers depend on
the name and the items before, and the text is read back as the items in canonical form. -/
theorem parse_formatItems {σ : Type} [Scope σ] {start : σ} {bound : List Item → Text → Bool}
    {items : List Item} (hitems : WellFormedItems items) (htrimmed : EndsTrimmed items)
    (hbound : Scope.Answers start bound) (hsilent : Scope.Silent start) :
    ∃ t, (formatItems items start).1 = .ok t ∧ ∀ path, (parse t path).diagnostics = [] ∧
      (parse t path).items.map Item.strip = (canonicalItems bound [] items).map Item.strip := by
  obtain ⟨s, hs, hformat⟩ := formatItems_eq hbound hitems.each
  refine ⟨canonicalText bound items, ?_, fun path => ?_⟩
  · rw [hformat, hsilent items s hs]
  · rw [← (htrimmed.canonical []).trimLast_eq]
    exact parse_canonicalText bound hitems path

/-- A modifier in front of a strand, with a name that is bound, one whose primitive has no glyph and
one that stands for its primitive. -/
theorem parse_formatItems_preset :
    ∃ t, (formatItems
        [.words [.modified (.ident "table" none) (.strand [.ident "dup" none, .char "c" none,
          .ident "pi" none, .ident "not" none] none) none] none, .newlines none,
          .comment "done" none]
        ({ bound := ["dup"], learns := false } : Preset)).1 = .ok t ∧
      ∀ path, (parse t path).diagnostics = [] ∧ (parse t path).items.map Item.strip =
        [.words [.modified (.prim .table none) (.strand [.ident "dup" none, .char "c" none,
          .ident "pi" none, .prim .not none] none) none] none, .newlines none,
          .comment "done" none] := by
  let strand : Word :=
    .strand [.ident "dup" none, .char "c" none, .ident "pi" none, .ident "not" none] none
  let items : List Item := [.words [.modified (.ident "table" none) strand none] none,
    .newlines none, .comment "done" none]
  have hstrand : strand.WellFormed := by
    refine .strand nofun (by decide +kernel) ?_
    refine List.forall_mem_cons.mpr ⟨.leaf (show Text.IsName _ by decide +kernel) nofun, ?_⟩
    refine List.forall_mem_cons.mpr ⟨.leaf (show List.length _ = 1 by decide) nofun, ?_⟩
    refine List.forall_mem_cons.mpr ⟨.leaf (show Text.IsName _ by decide +kernel) nofun, ?_⟩
    exact List.forall_mem_singleton.mpr (.leaf (show Text.IsName _ by decide +kernel) nofun)
  have hmodified : (Word.modified (.ident "table" none) strand none).WellFormed :=
    .modified (show Text.IsName _ by decide +kernel) (by decide +kernel) hstrand
  have hitems : WellFormedItems items := by
    have hgaps : GapsFilled items := ⟨nofun, fun _ => ⟨_, _, rfl, rfl⟩, nofun, trivial⟩
    refine hgaps.wellFormed ?_ fun i hi => ?_
    · refine List.forall_mem_cons.mpr ⟨⟨nofun, List.forall_mem_singleton.mpr hmodified⟩, ?_⟩
      refine List.forall_mem_cons.mpr ⟨trivial, List.forall_mem_singleton.mpr ?_⟩
      exact show ∀ c ∈ Text.ofString "done", _ by decide
    · obtain rfl := Option.some.inj hi
      rfl
  have htrimmed : EndsTrimmed items := by
    intro t span ht c hc
    obtain ⟨rfl, -⟩ := Item.comment.inj (Option.some.inj ht)
    obtain rfl := Option.some.inj hc
    decide
  obtain ⟨t, ht, hback⟩ := parse_formatItems hitems htrimmed
    (Preset.answers { bound := ["dup"], learns := false }) (Preset.silent rfl)
  refine ⟨t, ht, fun path => ⟨(hback path).1, (hback path).2.trans ?_⟩⟩
  exact (Item.allAlike_iff _ [.words [.modified (.prim .table none) (.strand [.ident "dup" none,
    .char "c" none, .ident "pi" none, .prim .not none] none) none] none, .newlines none,
    .comment "done" none]).mp (by decide +kernel)

/-! ## Sources -/

/-- The canonical text of a source is read back as the items of the source, where each name that
stands for a primitive with a glyph is that primitive and a last comment is trimmed. -/
theorem parse_formatSource {s t : Text} {path : Option Path} (h : formatSource s path = .ok t)
    (path' : Option Path) :
    (parse t path').diagnostics = [] ∧ (parse t path').items.map Item.strip =
      (trimLast (canonicalItems boundBefore [] (parse s path).items)).map Item.strip := by
  obtain ⟨hdiag, -, rfl⟩ := formatSource_eq_ok_iff.mp h
  exact parse_canonicalText _ (wellFormed_of_parse hdiag) path'

/-- A name that stands for a primitive on the first line only. -/
theorem parse_formatSource_shadowing :
    formatSource "add=add\nadd(dup|pop)\n# a \n" none = .ok "add = +\nadd(⋅|;)\n# a\n" ∧
      (parse "add = +\nadd(⋅|;)\n# a\n" none).diagnostics = [] ∧
      (parse "add = +\nadd(⋅|;)\n# a\n" none).items.map Item.strip = (trimLast (canonicalItems
        boundBefore [] (parse "add=add\nadd(dup|pop)\n# a \n" none).items)).map Item.strip :=
  ⟨formatSource_shadowing none, parse_formatSource (formatSource_shadowing none) none⟩

end GlyphFormat
