import GlyphFormat.Proofs.Formatter.RoundTrip

/-!
# Formatting twice

A formatted source is its own canonical text (`formatSource_idempotent`). The items that are read
back differ from the items of the source in spans, in glyphs for names and in the blanks behind a
last comment. None of that is seen in the canonical text, and none of it gives name resolution a
reason to complain.
-/

namespace GlyphFormat

/-! ## The last comment -/

theorem canonicalText_trimLast (bound : List Item → Text → Bool) (items : List Item) :
    canonicalText bound (trimLast items) = canonicalText bound items := by
  rcases List.eq_nil_or_concat items with rfl | ⟨is, i, rfl⟩
  · rfl
  · rw [List.concat_eq_append, trimLast_concat, canonicalText_concat, canonicalText_concat]
    cases i with
    | comment t span =>
        rw [Item.trimmed, Layout.text_comment, Layout.text_comment, ← List.append_assoc,
          ← List.append_assoc, Text.trimRight_append_trimRight]
    | _ => rfl

theorem soundItems_trimLast {items : List Item} :
    SoundItems [] (trimLast items) ↔ SoundItems [] items := by
  rcases List.eq_nil_or_concat items with rfl | ⟨is, i, rfl⟩
  · rfl
  · rw [List.concat_eq_append, trimLast_concat, soundItems_append, soundItems_append]
    cases i with
    | comment t span =>
        have hsound : ∀ t : Text, SoundItems is [.comment t span] :=
          fun t => ⟨⟨fun n hn => absurd hn List.not_mem_nil, rfl⟩, trivial⟩
        exact and_congr_right fun _ => iff_of_true (hsound _) (hsound t)
    | _ => rfl

/-! ## Formatted sources -/

/-- What a formatted source is formatted to is the source itself. -/
theorem formatSource_idempotent {s t : Text} {path : Option Path}
    (h : formatSource s path = .ok t) (path' : Option Path) : formatSource t path' = .ok t := by
  obtain ⟨hdiag, hsound, rfl⟩ := formatSource_eq_ok_iff.mp h
  have hback := parse_canonicalText boundBefore (wellFormed_of_parse hdiag) path'
  have hlike := AllLike.canonical [] (parse s path).items
  rw [formatSource_eq_ok hback (soundItems_trimLast.mpr (hlike.sound rfl hsound)),
    canonicalText_trimLast, hlike.canonicalText]

theorem formatSource_idempotent_shadowing :
    formatSource "add=add\nadd(dup|pop)\n# a \n" none = .ok "add = +\nadd(⋅|;)\n# a\n" ∧
      formatSource "add = +\nadd(⋅|;)\n# a\n" none = .ok "add = +\nadd(⋅|;)\n# a\n" :=
  ⟨formatSource_shadowing none, formatSource_idempotent (formatSource_shadowing none) none⟩

end GlyphFormat
