import GlyphFormat.Proofs.Literal.Quoted
import GlyphFormat.Proofs.Text.Utf8

/-!
# Quoted literals are printable

The inside of a quoted literal is made of printable characters: what is not printable is escaped,
and an escape is written in ASCII (`isPrintable_quoteText`). A printable character is no control and
no surrogate, so a literal stays on its line and can be encoded whatever it holds.
-/

namespace GlyphFormat

namespace CodePoint

variable {c : CodePoint}

theorem isPrintable_of_ascii (hlo : 0x20 ≤ c.val) (hhi : c.val < 0x7F) : c.isPrintable = true := by
  obtain ⟨rest, hrest⟩ : ∃ rest, unprintables = (0x0, 0x1F) :: (0x7F, 0xA0) :: rest := ⟨_, rfl⟩
  have hcontains : unprintables.contains c.val = false := by
    rw [hrest, Ranges.contains, if_neg (by omega), decide_eq_false (by omega), Bool.false_or,
      Ranges.contains, if_pos hhi]
  rw [isPrintable, hcontains]
  rfl

/-- Controls and surrogates are not printable. -/
theorem isPrintable_apart (h : c.isPrintable = true) : 0x20 ≤ c.val ∧ c.isSurrogate = false := by
  have hascending : Ranges.Ascending unprintables := by decide +kernel
  have hcontrols : (0x0, 0x1F) ∈ unprintables := by decide +kernel
  have hsurrogates : (0xD7FC, 0xF8FF) ∈ unprintables := by decide +kernel
  have hnone : ∀ p ∈ unprintables, ¬(p.1 ≤ c.val ∧ c.val ≤ p.2) := fun p hp hc => by
    rw [isPrintable, (Ranges.contains_iff hascending).mpr ⟨p, hp, hc⟩] at h
    cases h
  have hlow := hnone _ hcontrols
  have hhigh := hnone _ hsurrogates
  exact ⟨by omega, isSurrogate_eq_false_iff.mpr (by omega)⟩

end CodePoint

section

variable {q c d : CodePoint}

/-- An escape by number is written with a backslash, braces and digits. -/
theorem Escape.isPrintable_of_mem_byNumber (h : d ∈ byNumber c) : d.isPrintable = true := by
  have hframe : ∀ a ∈ ['\\', 'u', '\x7b', '\x7d'].map CodePoint.ofChar, a.isPrintable = true := by
    decide
  have hdigits : ∀ k < 16, (CodePoint.digit k).isPrintable = true := by decide
  rw [byNumber_eq] at h
  simp only [List.mem_cons, List.mem_append, List.not_mem_nil, or_false] at h
  rcases h with rfl | rfl | rfl | h | rfl
  case inr.inr.inr.inl =>
    obtain ⟨k, hk, rfl⟩ := HexNumeral.isPlain_of_mem_numeral h
    exact hdigits k hk
  all_goals exact hframe _ (by decide)

/-- One code point is written with printable characters, in each of the four ways. -/
theorem isPrintable_of_mem_quoteOne (hq : q.isPrintable = true) (h : d ∈ quoteOne (some q) c) :
    d.isPrintable = true := by
  have hslash : (CodePoint.ofChar '\\').isPrintable = true := by decide
  have hletters : ∀ p ∈ Escape.letters, p.1.isPrintable = true := by decide
  unfold quoteOne at h
  split at h
  · rename_i hc
    obtain rfl := Option.some.inj hc
    rcases List.mem_cons.mp h with rfl | h
    · exact hslash
    · exact List.mem_singleton.mp h ▸ hq
  split at h
  · rename_i l hl
    rcases List.mem_cons.mp h with rfl | h
    · exact hslash
    · exact List.mem_singleton.mp h ▸ hletters _ (Escape.mem_of_letter? hl)
  split at h
  · rename_i hc
    exact List.mem_singleton.mp h ▸ hc
  · exact Escape.isPrintable_of_mem_byNumber h

theorem isPrintable_quoteText (hq : q.isPrintable = true) (t : Text) :
    ∀ d ∈ quoteText (some q) t, d.isPrintable = true := by
  intro d hd
  obtain ⟨c, -, hc⟩ := List.mem_flatMap.mp hd
  exact isPrintable_of_mem_quoteOne hq hc

theorem isPrintable_quoted {quote : Text} (hquote : ∀ d ∈ quote, d.isPrintable = true)
    (hq : q ∈ quote) (t : Text) :
    ∀ d ∈ quote ++ quoteText (some q) t ++ quote, d.isPrintable = true := by
  have hinside := isPrintable_quoteText (hquote q hq) t
  exact List.forall_mem_append.mpr ⟨List.forall_mem_append.mpr ⟨hquote, hinside⟩, hquote⟩

theorem isPrintable_quoteString (t : Text) : ∀ d ∈ quoteString t, d.isPrintable = true :=
  isPrintable_quoted (by decide) (List.mem_singleton_self _) t

theorem isPrintable_quoteChar (t : Text) : ∀ d ∈ quoteChar t, d.isPrintable = true :=
  isPrintable_quoted (by decide) (List.mem_singleton_self _) t

/-- Printable characters can be encoded. -/
theorem Text.isScalar_of_isPrintable {t : Text} (h : ∀ c ∈ t, c.isPrintable = true) : t.IsScalar :=
  fun c hc => (CodePoint.isPrintable_apart (h c hc)).2

end

end GlyphFormat
