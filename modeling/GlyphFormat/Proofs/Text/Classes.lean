import GlyphFormat.Primitive
import GlyphFormat.Text.Blank
import GlyphFormat.Text.Numeric

/-!
# Classes of code points

Letters, digits and blanks exclude each other, and no glyph is any of them. Two tables of ranges are
compared by going through both once (`Ranges.apart`); what follows only compares numbers.
-/

namespace GlyphFormat

namespace Ranges

theorem Ascending.head {p : Nat × Nat} {r : Ranges} (h : Ascending (p :: r)) : p.1 ≤ p.2 := by
  cases r with
  | nil => exact h
  | cons _ _ => exact h.1

theorem Ascending.dropWhile {r : Ranges} (h : Ascending r) (P : Nat × Nat → Bool) :
    Ascending (r.dropWhile P) := by
  induction r with
  | nil => exact trivial
  | cons p r ih =>
      rw [List.dropWhile_cons]
      split
      · exact ih h.tail
      · exact h

/-- No ranges of the two tables meet: in front of each range of the second table those of the first
that end before it are passed over, and the next one begins behind it. -/
def apart (r : Ranges) : Ranges → Bool
  | [] => true
  | q :: s =>
    let r := r.dropWhile (·.2 < q.1)
    r.head?.all (q.2 < ·.1) && apart r s

theorem lt_or_lt_of_apart {r s : Ranges} (hr : Ascending r) (hs : Ascending s)
    (h : apart r s = true) : ∀ p ∈ r, ∀ q ∈ s, p.2 < q.1 ∨ q.2 < p.1 := by
  induction s generalizing r with
  | nil => exact fun _ _ q hq => absurd hq List.not_mem_nil
  | cons q s ih =>
      intro p hp q' hq'
      obtain ⟨hnext, htail⟩ := Bool.and_eq_true_iff.mp h
      have hr' : Ascending (r.dropWhile (·.2 < q.1)) := hr.dropWhile _
      rw [← List.takeWhile_append_dropWhile (p := (·.2 < q.1)) (l := r)] at hp
      rcases List.mem_append.mp hp with hp | hp
      · have hlt := of_decide_eq_true (List.all_eq_true.mp List.all_takeWhile p hp)
        rcases List.mem_cons.mp hq' with rfl | hq'
        · exact Or.inl hlt
        · exact Or.inl (Nat.lt_trans hlt (Nat.lt_of_le_of_lt hs.head (lt_of_mem_ascending hs hq')))
      · rcases List.mem_cons.mp hq' with rfl | hq'
        · cases hrest : r.dropWhile (·.2 < q'.1) with
          | nil =>
              rw [hrest] at hp
              cases hp
          | cons p' r' =>
              rw [hrest] at hp hnext hr'
              have hlt := of_decide_eq_true hnext
              rcases List.mem_cons.mp hp with rfl | hp
              · exact Or.inr hlt
              · have hnext := lt_of_mem_ascending hr' hp
                exact Or.inr (Nat.lt_trans hlt (Nat.lt_of_le_of_lt hr'.head hnext))
        · exact ih hr' hs.tail htail p hp q' hq'

/-- A number in the second table is not in the first. -/
theorem not_contains_of_apart {r s : Ranges} (hr : Ascending r) (hs : Ascending s)
    (h : apart r s = true) {n : Nat} (hn : s.contains n = true) : r.contains n = false := by
  obtain ⟨q, hq, hq₁, hq₂⟩ := (contains_iff hs).mp hn
  refine Bool.eq_false_iff.mpr fun hc => ?_
  obtain ⟨p, hp, hp₁, hp₂⟩ := (contains_iff hr).mp hc
  have := lt_or_lt_of_apart hr hs h p hp q hq
  omega

end Ranges

theorem ascending_letters : Ranges.Ascending letters := by decide +kernel

theorem ascending_numerics : Ranges.Ascending numerics := by decide +kernel

theorem ascending_blanks : Ranges.Ascending blanks := by decide +kernel

namespace CodePoint

variable {c : CodePoint}

/-! ## The classes as numbers -/

theorem between_iff {lo hi : Char} :
    c.between lo hi = true ↔ lo.toNat ≤ c.val ∧ c.val ≤ hi.toNat := by
  simp only [between, Bool.and_eq_true, decide_eq_true_eq]

theorem isDigit_iff : c.isDigit = true ↔ 0x30 ≤ c.val ∧ c.val ≤ 0x39 := between_iff

theorem isSmallLetter_iff : c.isSmallLetter = true ↔ 0x61 ≤ c.val ∧ c.val ≤ 0x7A := between_iff

theorem isLetter_iff : c.isLetter = true ↔ ∃ p ∈ letters, p.1 ≤ c.val ∧ c.val ≤ p.2 :=
  Ranges.contains_iff ascending_letters

theorem eq_ofChar_iff {a : Char} : c = a ↔ c.val = a.toNat :=
  ⟨fun h => h ▸ rfl, fun h => ext h⟩

theorem isLineBreak_iff : c.isLineBreak = true ↔ c.val = 0xA ∨ c.val = 0xD := by
  simp only [isLineBreak, Bool.or_eq_true, decide_eq_true_eq, eq_ofChar_iff]
  rfl

/-! ## Letters -/

/-- The punctuation of the language and the digits all lie below the letters. -/
theorem le_val_of_isLetter (h : c.isLetter = true) : 0x41 ≤ c.val := by
  obtain ⟨p, hp, hp₁, -⟩ := isLetter_iff.mp h
  rcases List.mem_cons.mp hp with rfl | hp
  · exact hp₁
  · have hlt : 0x5A < p.1 := Ranges.lt_of_mem_ascending ascending_letters hp
    omega

theorem isLetter_of_isSmallLetter (h : c.isSmallLetter = true) : c.isLetter = true := by
  have small : (0x61, 0x7A) ∈ letters := List.mem_cons_of_mem _ List.mem_cons_self
  exact isLetter_iff.mpr ⟨_, small, isSmallLetter_iff.mp h⟩

theorem isBlank_of_isLetter (h : c.isLetter = true) : c.isBlank = false :=
  Ranges.not_contains_of_apart ascending_blanks ascending_letters (by decide +kernel) h

/-! ## Digits -/

theorem isAlphanumeric_of_isDigit (h : c.isDigit = true) : c.isAlphanumeric = true := by
  have ascii : (0x30, 0x39) ∈ numerics := List.mem_cons_self
  have hn : numerics.contains c.val = true :=
    (Ranges.contains_iff ascending_numerics).mpr ⟨_, ascii, isDigit_iff.mp h⟩
  rw [isAlphanumeric, hn, Bool.or_true]

theorem isLetter_of_isDigit (h : c.isDigit = true) : c.isLetter = false := by
  refine Bool.eq_false_iff.mpr fun hl => ?_
  have h₁ := le_val_of_isLetter hl
  have h₂ := isDigit_iff.mp h
  omega

theorem isBlank_of_isDigit (h : c.isDigit = true) : c.isBlank = false := by
  have apart : Ranges.apart blanks [(0x30, 0x39)] = true := by decide
  refine Ranges.not_contains_of_apart ascending_blanks (by decide) apart ?_
  exact (Ranges.contains_iff (by decide)).mpr ⟨_, List.mem_singleton_self _, isDigit_iff.mp h⟩

theorem isBlank_of_isLineBreak (h : c.isLineBreak = true) : c.isBlank = true := by
  rcases isLineBreak_iff.mp h with h | h <;> rw [isBlank, h] <;> decide

end CodePoint

/-! ## Runs of a class -/

namespace Text

/-- A run of a class ends where a code point outside the class comes next. -/
theorem takeWhile_run {p : CodePoint → Bool} {s rest : Text} (hs : ∀ c ∈ s, p c = true)
    (hrest : ∀ c ∈ rest.head?, p c = false) : (s ++ rest).takeWhile p = s := by
  rw [List.takeWhile_append_of_pos hs]
  cases rest with
  | nil => simp
  | cons c rest => simp [hrest c rfl]

theorem ofString_injective {s t : String} (h : ofString s = ofString t) : s = t := by
  refine String.toList_inj.mp ((List.map_inj_right fun a b hab => ?_).mp h)
  exact Char.ext (UInt32.toNat_inj.mp (congrArg CodePoint.val hab))

/-! ## Pieces between separators -/

theorem splitOn_ne_nil (sep : CodePoint) (s : Text) : s.splitOn sep ≠ [] := by
  cases s with
  | nil => exact nofun
  | cons c s =>
      rw [splitOn]
      split
      · exact nofun
      · split <;> exact nofun

/-- To leave out code points other than the separator does not move the separators. -/
theorem splitOn_filter {sep : CodePoint} {p : CodePoint → Bool} (hsep : p sep = true) (s : Text) :
    splitOn sep (s.filter p) = (splitOn sep s).map (List.filter p) := by
  induction s with
  | nil => rfl
  | cons c s ih =>
      obtain ⟨piece, pieces, hs⟩ := List.exists_cons_of_ne_nil (splitOn_ne_nil sep s)
      rw [hs, List.map_cons] at ih
      by_cases hc : c = sep
      · rw [hc, List.filter_cons_of_pos hsep, splitOn, if_pos rfl, splitOn, if_pos rfl, ih, hs]
        simp
      · rw [splitOn, if_neg hc, hs]
        by_cases hp : p c = true
        · rw [List.filter_cons_of_pos hp, splitOn, if_neg hc, ih]
          simp [hp]
        · rw [List.filter_cons_of_neg hp, ih]
          simp [hp]

end Text

/-! ## Primitives -/

namespace Primitive

variable {p : Primitive} {g : CodePoint}

/-- The code points of the glyphs. -/
def glyphs : Ranges :=
  [(0x2B, 0x2D), (0x2F, 0x2F), (0x3B, 0x3C), (0x3E, 0x3E), (0x5C, 0x5C), (0x5E, 0x5E),
  (0xAC, 0xAC), (0xAF, 0xAF), (0xB1, 0xB1), (0xD7, 0xD7), (0xF7, 0xF7), (0x2045, 0x2045),
  (0x2198, 0x2199), (0x21A5, 0x21A5), (0x21A7, 0x21A7), (0x21BB, 0x21BB), (0x21CC, 0x21CC),
  (0x21E1, 0x21E1), (0x221A, 0x221A), (0x221E, 0x221E), (0x2235, 0x2236), (0x2245, 0x2245),
  (0x2261, 0x2261), (0x2282, 0x2282), (0x228F, 0x228F), (0x229E, 0x229F), (0x22A1, 0x22A2),
  (0x22C5, 0x22C5), (0x2308, 0x2308), (0x230A, 0x230A), (0x2335, 0x2335), (0x2349, 0x2349),
  (0x234B, 0x234B), (0x2365, 0x2365), (0x25B3, 0x25B3), (0x25FF, 0x25FF), (0x266D, 0x266D),
  (0x29FB, 0x29FB)]

theorem ascending_glyphs : Ranges.Ascending glyphs := by decide

theorem contains_glyphs (h : p.glyph? = some g) : glyphs.contains g.val = true := by
  cases p <;> cases h <;> decide

/-- A glyph neither joins what stands before it nor counts as the end of a line's blanks. -/
theorem glyph_classes (h : p.glyph? = some g) :
    g.isLetter = false ∧ g.isAlphanumeric = false ∧ g.isBlank = false := by
  have hglyph := contains_glyphs h
  have hletter : g.isLetter = false :=
    Ranges.not_contains_of_apart ascending_letters ascending_glyphs (by decide +kernel) hglyph
  have hnumeric : numerics.contains g.val = false :=
    Ranges.not_contains_of_apart ascending_numerics ascending_glyphs (by decide +kernel) hglyph
  refine ⟨hletter, ?_, ?_⟩
  · rw [CodePoint.isAlphanumeric, hletter, hnumeric]
    rfl
  · exact Ranges.not_contains_of_apart ascending_blanks ascending_glyphs (by decide) hglyph

theorem ofGlyph?_glyph (h : p.glyph? = some g) : ofGlyph? g = some p := by
  have all : ∀ p ∈ Primitive.all, ∀ g ∈ p.glyph?, ofGlyph? g = some p := by decide +kernel
  exact all p (mem_all p) g h

theorem glyph?_of_ofGlyph? (h : ofGlyph? g = some p) : p.glyph? = some g := by
  simpa using List.find?_some h

theorem name_of_ofName? {n : Text} (h : ofName? n = some p) : p.name = n := by
  simpa using List.find?_some h

/-- No two primitives have one name. -/
theorem ofName?_name (p : Primitive) : ofName? p.name = some p := by
  have all : ∀ p ∈ Primitive.all, Primitive.all.find? (·.spelling = p.spelling) = some p := by
    decide +kernel
  have hname : ∀ q : Primitive, q.name = p.name ↔ q.spelling = p.spelling := fun q =>
    ⟨fun h => Text.ofString_injective h, congrArg Text.ofString⟩
  rw [ofName?]
  simp only [hname]
  exact all p (mem_all p)

/-- The name of a primitive is a name of the language. -/
theorem name_isLetter (p : Primitive) : p.name ≠ [] ∧ ∀ c ∈ p.name, c.isLetter = true := by
  have small : p.name ≠ [] ∧ ∀ c ∈ p.name, c.isSmallLetter = true := by cases p <;> decide
  exact ⟨small.1, fun c hc => CodePoint.isLetter_of_isSmallLetter (small.2 c hc)⟩

/-- A letter is no glyph, so a name is never cut short. -/
theorem ofGlyph?_of_isLetter {c : CodePoint} (h : c.isLetter = true) : ofGlyph? c = none := by
  cases hp : ofGlyph? c with
  | none => rfl
  | some p =>
      have := (glyph_classes (glyph?_of_ofGlyph? hp)).1
      rw [h] at this
      cases this

end Primitive

end GlyphFormat
