import GlyphFormat.Proofs.Formatter.Phases
import GlyphFormat.Proofs.Writing.Printed
import GlyphFormat.Proofs.Writing.Separate

/-!
# One line for each item

Writing goes item by item, and no item knows how the text before it looks: each is written as it
would be on a fresh sheet (`Writing.items_separate`). The items of a source take one line each,
since nothing that is written holds a line break, and the blank ones among these lines are those of
blank lines.
-/

namespace GlyphFormat

/-! ## Dividing lines -/

theorem Text.splitOn_line {line : Text} (h : CodePoint.ofChar '\n' ∉ line) (rest : Text) :
    splitOn '\n' ((line ++ "\n") ++ rest) = line :: splitOn '\n' rest := by
  induction line with
  | nil => rfl
  | cons c line ih =>
      obtain ⟨hc, hline⟩ := not_or.mp (mt List.mem_cons.mpr h)
      rw [List.cons_append, List.cons_append, splitOn, if_neg (Ne.symm hc), ih hline]

/-- Lines without line feeds are divided as they were put together. -/
theorem Text.splitOn_ofLines {lines : List Text}
    (h : ∀ line ∈ lines, CodePoint.ofChar '\n' ∉ line) :
    splitOn '\n' (ofLines lines) = lines ++ [[]] := by
  induction lines with
  | nil => rfl
  | cons line lines ih =>
      obtain ⟨hline, hlines⟩ := List.forall_mem_cons.mp h
      rw [ofLines_cons, splitOn_line hline, ih hlines]
      rfl

/-! ## Lines of well-formed items -/

theorem CodePoint.isLineBreak_of_isPrintable {c : CodePoint} (h : c.isPrintable = true) :
    c.isLineBreak = false := by
  have hlow := (isPrintable_apart h).1
  refine Bool.eq_false_iff.mpr fun hbreak => ?_
  rcases isLineBreak_iff.mp hbreak with h | h <;> omega

namespace Item

variable {i : Item} {bound : Text → Bool}

/-- No line break is written inside a line. -/
theorem isLineBreak_lineText (hi : i.WellFormed) :
    ∀ c ∈ i.lineText bound, c.isLineBreak = false := by
  refine Layout.forall_line (fun c => CodePoint.isLineBreak_of_isPrintable) nofun hi ?_
  rintro t span rfl
  exact hi

/-- All items but blank lines write something. -/
theorem exists_ink (hi : i.WellFormed) (hlines : i.isNewlines = false) :
    ∃ c ∈ i.lineText bound, c.isBlank = false := by
  cases i with
  | words ws span =>
      obtain ⟨c, hc, hblank⟩ : (Layout.line bound {} (.words ws span)).EndsInk :=
        Layout.endsInk_line hi hi.1
      exact ⟨c, List.mem_of_getLast? hc, hblank⟩
  | binding n ws nameSpan span =>
      obtain ⟨c, hc⟩ := List.exists_mem_of_ne_nil n hi.1.1
      obtain ⟨t, ht⟩ := lineText_binding bound n ws nameSpan span
      refine ⟨c, ?_, CodePoint.isBlank_of_isLetter (hi.1.2 c hc)⟩
      rw [ht]
      exact List.mem_append_left _ hc
  | comment t span =>
      rw [lineText_comment]
      exact ⟨'#', List.mem_append_left _ (by decide), by decide +kernel⟩
  | newlines _ => cases hlines
  | missing => exact hi.elim

theorem isBlank_lineText_iff (hi : i.WellFormed) :
    (∀ c ∈ i.lineText bound, c.isBlank = true) ↔ i.isNewlines = true := by
  cases hlines : i.isNewlines with
  | true =>
      refine iff_of_true ?_ rfl
      cases i with
      | newlines _ => exact nofun
      | _ => cases hlines
  | false =>
      obtain ⟨c, hc, hblank⟩ : ∃ c ∈ i.lineText bound, c.isBlank = false := exists_ink hi hlines
      refine iff_of_false (fun hall => ?_) Bool.false_ne_true
      rw [hall c hc] at hblank
      cases hblank

end Item

/-- Under a scope whose answers depend on the name and the items before alone, items that have texts
are written as one line each. The line of an item is what it writes on a fresh sheet under the
scope, told of the items before. If the items are those of a source, no line holds a line break, so
the text is divided into just these lines, and the blank ones are those of blank lines. -/
theorem Writing.items_separate {σ : Type} [Scope σ] {start : σ} {bound : List Item → Text → Bool}
    (hbound : Scope.Answers start bound) {items : List Item} (hitems : ∀ i ∈ items, i.Writable) :
    ∃ lines : List Text, lines.length = items.length ∧
      (∃ s, (Writing.items items).onSheet start = (.ok (), s) ∧
        s.layout.text = Text.ofLines lines) ∧
      (∀ (k : Nat) i line, items[k]? = some i → lines[k]? = some line →
        ∀ s, Scope.Reached start (items.take k) s →
          ∃ s', (Writing.item i).onSheet s = (.ok (), s') ∧ s'.layout.text = line ++ "\n") ∧
      ∀ source path, (parse source path).diagnostics = [] → items = (parse source path).items →
        (∀ line ∈ lines, ∀ c ∈ line, c.isLineBreak = false) ∧
        (Text.ofLines lines).splitOn '\n' = lines ++ [[]] ∧
        ∀ (k : Nat) i line, items[k]? = some i → lines[k]? = some line →
          ((∀ c ∈ line, c.isBlank = true) ↔ i.isNewlines = true) := by
  have hline : ∀ {k : Nat} {i line}, items[k]? = some i →
      (lineTexts bound [] items)[k]? = some line → i.lineText (bound (items.take k)) = line := by
    intro k i line hi hline
    rw [getElem?_lineTexts, hi] at hline
    exact Option.some.inj hline
  refine ⟨lineTexts bound [] items, length_lineTexts bound [] items, ?_, ?_, ?_⟩
  · obtain ⟨s, -, hrun⟩ :=
      runs_items hbound hitems (show Scope.Reached start [] start from .start) {}
    exact ⟨_, hrun, Layout.text_lines bound items⟩
  · intro k i line hi hk s hs
    have hrun := runs_item (hitems i (List.mem_of_getElem? hi)) {} s
    rw [(Mark.settleAll_of_answers hbound i.marks hs).1] at hrun
    refine ⟨_, hrun, ?_⟩
    rw [Layout.text_push, ← hline hi hk]
    rfl
  · rintro source path hdiag rfl
    have hformed := (wellFormed_of_parse hdiag).each
    have hbreaks : ∀ line ∈ lineTexts bound [] (parse source path).items,
        ∀ c ∈ line, c.isLineBreak = false := by
      intro line hmem
      obtain ⟨k, hk⟩ := List.getElem?_of_mem hmem
      rw [getElem?_lineTexts] at hk
      obtain ⟨i, hi, rfl⟩ := Option.map_eq_some_iff.mp hk
      exact Item.isLineBreak_lineText (hformed i (List.mem_of_getElem? hi))
    refine ⟨hbreaks, Text.splitOn_ofLines fun line hmem hfeed => ?_, fun k i line hi hk => ?_⟩
    · cases hbreaks line hmem _ hfeed
    · rw [← hline hi hk]
      exact Item.isBlank_lineText_iff (hformed i (List.mem_of_getElem? hi))

/-- A binding of a strand, two blank lines, and a modifier with a comment behind it. The third item
is written alone under a scope that has learned the name of the first. -/
theorem Writing.items_separate_blank :
    (∃ s, (Writing.items (parse "x=1_2 3\n\n\ntable x # c" none).items).onSheet ({} : Preset) =
        (.ok (), s) ∧ s.layout.text = Text.ofLines ["x = 1_2 3", "", "⊞x", "# c"]) ∧
      (Text.ofLines ["x = 1_2 3", "", "⊞x", "# c"]).splitOn '\n' =
        ["x = 1_2 3", "", "⊞x", "# c"].map Text.ofString ++ [[]] ∧
      ∃ i start s, (parse "x=1_2 3\n\n\ntable x # c" none).items[2]? = some i ∧
        start.bound.contains (Text.ofString "x") = true ∧
        (Writing.item i).onSheet (start : Preset) = (.ok (), s) ∧
        s.layout.text = Text.ofString "⊞x" ++ "\n" := by
  have hdiag : (parse "x=1_2 3\n\n\ntable x # c" none).diagnostics = [] := by decide +kernel
  have hitems : ∀ i ∈ (parse "x=1_2 3\n\n\ntable x # c" none).items, i.Writable :=
    fun i hi => ((wellFormed_of_parse hdiag).each i hi).writable
  obtain ⟨lines, -, ⟨s, hsheet, htext⟩, heach, hsource⟩ :=
    items_separate (Preset.answers {}) hitems
  obtain ⟨-, hsplit, -⟩ := hsource _ _ hdiag rfl
  have hwritten : ((Writing.items (parse "x=1_2 3\n\n\ntable x # c" none).items).onSheet
      ({} : Preset)).2.layout.text = Text.ofString "x = 1_2 3\n\n⊞x\n# c\n" := by decide +kernel
  rw [hsheet, htext] at hwritten
  have hlines : lines = ["x = 1_2 3", "", "⊞x", "# c"].map Text.ofString := by
    rw [hwritten] at hsplit
    exact (List.append_inj_left' (hsplit.symm.trans (by decide +kernel)) rfl)
  subst hlines
  obtain ⟨i, hi⟩ : ∃ i, (parse "x=1_2 3\n\n\ntable x # c" none).items[2]? = some i :=
    Option.isSome_iff_exists.mp (by decide +kernel)
  have hfresh : Scope.Reached ({} : Preset) [] {} := .start
  obtain ⟨start, hstart⟩ :=
    hfresh.exists_append ((parse "x=1_2 3\n\n\ntable x # c" none).items.take 2)
  obtain ⟨s', hs', htext'⟩ := heach 2 i _ hi rfl start hstart
  refine ⟨⟨s, hsheet, htext⟩, hsplit, i, start, s', hi, ?_, hs', htext'⟩
  rw [(Preset.reached hstart).2.2]
  decide +kernel

end GlyphFormat
