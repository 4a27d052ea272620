import GlyphFormat.Proofs.Formatter.ItemLines
import GlyphFormat.Proofs.Formatter.Sources
import GlyphFormat.Proofs.Writing.Tight

/-!
# Canonical whitespace

The canonical text of a source has no blanks to spare (`formatSource_whitespace`): none at the ends
of a line, one at most between tokens, and blank lines one by one between others. That is read off
from its lines, one for each item (`canonicalText_eq_ofLines`). Each is tidy by itself
(`Text.TidyLine`), and which of them are blank is known from the items.
-/

namespace GlyphFormat

namespace Text

/-- The lines of a text whose last line ends like the others. -/
def lines (t : Text) : List Text := (t.splitOn '\n').dropLast

def isBlank (t : Text) : Bool := t.all CodePoint.isBlank

/-- A text with no more whitespace than a canonical text has. A line that begins with the mark of a
comment is one to its end, and the text of a comment is free. -/
structure WhitespaceNormal (t : Text) : Prop where
  ends : ∃ u, t = u ++ "\n" ∧ u.getLast? ≠ some '\n'
  returns : CodePoint.ofChar '\r' ∉ t
  apart : ∀ before a b after, t.lines = before ++ a :: b :: after →
    a.isBlank = false ∨ b.isBlank = false
  first : ∀ line ∈ t.lines, line.head? ≠ some ' ' ∧ line.head? ≠ some '\t'
  /-- Outside of comments there is no tab at all, since literals escape theirs. -/
  inline : ∀ line ∈ t.lines, line.head? ≠ some '#' →
    CodePoint.ofChar '\t' ∉ line ∧ ∀ c ∈ line.getLast?, c.isBlank = false
  scanned : (tokenize t).2 = none
  /-- What stands between adjacent tokens, the end of input among them. -/
  gaps : ∀ before x y after, (tokenize t).1 = before ++ x :: y :: after →
    t.slice x.stop y.start = [] ∨ t.slice x.stop y.start = " "

/-! ## Tidy lines -/

/-- A line as it stands in a text with no more whitespace than that. -/
structure TidyLine (line : Text) : Prop where
  tight : TightBefore (line ++ "\n")
  breaks : ∀ c ∈ line, c.isLineBreak = false
  first : ∀ c ∈ line.head?, Scanner.isSpace c = false
  inline : line.head? ≠ some '#' →
    CodePoint.ofChar '\t' ∉ line ∧ ∀ c ∈ line.getLast?, c.isBlank = false

theorem tidyLine_nil : TidyLine [] :=
  ⟨TightBefore.nil.newline, nofun, nofun, fun _ => ⟨nofun, nofun⟩⟩

theorem not_mem_ofLines {lines : List Text} (h : ∀ line ∈ lines, line.TidyLine) {c : CodePoint}
    (hbreak : c.isLineBreak = true) (hc : c ≠ '\n') : c ∉ ofLines lines := by
  intro hmem
  obtain ⟨line, hline, hmem⟩ := List.mem_flatMap.mp hmem
  rcases List.mem_append.mp hmem with hmem | hmem
  · rw [(h line hline).breaks c hmem] at hbreak
    cases hbreak
  · exact hc (List.mem_singleton.mp hmem)

theorem lines_ofLines {lines : List Text} (h : ∀ line ∈ lines, line.TidyLine) :
    (ofLines lines).lines = lines := by
  have hfeeds : ∀ line ∈ lines, CodePoint.ofChar '\n' ∉ line := fun line hline hmem => by
    cases (h line hline).breaks _ hmem
  rw [Text.lines, splitOn_ofLines hfeeds, List.dropLast_concat]

/-- Tidy lines make up a text with canonical whitespace, if no two blank ones meet and the last one
is not empty, or alone. -/
theorem whitespaceNormal_ofLines {lines : List Text} {line : Text}
    (h : ∀ l ∈ lines ++ [line], l.TidyLine) (hlast : lines = [] ∨ line ≠ [])
    (hapart : ∀ before a b after, lines ++ [line] = before ++ a :: b :: after →
      a.isBlank = false ∨ b.isBlank = false) :
    (ofLines (lines ++ [line])).WhitespaceNormal := by
  have hlines := lines_ofLines h
  obtain ⟨hscanned, hgaps⟩ := (TightBefore.ofLines fun l hl => (h l hl).tight).tight.between
  refine ⟨⟨ofLines lines ++ line, ?_, fun hfeed => ?_⟩, not_mem_ofLines h rfl (by decide),
    hlines.symm ▸ hapart, fun l hl => ?_, fun l hl => ?_, hscanned, hgaps⟩
  · rw [ofLines_concat, List.append_assoc]
  · by_cases hline : line = []
    · obtain rfl := hlast.resolve_right (not_not_intro hline)
      subst hline
      cases hfeed
    · rw [List.getLast?_append_of_ne_nil _ hline] at hfeed
      cases (h line (by simp)).breaks _ (List.mem_of_getLast? hfeed)
  · have hfirst := (h l (hlines ▸ hl)).first
    exact ⟨fun hhead => absurd (hfirst _ hhead) (by decide),
      fun hhead => absurd (hfirst _ hhead) (by decide)⟩
  · exact (h l (hlines ▸ hl)).inline

end Text

/-! ## Lines of items are tidy -/

namespace Layout

theorem makeRoom_empty (m : Mark) : m.makeRoom {} = {} := by
  cases m with
  | number _ | char _ | string _ | ident _ | selector _ => rfl
  | prim p =>
      rw [Mark.makeRoom]
      split <;> rfl
  | punctuation _ | strandEnd | missing => rfl

/-- What is written first on a sheet does not begin with a space. -/
theorem isSpace_first_putAll {m : Mark} {ms : List Mark} (hm : m.Lexable) (hne : m ≠ .strandEnd) :
    ∀ c ∈ (((m :: ms).foldl put {}).text).head?, Scanner.isSpace c = false := by
  intro c hc
  obtain ⟨lexeme, hlexeme⟩ := Mark.exists_lexeme hm hne
  obtain ⟨hvalid, hinline⟩ := Mark.valid_lexeme hm hlexeme
  have hput : (put {} m).text = lexeme.text := by
    rw [text_put_of_lexeme hlexeme, makeRoom_empty]
    rfl
  obtain ⟨t, ht⟩ := text_putAll (put {} m) ms
  rw [List.foldl_cons, ht, hput,
    List.head?_append_of_ne_nil _ (Lexeme.text_ne_nil hvalid hinline)] at hc
  have hscan : Lexeme.scan (lexeme.text ++ []) = .found lexeme.text.length lexeme :=
    Lexeme.scan_inline hvalid hinline fun _ _ _ hd => by cases hd
  have hfirst := Lexeme.isSpace_first_of_scan hscan
  obtain ⟨u, hu⟩ := List.head?_eq_some_iff.mp hc
  rw [hu] at hfirst
  exact hfirst

end Layout

namespace Item

variable {i : Item} {bound : Text → Bool}

theorem isSpace_first_lineText (hi : i.WellFormed) :
    ∀ c ∈ (i.lineText bound).head?, Scanner.isSpace c = false := by
  intro c hc
  cases i with
  | words ws span =>
      obtain ⟨m, ms, hmarks, hne⟩ := hi.first_mark hi.1
      have hm : (m.resolve bound).Lexable :=
        Mark.lexable_resolve (hi.lexable m (hmarks ▸ List.mem_cons_self))
      rw [lineText, Layout.line, hmarks, List.map_cons] at hc
      exact Layout.isSpace_first_putAll hm (Mark.resolve_ne_strandEnd hne) c hc
  | binding n ws nameSpan span =>
      obtain ⟨t, ht⟩ := lineText_binding bound n ws nameSpan span
      rw [ht, List.head?_append_of_ne_nil _ hi.1.1] at hc
      have hletter := hi.1.2 c (List.mem_of_mem_head? hc)
      refine Bool.eq_false_iff.mpr fun hspace => ?_
      rcases Bool.or_eq_true_iff.mp hspace with h | h
      all_goals
        obtain rfl := of_decide_eq_true h
        revert hletter
        decide +kernel
  | comment t span =>
      rw [lineText_comment] at hc
      obtain rfl := Option.some.inj hc
      rfl
  | newlines _ => cases hc
  | missing => exact hi.elim

/-- The line of an item with a value is tidy. -/
theorem tidyLine_lineText (hi : i.WellFormed) (hvalue : i.hasValue = true) :
    (i.lineText bound).TidyLine := by
  refine ⟨tightBefore_line hi hvalue, isLineBreak_lineText hi, isSpace_first_lineText hi,
    fun hmark => ?_⟩
  have hwords : ∀ t span, i ≠ .comment t span := by
    rintro t span rfl
    exact hmark (by rw [lineText_comment]; rfl)
  refine ⟨fun htab => ?_, fun c hc => ?_⟩
  · have hprintable : (CodePoint.ofChar '\t').isPrintable = true :=
      Layout.isPrintable_line (fun _ h => absurd h List.not_mem_nil) hi hwords _ htab
    revert hprintable
    decide +kernel
  · cases hlines : i.isNewlines with
    | true =>
        cases i with
        | newlines _ => cases hc
        | _ => cases hlines
    | false =>
        rw [← trimRight_lineText hi hvalue hlines hwords] at hc
        exact Text.isBlank_trimRight _ c hc

/-- So it is without the blanks at its end. -/
theorem tidyLine_trimRight (hi : i.WellFormed) (hvalue : i.hasValue = true)
    (hlines : i.isNewlines = false) : (i.lineText bound).trimRight.TidyLine := by
  have htidy : (i.lineText bound).TidyLine := tidyLine_lineText hi hvalue
  obtain ⟨t, span, rfl⟩ | hwords := i.comment_or
  · obtain ⟨u, hu⟩ := Text.eq_of_first_eq (Lexeme.scan_trimComment hi).1 (by decide)
    have hline : ((comment t span).lineText bound).trimRight = CodePoint.ofChar '#' :: u := by
      rw [lineText_comment, hu]
    refine ⟨tightBefore_trimLine hi hvalue hlines,
      fun c hc => htidy.breaks c (Text.mem_of_mem_trimRight hc), fun c hc => ?_, fun hmark => ?_⟩
    · rw [hline] at hc
      obtain rfl := Option.some.inj hc
      rfl
    · rw [hline] at hmark
      exact absurd rfl hmark
  · rw [trimRight_lineText hi hvalue hlines hwords]
    exact htidy

theorem isBlank_lineText (hi : i.WellFormed) : (i.lineText bound).isBlank = i.isNewlines :=
  Bool.eq_iff_iff.mpr (List.all_eq_true.trans (isBlank_lineText_iff hi))

theorem trimRight_ne_nil (hi : i.WellFormed) (hlines : i.isNewlines = false) :
    (i.lineText bound).trimRight ≠ [] := by
  rw [ne_eq, Text.trimRight_eq_nil_iff, isBlank_lineText_iff hi, hlines]
  exact Bool.false_ne_true

theorem isBlank_trimLine (hi : i.WellFormed) (hlines : i.isNewlines = false) :
    (i.lineText bound).trimRight.isBlank = i.isNewlines := by
  have hne : (i.lineText bound).trimRight ≠ [] := trimRight_ne_nil hi hlines
  have hlast := List.getLast?_eq_some_getLast hne
  rw [hlines, Text.isBlank, List.all_eq_false]
  refine ⟨_, List.mem_of_getLast? hlast, ?_⟩
  rw [Text.isBlank_trimRight _ _ hlast]
  exact Bool.false_ne_true

end Item

/-! ## Canonical texts -/

theorem map_isBlank_lineTexts {is : List Item} (his : ∀ i ∈ is, i.WellFormed)
    (bound : List Item → Text → Bool) (done : List Item) :
    (lineTexts bound done is).map Text.isBlank = is.map Item.isNewlines := by
  induction is generalizing done with
  | nil => rfl
  | cons i is ih =>
      obtain ⟨hi, his⟩ := List.forall_mem_cons.mp his
      rw [lineTexts, List.map_cons, List.map_cons, Item.isBlank_lineText hi, ih his]

/-- Trimming the text trims the line of the last item. -/
theorem canonicalText_eq_ofLines {bound : List Item → Text → Bool} {is : List Item} {i : Item}
    (hi : i.WellFormed) (hlines : i.isNewlines = false) :
    canonicalText bound (is ++ [i]) =
      Text.ofLines (lineTexts bound [] is ++ [(i.lineText (bound is)).trimRight]) := by
  have htext : ((Layout.lines bound {} [] is).line (bound is) i).text =
      Text.ofLines (lineTexts bound [] is) ++ i.lineText (bound is) := by
    rw [Layout.lines_eq_behind, Layout.line_behind _ (Layout.lineBase_ofLines _),
      Layout.text_behind]
    rfl
  rw [canonicalText_concat, htext,
    Text.trimRight_append_of_ne_nil (Item.trimRight_ne_nil hi hlines), Text.ofLines_concat,
    List.append_assoc]
  rfl

/-- The canonical text of well-formed items with values is made of tidy lines, and those of blank
lines are blank. -/
theorem tidyLines_canonicalText (bound : List Item → Text → Bool) {items : List Item}
    (hitems : WellFormedItems items) (hvalues : ∀ i ∈ items, i.hasValue = true)
    (hne : items ≠ []) : ∃ (lines : List Text) (line : Text),
      canonicalText bound items = Text.ofLines (lines ++ [line]) ∧
      (∀ l ∈ lines ++ [line], l.TidyLine) ∧ line ≠ [] ∧
      (lines ++ [line]).map Text.isBlank = items.map Item.isNewlines := by
  rcases List.eq_nil_or_concat items with rfl | ⟨is, i, rfl⟩
  · exact absurd rfl hne
  · rw [List.concat_eq_append] at hitems hvalues ⊢
    obtain ⟨his, hi⟩ := List.forall_mem_append.mp hitems.each
    obtain ⟨hisValues, hvalue⟩ := List.forall_mem_append.mp hvalues
    have hi := List.forall_mem_singleton.mp hi
    have hvalue := List.forall_mem_singleton.mp hvalue
    have hlines := hitems.last i List.getLast?_concat
    refine ⟨_, _, canonicalText_eq_ofLines hi hlines, ?_, Item.trimRight_ne_nil hi hlines, ?_⟩
    · refine List.forall_mem_append.mpr ⟨fun l hl => ?_, List.forall_mem_singleton.mpr ?_⟩
      · obtain ⟨k, hk⟩ := List.getElem?_of_mem hl
        rw [getElem?_lineTexts] at hk
        obtain ⟨j, hj, rfl⟩ := Option.map_eq_some_iff.mp hk
        have hmem := List.mem_of_getElem? hj
        exact Item.tidyLine_lineText (his j hmem) (hisValues j hmem)
      · exact Item.tidyLine_trimRight hi hvalue hlines
    · rw [List.map_append, List.map_append, map_isBlank_lineTexts his, List.map_singleton,
        List.map_singleton, Item.isBlank_trimLine hi hlines]

theorem SoundItems.hasValue {done is : List Item} (h : SoundItems done is) :
    ∀ i ∈ is, i.hasValue = true := by
  induction is generalizing done with
  | nil => exact nofun
  | cons i is ih => exact List.forall_mem_cons.mpr ⟨h.1.2, ih h.2⟩

/-- The canonical text of a source has no whitespace to spare, and if the source holds anything the
first and the last line of the text are not blank. -/
theorem formatSource_whitespace {s t : Text} {path : Option Path}
    (h : formatSource s path = .ok t) : t.WhitespaceNormal ∧ ((parse s path).items ≠ [] →
      (∃ line, t.lines.head? = some line ∧ line.isBlank = false) ∧
        ∃ line, t.lines.getLast? = some line ∧ line.isBlank = false) := by
  obtain ⟨hdiag, hsound, rfl⟩ := formatSource_eq_ok_iff.mp h
  have hitems := wellFormed_of_parse hdiag
  by_cases hne : (parse s path).items = []
  · have hempty : ∀ l ∈ ([] ++ [[]] : List Text), l.TidyLine :=
      List.forall_mem_singleton.mpr Text.tidyLine_nil
    rw [hne]
    refine ⟨Text.whitespaceNormal_ofLines hempty (.inl rfl) fun before a b after hsplit => ?_,
      fun hne => absurd rfl hne⟩
    have hlength := congrArg List.length hsplit
    simp at hlength
    omega
  · obtain ⟨lines, line, htext, htidy, hline, hshape⟩ :=
      tidyLines_canonicalText boundBefore hitems hsound.hasValue hne
    rw [htext, Text.lines_ofLines htidy]
    refine ⟨Text.whitespaceNormal_ofLines htidy (.inr hline) fun _ _ _ _ hsplit =>
      hitems.apart_of_shape hshape hsplit, fun _ => ⟨?_, ?_⟩⟩
    · obtain ⟨i, is, hcons⟩ := List.exists_cons_of_ne_nil hne
      have hhead : (lines ++ [line]).head?.map Text.isBlank = some i.isNewlines := by
        rw [← List.head?_map, hshape, hcons]
        rfl
      rw [hitems.first i (hcons ▸ rfl)] at hhead
      exact Option.map_eq_some_iff.mp hhead
    · have hlast := List.getLast?_eq_some_getLast hne
      have hblank : (lines ++ [line]).getLast?.map Text.isBlank =
          some ((parse s path).items.getLast hne).isNewlines := by
        rw [← List.getLast?_map, hshape, List.getLast?_map, hlast]
        rfl
      rw [hitems.last _ hlast] at hblank
      exact Option.map_eq_some_iff.mp hblank

/-- Tabs and spaces around a strand, more blank lines than one, and comments with blanks at the end,
which only the last one loses. -/
theorem formatSource_whitespace_comments :
    formatSource "\n x=1_2 \t3\t'a'\n\n \n\n# c\td \n table x(+)\n# e  \n\n" none =
        .ok "x = 1_2 3 'a'\n\n# c\td \n⊞x(+)\n# e\n" ∧
      (Text.ofString "x = 1_2 3 'a'\n\n# c\td \n⊞x(+)\n# e\n").WhitespaceNormal ∧
      (∃ line, (Text.ofString "x = 1_2 3 'a'\n\n# c\td \n⊞x(+)\n# e\n").lines.head? = some line ∧
        line.isBlank = false) ∧
      ∃ line, (Text.ofString "x = 1_2 3 'a'\n\n# c\td \n⊞x(+)\n# e\n").lines.getLast? =
        some line ∧ line.isBlank = false := by
  have hformat :
      formatSource "\n x=1_2 \t3\t'a'\n\n \n\n# c\td \n table x(+)\n# e  \n\n" none =
        .ok "x = 1_2 3 'a'\n\n# c\td \n⊞x(+)\n# e\n" := by decide +kernel
  obtain ⟨hnormal, hends⟩ := formatSource_whitespace hformat
  exact ⟨hformat, hnormal, hends (List.ne_nil_of_length_pos (by decide +kernel))⟩

end GlyphFormat
