import GlyphFormat.Formatter
import GlyphFormat.Proofs.Writing.Lines

/-!
# The end of the text

When all items are written the blanks at the end of the text go and one line break comes. That
touches the last line only, and there only what the canonical items do not need: the line still
spells the last item, up to blanks at the end of a comment (`lexes_canonicalText`).
-/

namespace GlyphFormat

namespace Mark

variable {m : Mark} {lexeme : Lexeme}

/-- What can be lexed writes something, except where a strand ends. -/
theorem exists_lexeme (hm : m.Lexable) (hne : m ≠ .strandEnd) :
    ∃ lexeme, m.lexeme? = some lexeme := by
  cases m with
  | selector s =>
      obtain ⟨t, ht, -, -⟩ := Selector.characters?_of_hasLetter hm.2
      exact ⟨.selector t, by rw [lexeme?, ht]; rfl⟩
  | strandEnd => exact absurd rfl hne
  | missing => exact absurd hm id
  | _ => exact ⟨_, rfl⟩

theorem resolve_ne_strandEnd {bound : Text → Bool} (hne : m ≠ .strandEnd) :
    m.resolve bound ≠ .strandEnd := by
  cases m with
  | ident n =>
      show ofName (bound n) n ≠ .strandEnd
      unfold ofName
      split <;> intro h <;> cases h
  | _ => exact hne

/-- No mark ends in a blank. -/
theorem isBlank_last (hm : m.Lexable) (h : m.lexeme? = some lexeme) :
    ∀ c ∈ lexeme.text.getLast?, c.isBlank = false := by
  have hmem : ∀ {t : Text}, (∀ c ∈ t, c.isBlank = false) → ∀ c ∈ t.getLast?, c.isBlank = false :=
    fun ht c hc => ht c (List.mem_of_getLast? hc)
  intro c hc
  cases m with
  | number x =>
      obtain rfl := Option.some.inj h
      obtain ⟨d, hd, hdigit⟩ := Lexeme.getLast?_format hm
      obtain rfl : d = c := Option.some.inj (hd.symm.trans hc)
      exact CodePoint.isBlank_of_isDigit hdigit
  | char t | string t =>
      obtain rfl := Option.some.inj h
      obtain rfl := Option.some.inj (List.getLast?_concat.symm.trans hc)
      decide +kernel
  | ident n =>
      obtain rfl := Option.some.inj h
      exact hmem (fun d hd => CodePoint.isBlank_of_isLetter (hm.2 d hd)) c hc
  | selector s =>
      obtain ⟨t, ht, hsmall, hslots⟩ := Selector.characters?_of_hasLetter hm.2
      rw [lexeme?, ht] at h
      obtain rfl := Option.some.inj h
      have hall : ∀ d ∈ CodePoint.ofChar ':' :: t, d.isBlank = false := by
        refine List.forall_mem_cons.mpr ⟨by decide +kernel, fun d hd => ?_⟩
        exact CodePoint.isBlank_of_isLetter (CodePoint.isLetter_of_isSmallLetter (hsmall d hd))
      exact hmem hall c hc
  | prim p =>
      obtain rfl := Option.some.inj h
      rw [Writing.text_primitive, Primitive.display] at hc
      cases hg : p.glyph? with
      | some g =>
          rw [hg] at hc
          obtain rfl : g = c := Option.some.inj hc
          exact (Primitive.glyph_classes hg).2.2
      | none =>
          rw [hg] at hc
          exact hmem (fun d hd => CodePoint.isBlank_of_isLetter (p.name_isLetter.2 d hd)) c hc
  | punctuation p =>
      obtain rfl := Option.some.inj h
      obtain ⟨e, he⟩ := hm
      obtain ⟨-, htext, -, -, -, hblank⟩ := punctuation_spec he
      rw [htext] at hc
      obtain rfl : e = c := Option.some.inj hc
      exact hblank
  | strandEnd | missing => cases h

end Mark

/-- A well-formed word begins with something that it writes: no strand is empty, and one in front of
a strand is no strand. -/
theorem Word.Formed.first_mark {place : Word.Position} {w : Word} (h : w.Formed place) :
    ∃ m ms, w.marks = m :: ms ∧ m ≠ .strandEnd := by
  have hleaf : ∀ {v : Word}, v.LeafValid → ∃ m ms, v.marks = m :: ms ∧ m ≠ .strandEnd := by
    intro v hv
    cases v with
    | strand _ _ | array _ _ | func _ _ | funcArray _ _ | modified _ _ _ | missing =>
        exact hv.elim
    | _ => exact ⟨_, [], rfl, nofun⟩
  induction h with
  | leaf hw _ => exact hleaf hw
  | @strand w ws _ _ _ _ ih =>
      obtain ⟨m, ms, hmarks, hne⟩ := ih w List.mem_cons_self
      exact ⟨m, _, by rw [marks, hmarks, List.cons_append], hne⟩
  | array _ | func _ => exact ⟨_, _, rfl, nofun⟩
  | @funcArray _ bs _ hlen _ _ =>
      cases bs with
      | nil => exact absurd hlen (by decide)
      | cons b bs => exact ⟨_, _, rfl, nofun⟩
  | modified hm _ _ _ =>
      obtain ⟨m, ms, hmarks, hne⟩ := hleaf hm
      exact ⟨m, _, by rw [marks, hmarks, List.cons_append], hne⟩

/-- So does an item with words. -/
theorem Item.WellFormed.first_mark {i : Item} (hi : i.WellFormed) (hwords : i.topWords ≠ []) :
    ∃ m ms, i.marks = m :: ms ∧ m ≠ .strandEnd := by
  obtain ⟨w, ws, hws⟩ := List.exists_cons_of_ne_nil hwords
  have hall : ∀ w ∈ i.topWords, w.WellFormed := by
    cases i with
    | words _ _ | binding _ _ _ _ => exact hi.2
    | comment _ _ | newlines _ | missing => exact absurd rfl hwords
  have hw : w.WellFormed := hall w (hws ▸ List.mem_cons_self)
  obtain ⟨m, ms, hmarks, hne⟩ := hw.first_mark
  exact ⟨m, _, by rw [Item.marks, hws, Word.marksOfAll, hmarks, List.cons_append], hne⟩

namespace Layout

/-- The text ends in a character that is no blank. -/
def EndsInk (l : Layout) : Prop := ∃ c ∈ l.text.getLast?, c.isBlank = false

theorem EndsInk.trimRight {l : Layout} (h : l.EndsInk) : l.text.trimRight = l.text := by
  obtain ⟨c, hc, hblank⟩ := h
  refine Text.trimRight_eq_self fun d hd => ?_
  obtain rfl : c = d := Option.some.inj (hc.symm.trans hd)
  exact hblank

theorem endsInk_put {l : Layout} {m : Mark} (hm : m.Lexable) (h : m ≠ .strandEnd ∨ l.EndsInk) :
    (l.put m).EndsInk := by
  cases hlexeme : m.lexeme? with
  | none =>
      rcases h with hne | h
      · obtain ⟨lexeme, hsome⟩ := Mark.exists_lexeme hm hne
        rw [hlexeme] at hsome
        cases hsome
      · rw [EndsInk, text_put_of_none hlexeme]
        exact h
  | some lexeme =>
      obtain ⟨hvalid, hinline⟩ := Mark.valid_lexeme hm hlexeme
      obtain ⟨c, hc⟩ := Lexeme.exists_lastOf hvalid hinline
      refine ⟨c, ?_, Mark.isBlank_last hm hlexeme c hc.getLast⟩
      rw [text_put_of_lexeme hlexeme, List.getLast?_append, hc.getLast]
      rfl

theorem endsInk_putAll {l : Layout} {ms : List Mark} (hms : ∀ m ∈ ms, m.Lexable)
    (h : (∃ m ∈ ms, m ≠ .strandEnd) ∨ l.EndsInk) : (ms.foldl put l).EndsInk := by
  induction ms generalizing l with
  | nil =>
      rcases h with ⟨m, hm, -⟩ | h
      · exact absurd hm List.not_mem_nil
      · exact h
  | cons m ms ih =>
      refine ih (fun n hn => hms n (List.mem_cons_of_mem _ hn)) ?_
      have hm := hms m List.mem_cons_self
      rcases h with ⟨n, hn, hne⟩ | h
      · rcases List.mem_cons.mp hn with rfl | hn
        · exact Or.inr (endsInk_put hm (Or.inl hne))
        · exact Or.inl ⟨n, hn, hne⟩
      · exact Or.inr (endsInk_put hm (Or.inr h))

/-- A line with a word on it has nothing to trim. -/
theorem endsInk_line {bound : Text → Bool} {l : Layout} {i : Item} (hi : i.WellFormed)
    (hwords : i.topWords ≠ []) : (l.line bound i).EndsInk := by
  obtain ⟨m, ms, hmarks, hne⟩ := hi.first_mark hwords
  refine endsInk_putAll (Mark.lexable_map_resolve hi.lexable) (Or.inl ⟨m.resolve bound, ?_, ?_⟩)
  · exact List.mem_map_of_mem (hmarks ▸ List.mem_cons_self)
  · exact Mark.resolve_ne_strandEnd hne

end Layout

/-- The trimmed line of a comment. Nothing is left of its text if that was all blanks, and then the
space behind the mark goes, too. -/
theorem Lexeme.scan_trimComment {t : Text} (ht : ∀ c ∈ t, c.isLineBreak = false) :
    Text.first ("# " ++ t).trimRight = '#' ∧ ∀ rest,
      Lexeme.scan (("# " ++ t).trimRight ++ CodePoint.ofChar '\n' :: rest) =
        .found ("# " ++ t).trimRight.length (.comment t.trimRight) := by
  by_cases hblank : t.trimRight = []
  · rw [Text.trimRight_append_of_eq_nil hblank, hblank,
      show Text.trimRight "# " = [CodePoint.ofChar '#'] by decide +kernel]
    exact ⟨rfl, fun rest => rfl⟩
  · rw [Text.trimRight_append_of_ne_nil hblank]
    exact ⟨rfl, scan_commentLine fun c hc => ht c (Text.mem_of_mem_trimRight hc)⟩

namespace Layout

variable {l : Layout} {ls : List Lexeme}

theorem begins_trimComment {t : Text} (h : Begins l.text ls)
    (ht : ∀ c ∈ t, c.isLineBreak = false) :
    Begins ((l.text ++ ("# " ++ t)).trimRight ++ [CodePoint.ofChar '\n'])
      (ls ++ [.comment t.trimRight] ++ [.newline]) := by
  obtain ⟨hfirst, hscan⟩ := Lexeme.scan_trimComment ht
  obtain ⟨u, hu⟩ := Text.eq_of_first_eq hfirst (by decide)
  rw [Text.trimRight_append_of_ne_nil (by rw [hu]; exact List.cons_ne_nil _ _)]
  rw [hu] at hscan ⊢
  exact h.restOfLine hscan (Text.apart_of_separator rfl (by decide)) (List.cons_ne_nil _ _)

/-- The last line is trimmed and ends: it spells the last item without the blanks at the end. -/
theorem begins_trimLine (bound : Text → Bool) {i : Item} (h : Begins l.text ls)
    (hlast : ∀ c ∈ l.text.getLast?, c.isLetter = false) (hi : i.WellFormed)
    (hlines : i.isNewlines = false) :
    Begins ((l.line bound i).text.trimRight ++ [CodePoint.ofChar '\n'])
      (ls ++ (i.canonical bound).trimmed.spelling ++ [.newline]) := by
  have hinked : i.topWords ≠ [] → (i.canonical bound).trimmed = i.canonical bound →
      Begins ((l.line bound i).text.trimRight ++ [CodePoint.ofChar '\n'])
        (ls ++ (i.canonical bound).trimmed.spelling ++ [.newline]) := by
    intro hwords htrimmed
    rw [(endsInk_line hi hwords).trimRight, htrimmed]
    refine (begins_line bound h hlast hi ?_).newline
    rintro t span rfl
    exact hwords rfl
  cases i with
  | words ws span => exact hinked hi.1 rfl
  | binding n ws nameSpan span =>
      cases ws with
      | cons w ws => exact hinked nofun rfl
      | nil =>
          have htext : (l.line bound (.binding n [] nameSpan span)).text.trimRight =
              l.text ++ (n ++ " =") := by
            show ((l.push n).push " = ").text.trimRight = _
            rw [text_push, text_push, Text.trimRight_append_of_ne_nil (by decide +kernel),
              List.append_assoc]
            rfl
          rw [htext]
          exact (h.binding hlast hi.1).newline
  | comment t span =>
      rw [text_comment]
      exact begins_trimComment h hi
  | newlines _ => cases hlines
  | missing => exact hi.elim

theorem lines_append (bound : List Item → Text → Bool) (l : Layout) (done is js : List Item) :
    l.lines bound done (is ++ js) = (l.lines bound done is).lines bound (done ++ is) js := by
  induction is generalizing l done with
  | nil => rw [List.append_nil]; rfl
  | cons i is ih =>
      rw [List.cons_append, lines, ih, ← List.append_cons]
      rfl

end Layout

/-! ## The text of a program -/

/-- The canonical text of items under given answers. -/
def canonicalText (bound : List Item → Text → Bool) (items : List Item) : Text :=
  (Layout.lines bound {} [] items).text.trimRight ++ "\n"

theorem canonicalText_concat (bound : List Item → Text → Bool) (is : List Item) (i : Item) :
    canonicalText bound (is ++ [i]) =
      ((Layout.lines bound {} [] is).line (bound is) i).text.trimRight ++
        [CodePoint.ofChar '\n'] := by
  rw [canonicalText, Layout.lines_append]
  show Text.trimRight (Layout.push _ _).text ++ _ = _
  rw [Layout.text_push, Text.trimRight_append_of_eq_nil (by decide +kernel)]
  rfl

/-- The canonical text of well-formed items spells them in canonical form, line by line. -/
theorem lexes_canonicalText {bound : List Item → Text → Bool} {items : List Item}
    (hitems : WellFormedItems items) (hne : items ≠ []) :
    Lexes (canonicalText bound items)
      (spellLines (trimLast (canonicalItems bound [] items))) := by
  rcases List.eq_nil_or_concat items with rfl | ⟨is, i, rfl⟩
  · exact absurd rfl hne
  · rw [List.concat_eq_append] at hitems ⊢
    obtain ⟨his, hi⟩ := List.forall_mem_append.mp hitems.each
    obtain ⟨hbegins, hlast⟩ := Layout.begins_lines bound (l := {}) Begins.nil nofun his []
    have hend := Layout.begins_trimLine (bound is) hbegins hlast
      (hi i List.mem_cons_self) (hitems.last i List.getLast?_concat)
    rw [canonicalText_concat, canonicalItems_append]
    show Lexes _ (spellLines (trimLast (_ ++ [_])))
    rw [trimLast_concat, spellLines, List.flatMap_append]
    have := hend.lexes
    rw [List.append_assoc] at this
    simpa [spellLines] using this

/-- Items that have texts are written under a scope that answers like a function. What comes out is
the canonical text under the function, unless the scope reports something. -/
theorem formatItems_of_writable {σ : Type} [Scope σ] {start : σ}
    {bound : List Item → Text → Bool} (hbound : Scope.Answers start bound) {items : List Item}
    (hitems : ∀ i ∈ items, i.Writable) :
    ∃ s, Scope.Reached start items s ∧
      formatItems items start =
        match Scope.diagnostics s with
        | [] => (.ok (canonicalText bound items), s)
        | ds => (.error (.reported ds), s) := by
  obtain ⟨s, hs, hrun⟩ := Writing.runs_items hbound hitems
    (show Scope.Reached start [] start from .start) {}
  refine ⟨s, hs, ?_⟩
  have hsheet : (Writing.items items).onSheet start =
      (.ok (), ⟨Layout.lines bound {} [] items, s⟩) := hrun
  rw [formatItems, hsheet]
  rfl

/-- Well-formed items have texts. -/
theorem formatItems_eq {σ : Type} [Scope σ] {start : σ} {bound : List Item → Text → Bool}
    (hbound : Scope.Answers start bound) {items : List Item} (hitems : ∀ i ∈ items, i.WellFormed) :
    ∃ s, Scope.Reached start items s ∧
      formatItems items start =
        match Scope.diagnostics s with
        | [] => (.ok (canonicalText bound items), s)
        | ds => (.error (.reported ds), s) :=
  formatItems_of_writable hbound fun i hi => (hitems i hi).writable

end GlyphFormat
