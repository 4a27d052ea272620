import GlyphFormat.Proofs.Formatter.RoundTrip
import GlyphFormat.Proofs.Grammar.ProgramTree
import Mathlib.Data.List.ModifyLast

/-!
# Comments of formatted sources

A formatted source has the comments of the source, in order and code point for code point
(`comments_formatSource`). The only exception is a comment that nothing but line breaks stands
behind: it comes last in the formatted text too, and loses the blanks at its end with that text.

Both facts are seen in the tree of the source, whose comment tokens are the comments of its items.
-/

namespace GlyphFormat

/-! ## Comments of texts and of items -/

/-- The comments of a text, in order. -/
def Text.comments (s : Text) : List Text := s.lexemes.filterMap Lexeme.comment?

/-- Nothing but line breaks stands behind the last comment. -/
def Text.endsInComment (s : Text) : Bool :=
  (s.lexemes.filter (· ≠ .newline)).getLast?.any (·.comment?.isSome)

/-- The text of a comment. -/
def Item.comment? : Item → Option Text
  | .comment t _ => some t
  | _ => none

namespace Item

theorem comment?_strip (i : Item) : i.strip.comment? = i.comment? := by cases i <;> rfl

theorem comment?_canonical (bound : Text → Bool) (i : Item) :
    (i.canonical bound).comment? = i.comment? := by cases i <;> rfl

/-- Items with the same comments at the same places. -/
theorem comments_congr {is js : List Item} (h : is.map comment? = js.map comment?) :
    is.filterMap comment? = js.filterMap comment? ∧
      is.getLast?.any (·.comment?.isSome) = js.getLast?.any (·.comment?.isSome) := by
  have hmap : ∀ is : List Item, is.filterMap comment? = (is.map comment?).filterMap id :=
    fun is => by rw [List.filterMap_map]; rfl
  have hany : ∀ is : List Item, is.getLast?.any (·.comment?.isSome) =
      (is.map comment?).getLast?.any Option.isSome := fun is => by
    rw [List.getLast?_map, Option.any_map]
  exact ⟨by rw [hmap, h, ← hmap], by rw [hany, h, ← hany]⟩

theorem map_comment?_canonicalItems (bound : List Item → Text → Bool) (done is : List Item) :
    (canonicalItems bound done is).map comment? = is.map comment? := by
  induction is generalizing done with
  | nil => rfl
  | cons i is ih => rw [canonicalItems, List.map_cons, List.map_cons, ih, comment?_canonical]

theorem comments_strip (is : List Item) :
    (is.map strip).filterMap comment? = is.filterMap comment? := by
  refine (comments_congr ?_).1
  rw [List.map_map]
  exact List.map_congr_left fun i _ => comment?_strip i

/-- Of the comments only one that is the last item is trimmed. -/
theorem comments_trimLast (is : List Item) : (trimLast is).filterMap comment? =
    if is.getLast?.any (·.comment?.isSome) then
      (is.filterMap comment?).modifyLast Text.trimRight
    else is.filterMap comment? := by
  rcases List.eq_nil_or_concat is with rfl | ⟨is, i, rfl⟩
  · rfl
  · rw [List.concat_eq_append, trimLast_concat, List.getLast?_concat, List.filterMap_append,
      List.filterMap_append]
    cases i with
    | comment t span => exact (List.modifyLast_concat _ t _).symm
    | _ => rfl

end Item

/-! ## Comments in trees -/

/-- A token that is a comment. -/
def Token.isComment (t : Token) : Bool := t.lexeme.comment?.isSome

/-- A token that is neither a line break nor the end of input. -/
def Token.shows (t : Token) : Bool := t.lexeme ≠ .newline ∧ t.lexeme ≠ .endOfInput

namespace StatementTree

/-- The last token of a statement, line breaks apart, is no comment. -/
theorem getLast?_shown (s : StatementTree) :
    (s.tokens.filter Token.shows).getLast?.map Token.isComment = some false := by
  obtain ⟨t, ts, hts, ht⟩ := s.first
  have hshows : t.shows = true := by
    unfold Token.shows
    cases hl : t.lexeme <;> rw [hl] at ht <;> first | rfl | cases ht
  have hmem : t ∈ s.tokens.filter Token.shows :=
    List.mem_filter.mpr ⟨by rw [hts]; exact List.mem_cons_self, hshows⟩
  obtain ⟨u, hu⟩ := Option.isSome_iff_exists.mp
    (List.getLast?_isSome.mpr (List.ne_nil_of_mem hmem))
  have hlast := (List.mem_filter.mp (List.mem_of_getLast? hu)).1
  rw [hu, Option.map_some, Token.isComment, s.comment?_eq_none u hlast]
  rfl

end StatementTree

namespace LineTree

variable (path : Option Path)

theorem comments (l : LineTree) :
    (l.items path).filterMap Item.comment? = l.tokens.filterMap (·.lexeme.comment?) := by
  have hcomment : ∀ {t : Token} {text : Text}, t.lexeme = .comment text →
      [t].filterMap (·.lexeme.comment?) = [text] := fun ht =>
    List.filterMap_cons_some (by rw [ht]; rfl)
  have hstatement : ∀ s : StatementTree, s.tokens.filterMap (·.lexeme.comment?) = [] :=
    fun s => List.filterMap_eq_nil_iff.mpr s.comment?_eq_none
  cases l with
  | comment t text ht => exact (hcomment ht).symm
  | statement s =>
      rw [tokens, hstatement]
      cases s <;> rfl
  | commented s t text ht =>
      rw [tokens, List.filterMap_append, hstatement, hcomment ht]
      cases s <;> rfl

/-- The last item of a line is a comment exactly when its last token is one. -/
theorem getLast?_shown (l : LineTree) :
    ((l.items path).filter (!·.isNewlines)).getLast?.map (·.comment?.isSome) =
      (l.tokens.filter Token.shows).getLast?.map Token.isComment := by
  have hcomment : ∀ {t : Token} {text : Text}, t.lexeme = .comment text →
      t.shows = true ∧ t.isComment = true := fun {t text} ht => by
    unfold Token.shows Token.isComment
    rw [ht]
    exact ⟨rfl, rfl⟩
  cases l with
  | comment t text ht =>
      rw [tokens, List.filter_cons_of_pos (hcomment ht).1]
      exact congrArg some (hcomment ht).2.symm
  | statement s =>
      rw [tokens, s.getLast?_shown]
      cases s <;> rfl
  | commented s t text ht =>
      rw [tokens, List.filter_append, List.filter_cons_of_pos (hcomment ht).1, List.filter_nil,
        List.getLast?_concat, Option.map_some, (hcomment ht).2]
      cases s <;> rfl

end LineTree

namespace Row

variable (path : Option Path)

theorem comments (behindLine : Bool) (rows : List Row) (last : Option LineTree) :
    (items path behindLine rows last).filterMap Item.comment? =
      (rows.flatMap tokens ++ LineTree.tokens? last).filterMap (·.lexeme.comment?) := by
  induction rows generalizing behindLine with
  | nil =>
      cases last with
      | none => rfl
      | some l => exact l.comments path
  | cons r rows ih =>
      obtain ⟨line, stop, hstop⟩ := r
      have hstopped : ([stop] : List Token).filterMap (·.lexeme.comment?) = [] :=
        List.filterMap_eq_nil_iff.mpr (List.forall_mem_singleton.mpr (by rw [hstop]; rfl))
      rw [List.flatMap_cons, tokens, List.append_assoc, List.append_assoc, List.filterMap_append,
        List.filterMap_append, hstopped, List.nil_append]
      cases line with
      | none =>
          rw [items, List.filterMap_append, ih]
          split <;> rfl
      | some l =>
          rw [items, List.filterMap_append, l.comments, ih]
          rfl

/-- Blank rows apart, the last item is a comment exactly when the last token is one. -/
theorem getLast?_shown (behindLine : Bool) (rows : List Row) (last : Option LineTree) :
    ((items path behindLine rows last).filter (!·.isNewlines)).getLast?.map (·.comment?.isSome) =
      ((rows.flatMap tokens ++ LineTree.tokens? last).filter Token.shows).getLast?.map
        Token.isComment := by
  induction rows generalizing behindLine with
  | nil =>
      cases last with
      | none => rfl
      | some l => exact l.getLast?_shown path
  | cons r rows ih =>
      obtain ⟨line, stop, hstop⟩ := r
      have hhidden : ¬stop.shows = true := by rw [Token.shows, hstop]; decide
      rw [List.flatMap_cons, tokens, List.append_assoc, List.append_assoc, List.filter_append,
        List.singleton_append, List.filter_cons_of_neg hhidden, List.getLast?_append,
        Option.map_or]
      cases line with
      | none =>
          rw [items, List.filter_append, List.getLast?_append, Option.map_or, ih]
          split <;> rfl
      | some l =>
          rw [items, List.filter_append, List.getLast?_append, Option.map_or, l.getLast?_shown, ih]
          rfl

end Row

/-! ## Comments of sources -/

theorem comments_eq_tokens (s : Text) :
    s.comments = (tokenize s).1.filterMap (·.lexeme.comment?) := by
  rw [Text.comments, Text.lexemes, List.filterMap_filter, List.filterMap_map]
  congr
  funext t
  cases ht : t.lexeme <;> simp [ht, Lexeme.comment?]

theorem endsInComment_eq_tokens (s : Text) :
    s.endsInComment = ((tokenize s).1.filter Token.shows).getLast?.any Token.isComment := by
  have hshown : s.lexemes.filter (· ≠ .newline) =
      ((tokenize s).1.filter Token.shows).map Token.lexeme := by
    rw [Text.lexemes, List.filter_filter, List.filter_map]
    congr
    funext t
    simp [Token.shows]
  rw [Text.endsInComment, hshown, List.getLast?_map, Option.any_map]
  rfl

/-- Where the last item is no blank lines, it is the last one that is none. -/
theorem getLast?_filter_newlines {is : List Item} (h : ∀ i ∈ is.getLast?, i.isNewlines = false) :
    (is.filter (!·.isNewlines)).getLast? = is.getLast? := by
  rcases List.eq_nil_or_concat is with rfl | ⟨is, i, rfl⟩
  · rfl
  · rw [List.concat_eq_append, List.getLast?_concat] at h
    rw [List.concat_eq_append, List.filter_append, List.filter_cons_of_pos (by rw [h i rfl]; rfl),
      List.filter_nil, List.getLast?_concat, List.getLast?_concat]

/-- The comments of a source that is read without a report are those of its items, and it ends in
one exactly when its last item is one. -/
theorem comments_of_parse {s : Text} {path : Option Path}
    (h : (parse s path).diagnostics = []) :
    s.comments = (parse s path).items.filterMap Item.comment? ∧
      s.endsInComment = (parse s path).items.getLast?.any (·.comment?.isSome) := by
  obtain ⟨hlex, p, hp⟩ := exists_tree h
  have hany : ∀ {α : Type} (o : Option α) (f : α → Bool), o.any f = (o.map f).any id :=
    fun o f => by rw [Option.any_map]; rfl
  have hstop : p.stop.shows = false := by rw [Token.shows, p.atEnd]; decide
  have hstopped : ([p.stop] : List Token).filterMap (·.lexeme.comment?) = [] :=
    List.filterMap_eq_nil_iff.mpr (List.forall_mem_singleton.mpr (by rw [p.atEnd]; rfl))
  have htokens : p.tokens = p.rows.flatMap Row.tokens ++ LineTree.tokens? p.last ++ [p.stop] := by
    rw [ProgramTree.tokens, List.append_assoc]
  constructor
  · rw [comments_eq_tokens, ← hp, htokens, List.filterMap_append, ← Row.comments path false,
      hstopped, List.append_nil, p.parse_eq hlex hp]
    rfl
  · rw [endsInComment_eq_tokens, ← hp, htokens, List.filter_append,
      List.filter_cons_of_neg (by rw [hstop]; decide), List.filter_nil, List.append_nil, hany,
      ← Row.getLast?_shown path false, ← hany,
      ← getLast?_filter_newlines (wellFormed_of_parse h).last, p.parse_eq hlex hp]
    rfl

/-- The comments of a formatted source are those of the source, except that a comment at its end is
trimmed. -/
theorem comments_formatSource {s t : Text} {path : Option Path}
    (h : formatSource s path = .ok t) :
    t.comments =
      if s.endsInComment then s.comments.modifyLast Text.trimRight else s.comments := by
  obtain ⟨hdiag, -, rfl⟩ := formatSource_eq_ok_iff.mp h
  obtain ⟨hcomments, hends⟩ := comments_of_parse hdiag
  obtain ⟨hdiag', hitems⟩ := parse_canonicalText boundBefore (wellFormed_of_parse hdiag) path
  obtain ⟨hsame, hlast⟩ :=
    Item.comments_congr (Item.map_comment?_canonicalItems boundBefore [] (parse s path).items)
  rw [(comments_of_parse hdiag').1, ← Item.comments_strip, hitems, Item.comments_strip,
    Item.comments_trimLast, hsame, hlast, hcomments, hends]

/-- A comment behind a statement keeps its blanks; the one at the end loses them. -/
theorem comments_formatSource_trimmed :
    formatSource "1 #  a \n# b \n" none = .ok "1\n#  a \n# b\n" ∧
      Text.comments "1\n#  a \n# b\n" = (if Text.endsInComment "1 #  a \n# b \n" then
        (Text.comments "1 #  a \n# b \n").modifyLast Text.trimRight
        else Text.comments "1 #  a \n# b \n") := by
  have hformat : formatSource "1 #  a \n# b \n" none = .ok "1\n#  a \n# b\n" :=
    formatSource_eq_ok_iff.mpr ⟨by decide +kernel, by decide +kernel, by decide +kernel⟩
  exact ⟨hformat, comments_formatSource hformat⟩

/-- Not every comment stays as it is. -/
theorem exists_comments_formatSource_ne : ¬∀ (s t : Text) (path : Option Path),
    formatSource s path = .ok t → t.comments = s.comments := by
  intro h
  have hformat : formatSource "# a " none = .ok "# a\n" :=
    formatSource_eq_ok_iff.mpr ⟨by decide +kernel, by decide +kernel, by decide +kernel⟩
  have hkept := h _ _ _ hformat
  exact absurd hkept (by decide +kernel)

end GlyphFormat
