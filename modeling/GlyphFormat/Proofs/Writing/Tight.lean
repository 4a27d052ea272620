import GlyphFormat.Proofs.Token.Gaps
import GlyphFormat.Proofs.Writing.Separate

/-!
# Room is one space

The room in front of a mark is a space at most, so what marks write is tight
(`Layout.tightBefore_putAll`). Behind the head of a binding a space is written before it is known
what follows. The first mark of a word makes no more room there, since it is never the end of a
strand (`Layout.put_behindSpace`). So lines of items are tight, one by one and together
(`TightBefore.ofLines`).
-/

namespace GlyphFormat

namespace Layout

variable {l : Layout}

theorem tightBefore_put {m : Mark} (h : TightBefore l.text) (hm : m.Lexable) :
    TightBefore (l.put m).text := by
  cases hlexeme : m.lexeme? with
  | none =>
      rw [text_put_of_none hlexeme]
      exact h
  | some lexeme =>
      obtain ⟨hvalid, hinline⟩ := Mark.valid_lexeme hm hlexeme
      obtain ⟨gap, hgap, hroom⟩ := l.text_makeRoom m
      have hjoin := Mark.joins_makeRoom (l := l) hm hlexeme
      rw [hroom] at hjoin
      rw [text_put_of_lexeme hlexeme, hroom]
      exact h.lexeme hgap hvalid hinline hjoin

theorem tightBefore_putAll {ms : List Mark} (h : TightBefore l.text) (hms : ∀ m ∈ ms, m.Lexable) :
    TightBefore (ms.foldl put l).text := by
  induction ms generalizing l with
  | nil => exact h
  | cons m ms ih =>
      obtain ⟨hm, hms⟩ := List.forall_mem_cons.mp hms
      exact ih (tightBefore_put h hm) hms

/-! ## Behind a space -/

/-- Behind a space that does not follow a strand no room is needed. -/
theorem makeRoom_of_space (hstrand : l.afterStrand = false)
    (hlast : l.text.getLast? = some (CodePoint.ofChar ' ')) (m : Mark) : m.makeRoom l = l := by
  have hspace : ∀ p : CodePoint → Bool, p ' ' = false → l.spaceAfter p = l := by
    intro p hp
    rw [getLast?_text] at hlast
    have hkept : l.spaceAfterStrand = l := if_neg (by rw [hstrand]; exact Bool.false_ne_true)
    rw [spaceAfter, hkept, hlast]
    exact if_neg (by rw [Option.any_some, hp]; exact Bool.false_ne_true)
  cases m with
  | number _ | char _ | string _ | ident _ | selector _ => exact hspace _ (by decide +kernel)
  | prim p =>
      rw [Mark.makeRoom]
      split
      · exact hspace _ (by decide +kernel)
      · rfl
  | punctuation _ | strandEnd | missing => rfl

/-- The space that is there counts as the room of the next mark. -/
theorem put_behindSpace {t : Text} {m : Mark} (h : TightBefore t) (htext : l.text = t ++ " ")
    (hstrand : l.afterStrand = false) (hm : m.Lexable) (hne : m ≠ .strandEnd) :
    TightBefore (l.put m).text := by
  obtain ⟨lexeme, hlexeme⟩ := Mark.exists_lexeme hm hne
  obtain ⟨hvalid, hinline⟩ := Mark.valid_lexeme hm hlexeme
  have hroom := makeRoom_of_space hstrand (htext ▸ List.getLast?_concat) m
  rw [text_put_of_lexeme hlexeme, hroom, htext]
  refine h.lexeme (.inr rfl) hvalid hinline fun c hc d _ => ?_
  obtain rfl : CodePoint.ofChar ' ' = c := Option.some.inj (List.getLast?_concat.symm.trans hc)
  exact CodePoint.joins_eq_false (by decide +kernel) (by decide)

end Layout

/-! ## Lines -/

namespace Item

variable {i : Item} {bound : Text → Bool}

/-- Words make a tight line, and a binding with a value does. -/
theorem tightBefore_lineText (hi : i.WellFormed) (hvalue : i.hasValue = true)
    (hwords : ∀ t span, i ≠ .comment t span) : TightBefore (i.lineText bound) := by
  have hmarks : ∀ m ∈ i.marks.map (Mark.resolve bound), m.Lexable :=
    Mark.lexable_map_resolve hi.lexable
  cases i with
  | words ws _ => exact Layout.tightBefore_putAll TightBefore.nil hmarks
  | binding n ws nameSpan span =>
      have hwords : ws ≠ [] := by
        rintro rfl
        cases hvalue
      obtain ⟨m, ms, hmarks', hne⟩ := hi.first_mark hwords
      have hname : TightBefore n :=
        TightBefore.nil.lexeme (g := []) (l := .ident n) (.inl rfl) hi.1 nofun nofun
      have hhead : TightBefore (n ++ " " ++ "=") := hname.lexeme (g := " ") (l := .assign)
        (.inr rfl) trivial nofun (Text.apart_of_separator rfl (by decide))
      have htext : ((({} : Layout).push n).push " = ").text = n ++ " " ++ "=" ++ " " := by
        simp only [Layout.text_push, List.append_assoc]
        rfl
      have hfirst := Layout.put_behindSpace (m := m.resolve bound) hhead htext rfl
        (hmarks _ (hmarks' ▸ List.mem_cons_self)) (Mark.resolve_ne_strandEnd hne)
      rw [lineText, Layout.line, hmarks', List.map_cons, List.foldl_cons]
      exact Layout.tightBefore_putAll hfirst fun k hk =>
        hmarks k (by rw [hmarks']; exact List.mem_cons_of_mem _ hk)
  | comment t span => exact absurd rfl (hwords t span)
  | newlines _ => exact TightBefore.nil
  | missing => exact hi.elim

theorem tightBefore_line (hi : i.WellFormed) (hvalue : i.hasValue = true) :
    TightBefore (i.lineText bound ++ "\n") := by
  obtain ⟨t, span, rfl⟩ | hwords := i.comment_or
  · rw [lineText_comment]
    exact TightBefore.nil.restOfLine (Lexeme.scan_commentLine hi) nofun nofun
  · exact (tightBefore_lineText hi hvalue hwords).newline

/-- An item with a value that is no comment has nothing to trim. -/
theorem trimRight_lineText (hi : i.WellFormed) (hvalue : i.hasValue = true)
    (hlines : i.isNewlines = false) (hwords : ∀ t span, i ≠ .comment t span) :
    (i.lineText bound).trimRight = i.lineText bound := by
  refine (Layout.endsInk_line (l := {}) hi ?_).trimRight
  cases i with
  | words ws _ => exact hi.1
  | binding n ws _ _ =>
      rintro rfl
      cases hvalue
  | comment t span => exact absurd rfl (hwords t span)
  | newlines _ => cases hlines
  | missing => exact hi.elim

theorem tightBefore_trimLine (hi : i.WellFormed) (hvalue : i.hasValue = true)
    (hlines : i.isNewlines = false) : TightBefore ((i.lineText bound).trimRight ++ "\n") := by
  obtain ⟨t, span, rfl⟩ | hwords := i.comment_or
  · obtain ⟨hfirst, hscan⟩ := Lexeme.scan_trimComment hi
    obtain ⟨u, hu⟩ := Text.eq_of_first_eq hfirst (by decide)
    rw [lineText_comment]
    rw [hu] at hscan ⊢
    exact TightBefore.nil.restOfLine hscan nofun (List.cons_ne_nil _ _)
  · rw [trimRight_lineText hi hvalue hlines hwords]
    exact tightBefore_line hi hvalue

end Item

theorem TightBefore.ofLines {lines : List Text} (h : ∀ line ∈ lines, TightBefore (line ++ "\n")) :
    TightBefore (Text.ofLines lines) := by
  induction lines with
  | nil => exact .nil
  | cons line lines ih =>
      obtain ⟨hline, hlines⟩ := List.forall_mem_cons.mp h
      rw [Text.ofLines_cons]
      exact hline.append (Layout.lineBase_append [] line) (ih hlines)

end GlyphFormat
