import GlyphFormat.Proofs.Writing.Ending

/-!
# Items apart

The room in front of a word depends on what is written before it, but no further back than to the
last line break: what stands on the lines before makes no difference (`Layout.line_behind`). So
items are written one line after another, each as if it were alone (`Layout.text_lines`).
-/

namespace GlyphFormat

namespace Layout

/-! ## Layouts behind other lines -/

/-- What ends a line, or nothing. -/
def LineBase (base : Text) : Prop := ∀ c ∈ base.getLast?, c = '\n'

theorem lineBase_nil : LineBase [] := nofun

theorem lineBase_append (base line : Text) : LineBase (base ++ (line ++ "\n")) := by
  intro c hc
  have hlast : (base ++ (line ++ "\n")).getLast? = some (CodePoint.ofChar '\n') := by
    rw [← List.append_assoc]
    exact List.getLast?_concat
  exact (Option.some.inj (hlast.symm.trans hc)).symm

/-- The layout with other text in front of it. -/
def behind (base : Text) (l : Layout) : Layout := ⟨l.reversed ++ base.reverse, l.afterStrand⟩

section

variable {base : Text} (l : Layout)

theorem text_behind : (l.behind base).text = base ++ l.text := by
  rw [text, behind, List.reverse_append, List.reverse_reverse]
  rfl

theorem push_behind (t : Text) : (l.behind base).push t = (l.push t).behind base := by
  rw [push, push, behind, behind, List.append_assoc]

theorem spaceAfterStrand_behind :
    (l.behind base).spaceAfterStrand = l.spaceAfterStrand.behind base := by
  show (if l.afterStrand then (l.behind base).push " " else l.behind base) = _
  rw [push_behind, spaceAfterStrand]
  split <;> rfl

variable (hbase : LineBase base)
include hbase

/-- A line break is in no class that needs room. -/
theorem any_head?_behind {p : CodePoint → Bool} (hp : p '\n' = false) :
    (l.behind base).reversed.head?.any p = l.reversed.head?.any p := by
  rw [behind, List.head?_append]
  cases l.reversed.head? with
  | some c => rfl
  | none =>
      rw [Option.none_or, List.head?_reverse]
      cases hlast : base.getLast? with
      | none => rfl
      | some c =>
          obtain rfl := hbase c hlast
          exact hp

theorem spaceAfter_behind {p : CodePoint → Bool} (hp : p '\n' = false) :
    (l.behind base).spaceAfter p = (l.spaceAfter p).behind base := by
  rw [spaceAfter, spaceAfterStrand_behind, any_head?_behind _ hbase hp, push_behind, spaceAfter]
  split <;> rfl

theorem makeRoom_behind (m : Mark) : m.makeRoom (l.behind base) = (m.makeRoom l).behind base := by
  have hroom := l.spaceAfter_behind hbase (p := CodePoint.isAlphanumeric) (by decide +kernel)
  cases m with
  | number _ | char _ | string _ => exact hroom
  | ident _ | selector _ => exact l.spaceAfter_behind hbase (by decide +kernel)
  | prim p =>
      rw [Mark.makeRoom, Mark.makeRoom]
      split
      · exact hroom
      · rfl
  | punctuation _ | strandEnd | missing => rfl

theorem put_behind (m : Mark) : (l.behind base).put m = (l.put m).behind base := by
  rw [put, put]
  cases m.lexeme? with
  | none => rfl
  | some lexeme =>
      show (m.makeRoom (l.behind base)).push _ = ((m.makeRoom l).push _).behind base
      rw [makeRoom_behind l hbase, push_behind]

theorem putAll_behind (ms : List Mark) :
    ms.foldl put (l.behind base) = (ms.foldl put l).behind base := by
  induction ms generalizing l with
  | nil => rfl
  | cons m ms ih => rw [List.foldl_cons, List.foldl_cons, put_behind l hbase, ih]

omit hbase in
theorem front_behind (i : Item) : (l.behind base).front i = (l.front i).behind base := by
  cases i with
  | binding n _ _ _ => simp only [front, push_behind]
  | comment t _ => simp only [front, push_behind]
  | words _ _ | newlines _ | missing => rfl

/-- A line is written as if it stood alone. -/
theorem line_behind (bound : Text → Bool) (i : Item) :
    (l.behind base).line bound i = (l.line bound i).behind base := by
  rw [line, front_behind, putAll_behind _ hbase, line]

end

end Layout

/-! ## Lines of items -/

/-- The text that lines make up. Every line ends with a line feed, the last one too. -/
def Text.ofLines (lines : List Text) : Text := lines.flatMap fun line => line ++ "\n"

theorem Text.ofLines_cons (line : Text) (lines : List Text) :
    ofLines (line :: lines) = (line ++ "\n") ++ ofLines lines := List.flatMap_cons

theorem Text.ofLines_concat (lines : List Text) (line : Text) :
    ofLines (lines ++ [line]) = ofLines lines ++ (line ++ "\n") := by
  rw [ofLines, List.flatMap_append, List.flatMap_singleton]
  rfl

theorem Layout.lineBase_ofLines (lines : List Text) : LineBase (Text.ofLines lines) := by
  rcases List.eq_nil_or_concat lines with rfl | ⟨ls, line, rfl⟩
  · exact lineBase_nil
  · rw [List.concat_eq_append, Text.ofLines_concat]
    exact lineBase_append _ line

/-- The text of an item on a line of its own, without the end of the line. -/
def Item.lineText (bound : Text → Bool) (i : Item) : Text := (Layout.line bound {} i).text

namespace Item

variable (bound : Text → Bool)

theorem lineText_comment (t : Text) (span : Option Span) :
    (Item.comment t span).lineText bound = "# " ++ t :=
  (Layout.text_comment bound {} t span).trans (List.nil_append _)

theorem lineText_binding (n : Text) (ws : List Word) (nameSpan span : Option Span) :
    ∃ t, (Item.binding n ws nameSpan span).lineText bound = n ++ (" = " ++ t) := by
  obtain ⟨t, ht⟩ := Layout.text_putAll ((({} : Layout).push n).push " = ")
    ((Word.marksOfAll ws).map (.resolve bound))
  refine ⟨t, ht.trans ?_⟩
  rw [Layout.text_push, Layout.text_push, List.append_assoc, List.append_assoc]
  rfl

end Item

/-- The lines of items, each under the answers after the items before. -/
def lineTexts (bound : List Item → Text → Bool) (done : List Item) : List Item → List Text
  | [] => []
  | i :: is => i.lineText (bound done) :: lineTexts bound (done ++ [i]) is

theorem length_lineTexts (bound : List Item → Text → Bool) (done is : List Item) :
    (lineTexts bound done is).length = is.length := by
  induction is generalizing done with
  | nil => rfl
  | cons i is ih => rw [lineTexts, List.length_cons, List.length_cons, ih]

theorem getElem?_lineTexts (bound : List Item → Text → Bool) (done is : List Item) (k : Nat) :
    (lineTexts bound done is)[k]? =
      is[k]?.map fun i => i.lineText (bound (done ++ is.take k)) := by
  induction is generalizing done k with
  | nil => rfl
  | cons i is ih =>
      cases k with
      | zero => rw [List.take_zero, List.append_nil]; rfl
      | succ k =>
          rw [lineTexts, List.getElem?_cons_succ, ih, List.getElem?_cons_succ, List.take_succ_cons,
            ← List.append_cons]

namespace Layout

/-- Behind other lines, items are written as if they stood alone, and one line after another. -/
theorem lines_behind (bound : List Item → Text → Bool) {base : Text} (hbase : LineBase base)
    (done is : List Item) :
    (behind base {}).lines bound done is =
      behind (base ++ Text.ofLines (lineTexts bound done is)) {} := by
  induction is generalizing base done with
  | nil => rw [lineTexts, Text.ofLines, List.flatMap_nil, List.append_nil]; rfl
  | cons i is ih =>
      have hline : ((behind base {}).line (bound done) i).push "\n" =
          behind (base ++ (i.lineText (bound done) ++ "\n")) {} := by
        rw [line_behind _ hbase]
        simp [behind, push, Item.lineText, text]
      rw [lines, hline, ih (lineBase_append _ _), lineTexts, Text.ofLines_cons, List.append_assoc]

/-- So it is with all items of a program. -/
theorem lines_eq_behind (bound : List Item → Text → Bool) (is : List Item) :
    lines bound {} [] is = behind (Text.ofLines (lineTexts bound [] is)) {} :=
  lines_behind bound lineBase_nil [] is

theorem text_lines (bound : List Item → Text → Bool) (is : List Item) :
    (lines bound {} [] is).text = Text.ofLines (lineTexts bound [] is) := by
  rw [lines_eq_behind, text_behind]
  exact List.append_nil _

end Layout

end GlyphFormat
