import GlyphFormat.Proofs.Scope.Answers
import GlyphFormat.Proofs.Tree.Canonical

/-!
# Lines of items

Writing items that have texts under a scope that answers like a function meets no fault, and the
layout at the end is a fold over the items that asks the function alone (`Writing.runs_items`). Of
well-formed items that layout spells the canonical form line by line (`Layout.begins_lines`).
-/

namespace GlyphFormat

/-! ## Settled marks -/

namespace Mark

variable {bound : Text → Bool}

theorem lexable_resolve {m : Mark} (hm : m.Lexable) : (m.resolve bound).Lexable := by
  cases m with
  | ident n =>
      show (ofName (bound n) n).Lexable
      unfold ofName
      split
      · trivial
      · exact hm
  | _ => exact hm

theorem lexable_map_resolve {ms : List Mark} (hms : ∀ m ∈ ms, m.Lexable) :
    ∀ m ∈ ms.map (resolve bound), m.Lexable := by
  intro m hm
  obtain ⟨n, hn, rfl⟩ := List.mem_map.mp hm
  exact lexable_resolve (hms n hn)

/-- Under a scope that answers like a function marks are settled by the function. -/
theorem settleAll_of_answers {σ : Type} [Scope σ] {start : σ} {bound : List Item → Text → Bool}
    (hbound : Scope.Answers start bound) {done : List Item} (ms : List Mark) {s : σ}
    (hs : Scope.Reached start done s) :
    (settleAll ms s).1 = ms.map (resolve (bound done)) ∧
      Scope.Reached start done (settleAll ms s).2 := by
  induction ms generalizing s with
  | nil => exact ⟨rfl, hs⟩
  | cons m ms ih =>
      have hm : (m.settle s).1 = m.resolve (bound done) ∧
          Scope.Reached start done (m.settle s).2 := by
        cases m with
        | ident n => exact ⟨by rw [settle, resolve, hbound done s n hs], hs.asked n⟩
        | _ => exact ⟨rfl, hs⟩
      obtain ⟨hfirst, hreached⟩ := hm
      obtain ⟨hrest, hlast⟩ := ih hreached
      exact ⟨by rw [List.map_cons, ← hfirst, ← hrest]; rfl, hlast⟩

end Mark

namespace Item

variable {i : Item}

theorem comment_or (i : Item) :
    (∃ t span, i = .comment t span) ∨ ∀ t span, i ≠ .comment t span := by
  cases i with
  | comment t span => exact .inl ⟨t, span, rfl⟩
  | _ => exact .inr nofun

theorem Writable.marks (h : i.Writable) : ∀ m ∈ i.marks, m.Writable :=
  Word.forall_marksOfAll (by simp [Mark.joints, Mark.Writable]) i.topWords
    fun v hv _ => (h v hv).leaf

theorem WellFormed.leaves (h : i.WellFormed) : ∀ v ∈ i.allWords, v.LeafLexable := by
  have hall : ∀ {ws : List Word}, (∀ w ∈ ws, w.WellFormed) →
      ∀ v ∈ Word.preorderAll ws, v.LeafLexable := by
    intro ws hws v hv
    rw [Word.preorderAll_eq_flatMap] at hv
    obtain ⟨w, hw, hv⟩ := List.mem_flatMap.mp hv
    exact (hws w hw).lexable v hv
  cases i with
  | words ws _ | binding _ ws _ _ => exact hall h.2
  | comment _ _ | newlines _ | missing => exact fun _ hv => absurd hv List.not_mem_nil

theorem WellFormed.lexable (h : i.WellFormed) : ∀ m ∈ i.marks, m.Lexable :=
  Word.lexable_marksOfAll i.topWords h.leaves

theorem WellFormed.writable (h : i.WellFormed) : i.Writable := fun v hv => (h.leaves v hv).writable

end Item

/-! ## The layout of items -/

namespace Layout

/-- Puts down what an item has in front of its words. -/
def front (l : Layout) : Item → Layout
  | .binding n _ _ _ => (l.push n).push " = "
  | .comment t _ => (l.push "# ").push t
  | _ => l

/-- Puts an item down, without the end of its line. -/
def line (bound : Text → Bool) (l : Layout) (i : Item) : Layout :=
  (i.marks.map (.resolve bound)).foldl put (l.front i)

/-- Puts items down, each on a line of its own and under the answers after the items before. -/
def lines (bound : List Item → Text → Bool) (l : Layout) (done : List Item) :
    List Item → Layout
  | [] => l
  | i :: is => lines bound ((l.line (bound done) i).push "\n") (done ++ [i]) is

end Layout

namespace Writing

variable {σ : Type} [Scope σ]

theorem runs_itemText {i : Item} (hi : i.Writable) (l : Layout) (s : σ) :
    Runs (itemText i) ⟨l, s⟩ ⟨(Mark.settleAll i.marks s).1.foldl Layout.put (l.front i),
      (Mark.settleAll i.marks s).2⟩ := by
  cases i with
  | words ws span =>
      rw [itemText, words_eq_marks]
      exact runs_marks hi.marks l s
  | binding n ws nameSpan span =>
      rw [itemText, words_eq_marks]
      exact (runs_push n l s).bind ((runs_push _ _ s).bind (runs_marks hi.marks _ s))
  | comment t span => exact (runs_push _ l s).bind (runs_push t _ s)
  | newlines | missing => rfl

/-- Writing an item that has a text meets no fault. -/
theorem runs_item {i : Item} (hi : i.Writable) (l : Layout) (s : σ) :
    Runs (item i) ⟨l, s⟩
      ⟨((Mark.settleAll i.marks s).1.foldl Layout.put (l.front i)).push "\n",
        Scope.register i (Mark.settleAll i.marks s).2⟩ := by
  have hregister : ∀ (k : Layout) (u : σ), Runs (register i) ⟨k, u⟩ ⟨k, Scope.register i u⟩ :=
    fun k u => rfl
  exact (runs_itemText hi l s).bind ((hregister _ _).bind (runs_push _ _ _))

/-- Writing items that have texts meets no fault. -/
theorem runs_items {start : σ} {bound : List Item → Text → Bool}
    (hbound : Scope.Answers start bound) {is : List Item}
    (his : ∀ i ∈ is, i.Writable) {done : List Item} {s : σ}
    (hs : Scope.Reached start done s) (l : Layout) :
    ∃ t, Scope.Reached start (done ++ is) t ∧
      Runs (items is) ⟨l, s⟩ ⟨l.lines bound done is, t⟩ := by
  induction is generalizing done s l with
  | nil => exact ⟨s, by rwa [List.append_nil], rfl⟩
  | cons i is ih =>
      obtain ⟨hmarks, hasked⟩ := Mark.settleAll_of_answers hbound i.marks hs
      have hitem := runs_item (his i List.mem_cons_self) l s
      rw [hmarks] at hitem
      obtain ⟨t, ht, hrest⟩ := ih (fun j hj => his j (List.mem_cons_of_mem _ hj))
        (hasked.registered i) ((l.line (bound done) i).push "\n")
      exact ⟨t, by rwa [List.append_cons], hitem.bind hrest⟩

end Writing

/-! ## What the lines spell -/

/-- A comment without line breaks is scanned up to the end of its line. -/
theorem Lexeme.scan_commentLine {text : Text} (htext : ∀ c ∈ text, c.isLineBreak = false)
    (rest : Text) : Lexeme.scan ("# " ++ text ++ CodePoint.ofChar '\n' :: rest) =
      .found ("# " ++ text).length (.comment text) := by
  refine scan_text (l := .comment text) htext fun c hc => ?_
  obtain rfl : CodePoint.ofChar '\n' = c := Option.some.inj hc
  rfl

namespace Begins

variable {t : Text} {ls : List Lexeme}

/-- A lexeme that takes the rest of its line. -/
theorem restOfLine {u : Text} {l : Lexeme} (h : Begins t ls)
    (hscan : ∀ rest, Lexeme.scan (u ++ CodePoint.ofChar '\n' :: rest) = .found u.length l)
    (hjoin : ∀ c ∈ t.getLast?, ∀ d ∈ u.head?, c.joins d = false) (hne : u ≠ []) :
    Begins (t ++ u ++ [CodePoint.ofChar '\n']) (ls ++ [l] ++ [.newline]) := by
  intro rest ms _ hms
  have hline : Lexes (u ++ CodePoint.ofChar '\n' :: rest) (l :: .newline :: ms) := by
    refine .lexeme (Lexeme.isSpace_first_of_scan (hscan rest)) (hscan rest) ?_
    rw [List.drop_left]
    exact .lexeme (n := 1) rfl rfl hms
  rw [List.append_assoc, List.append_assoc, List.append_assoc, List.append_assoc]
  refine h _ _ (fun c hc d hd => hjoin c hc d ?_) hline
  cases u with
  | nil => exact absurd rfl hne
  | cons e u => exact hd

theorem comment {text : Text} (h : Begins t ls) (htext : ∀ c ∈ text, c.isLineBreak = false) :
    Begins (t ++ ("# " ++ text) ++ [CodePoint.ofChar '\n'])
      (ls ++ [.comment text] ++ [.newline]) :=
  h.restOfLine (Lexeme.scan_commentLine htext) (Text.apart_of_separator rfl (by decide)) nofun

end Begins

namespace Layout

variable {l : Layout} {ls : List Lexeme}

/-- Behind the words on a line the line may go on or end. -/
theorem begins_line (bound : Text → Bool) {i : Item} (h : Begins l.text ls)
    (hlast : ∀ c ∈ l.text.getLast?, c.isLetter = false) (hi : i.WellFormed)
    (hwords : ∀ t span, i ≠ .comment t span) :
    Begins (l.line bound i).text (ls ++ (i.canonical bound).spelling) := by
  have hfront : Begins (l.front i).text (ls ++ i.front) := by
    cases i with
    | binding n ws nameSpan span => exact begins_head h hlast hi.1
    | comment t span => exact absurd rfl (hwords t span)
    | words _ _ | newlines _ | missing => exact (List.append_nil ls).symm ▸ h
  rw [Item.spelling_canonical, ← List.append_assoc]
  exact begins_putAll hfront (Mark.lexable_map_resolve hi.lexable)

theorem text_comment (bound : Text → Bool) (l : Layout) (t : Text) (span : Option Span) :
    (l.line bound (.comment t span)).text = l.text ++ ("# " ++ t) := by
  show ((l.push "# ").push t).text = _
  rw [text_push, text_push, List.append_assoc]

theorem begins_lineEnd (bound : Text → Bool) {i : Item} (h : Begins l.text ls)
    (hlast : ∀ c ∈ l.text.getLast?, c.isLetter = false) (hi : i.WellFormed) :
    Begins ((l.line bound i).push "\n").text
      (ls ++ (i.canonical bound).spelling ++ [.newline]) := by
  rw [text_push]
  obtain ⟨t, span, rfl⟩ | hwords := i.comment_or
  · rw [text_comment]
    exact h.comment hi
  · exact (begins_line bound h hlast hi hwords).newline

theorem getLast?_pushNewline (l : Layout) :
    ∀ c ∈ (l.push "\n").text.getLast?, c.isLetter = false := by
  intro c hc
  rw [text_push, show Text.ofString "\n" = [CodePoint.ofChar '\n'] from rfl,
    List.getLast?_concat] at hc
  obtain rfl := Option.some.inj hc
  decide +kernel

/-- Well-formed items are spelled line by line, in canonical form. -/
theorem begins_lines (bound : List Item → Text → Bool) {is : List Item} (h : Begins l.text ls)
    (hlast : ∀ c ∈ l.text.getLast?, c.isLetter = false) (his : ∀ i ∈ is, i.WellFormed)
    (done : List Item) :
    Begins (l.lines bound done is).text (ls ++ spellLines (canonicalItems bound done is)) ∧
      ∀ c ∈ (l.lines bound done is).text.getLast?, c.isLetter = false := by
  induction is generalizing l ls done with
  | nil => exact ⟨by rwa [canonicalItems, spellLines, List.flatMap_nil, List.append_nil], hlast⟩
  | cons i is ih =>
      have hline := begins_lineEnd (bound done) h hlast (his i List.mem_cons_self)
      have := ih hline (getLast?_pushNewline _) (fun j hj => his j (List.mem_cons_of_mem _ hj))
        (done ++ [i])
      rwa [List.append_assoc, List.append_assoc, List.singleton_append, ← spellLines_cons] at this

end Layout

end GlyphFormat
