import GlyphFormat.Proofs.Grammar.Breaks
import GlyphFormat.Proofs.Token.Layout

/-!
# Programs laid out in other ways

Where tokens stand does not matter to a program, and inside brackets line breaks do not
(`ProgramTree.respread`). Outside brackets a line break ends a row, so a longer run of line breaks
and line breaks at the ends come and go with blank rows, which give no further item.

So an edit of the layout leaves the items of a program as they are, up to spans and the blanks of a
last comment (`retells_of_layoutEdit`), and so does undoing it.
-/

namespace GlyphFormat

/-! ## Items that differ in layout only -/

theorem trimLast_strip (is : List Item) :
    trimLast (is.map Item.strip) = (trimLast is).map Item.strip := by
  rcases List.eq_nil_or_concat is with rfl | ⟨js, i, rfl⟩
  · rfl
  · rw [List.concat_eq_append, List.map_append, List.map_singleton, trimLast_concat,
      trimLast_concat, List.map_append, List.map_singleton]
    cases i <;> rfl

/-- The items are the same, up to spans and the blanks at the end of a last comment. -/
def SameItems (is js : List Item) : Prop :=
  (trimLast js).map Item.strip = (trimLast is).map Item.strip

theorem SameItems.of_strip {is js : List Item} (h : js.map Item.strip = is.map Item.strip) :
    SameItems is js := by
  rw [SameItems, ← trimLast_strip, h, trimLast_strip]

/-! ## Programs in other places -/

/-- A token of the lexeme, where places do not matter. -/
def Token.anywhere (l : Lexeme) : Token := ⟨l, ⟨1, 1⟩, ⟨1, 1⟩⟩

theorem Token.map_anywhere (ls : List Lexeme) : (ls.map anywhere).map Token.lexeme = ls := by
  rw [List.map_map]
  exact List.map_id ls

namespace ProgramTree

def lexemes (p : ProgramTree) : List Lexeme := p.tokens.map Token.lexeme

theorem endsInput (p : ProgramTree) : ∃ ts, p.tokens = ts ++ [p.stop] :=
  ⟨p.rows.flatMap Row.tokens ++ LineTree.tokens? p.last, (List.append_assoc _ _ _).symm⟩

/-- Other tokens tell the same program if they differ in line breaks inside brackets only and none
of these stands in front of an underscore. -/
theorem respread (p : ProgramTree) (path : Option Path) {us : List Token}
    (h : Lexeme.unbroken 0 (us.map Token.lexeme) = Lexeme.unbroken 0 p.lexemes)
    (happart : ¬[.newline, .underscore] <:+: us.map Token.lexeme)
    (hend : ∃ ts stop, us = ts ++ [stop] ∧ stop.lexeme = .endOfInput) :
    ∃ p' : ProgramTree, p'.tokens = us ∧
      (p'.items path).map Item.strip = (p.items path).map Item.strip := by
  let narrow := (Lexeme.unbroken 0 p.lexemes).map Token.anywhere
  have hnarrow : narrow.map Token.lexeme = Lexeme.unbroken 0 p.lexemes := Token.map_anywhere _
  obtain ⟨q, hq, hitems⟩ := (rebreaks_unbreaks.keepsWords path).program p
    (show Unbreaks 0 p.tokens narrow from hnarrow)
  obtain ⟨ts, stop, rfl, hstop⟩ := hend
  have hspreads : Spreads 0 narrow (ts ++ [stop]) :=
    Unbreaks.spreads hstop (hnarrow.trans h.symm) happart
  rw [← hq] at hspreads
  obtain ⟨p', hp', hitems'⟩ := (rebreaks_spreads.keepsWords path).program q hspreads
  exact ⟨p', hp', hitems'.trans hitems⟩

/-- Tokens with the same lexemes tell the same program. -/
theorem replace (p : ProgramTree) (path : Option Path) {us : List Token}
    (h : us.map Token.lexeme = p.lexemes) :
    ∃ p' : ProgramTree, p'.tokens = us ∧
      (p'.items path).map Item.strip = (p.items path).map Item.strip := by
  refine p.respread path (by rw [h]) (by rw [h]; exact p.breaksApart) ?_
  obtain ⟨ts, hts⟩ := p.endsInput
  rw [lexemes, hts, List.map_append, List.map_singleton] at h
  obtain ⟨us, vs, rfl, -, hvs⟩ := List.map_eq_append_iff.mp h
  obtain ⟨stop, rfl, hstop⟩ := List.map_eq_singleton_iff.mp hvs
  exact ⟨us, stop, rfl, hstop.trans p.atEnd⟩

end ProgramTree

/-- Whatever program the first lexemes tell, the second tell one with the same items. -/
def Retells (path : Option Path) (ls ms : List Lexeme) : Prop :=
  ∀ p : ProgramTree, p.lexemes = ls ++ [.endOfInput] →
    ∃ p' : ProgramTree, p'.lexemes = ms ++ [.endOfInput] ∧ SameItems (p.items path) (p'.items path)

namespace Retells

variable {path : Option Path} {ls ms : List Lexeme}

theorem refl (path : Option Path) (ls : List Lexeme) : Retells path ls ls :=
  fun p hp => ⟨p, hp, rfl⟩

theorem of_unbroken (h : Lexeme.unbroken 0 ms = Lexeme.unbroken 0 ls)
    (happart : [.newline, .underscore] <:+: ms → [.newline, .underscore] <:+: ls) :
    Retells path ls ms := by
  intro p hp
  let us := ms.map Token.anywhere ++ [Token.anywhere .endOfInput]
  have hus : us.map Token.lexeme = ms ++ [.endOfInput] := by
    rw [List.map_append, Token.map_anywhere]
    rfl
  have hnone : ¬[.newline, .underscore] <:+: us.map Token.lexeme := by
    have hp' := p.breaksApart
    rw [show p.tokens.map Token.lexeme = _ from hp, Lexeme.infix_concat_end] at hp'
    rw [hus, Lexeme.infix_concat_end]
    exact mt happart hp'
  have hnarrow : Lexeme.unbroken 0 (us.map Token.lexeme) = Lexeme.unbroken 0 p.lexemes := by
    rw [hus, hp, Lexeme.unbroken_concat_end, Lexeme.unbroken_concat_end, h]
  obtain ⟨p', hp', hitems⟩ := p.respread path hnarrow hnone ⟨_, _, rfl, rfl⟩
  exact ⟨p', by rw [ProgramTree.lexemes, hp', hus], .of_strip hitems⟩

end Retells

/-! ## Rows at a line break -/

/-- A line break that is crossed stands inside brackets. -/
theorem Crosses.newline_inside {depth depth' : Int} {ts : List Token} {ls ms : List Lexeme}
    (h : Crosses depth ts depth') (hts : ts.map Token.lexeme = ls ++ .newline :: ms) :
    0 < depth + Lexeme.balance ls := by
  induction h generalizing ls with
  | nil => simp at hts
  | cons _ hnewline _ ih =>
      cases ls with
      | nil =>
          rw [Lexeme.balance, Int.add_zero]
          exact hnewline (List.cons.inj hts).1
      | cons l ls =>
          obtain ⟨rfl, htail⟩ := List.cons.inj hts
          rw [Lexeme.balance, ← Int.add_assoc, ← Cursor.depthAfter_eq]
          exact ih htail

namespace LineTree

theorem balance? (l : Option LineTree) :
    Lexeme.balance ((tokens? l).map Token.lexeme) = 0 := by
  have h := (crosses? l).balance
  rw [Int.zero_add] at h
  exact h.symm

/-- A line break outside brackets stands behind a line, next to it or further on. -/
theorem split? (l : Option LineTree) {k : Lexeme} {ks ls ms : List Lexeme}
    (h : (tokens? l).map Token.lexeme ++ k :: ks = ls ++ .newline :: ms)
    (hdepth : Lexeme.balance ls ≤ 0) :
    ((tokens? l).map Token.lexeme = ls ∧ k = .newline ∧ ks = ms) ∨
      ∃ ls', ls = (tokens? l).map Token.lexeme ++ k :: ls' ∧ ks = ls' ++ .newline :: ms := by
  rcases List.append_eq_append_iff.mp h with ⟨as, rfl, has⟩ | ⟨cs, hl, hcs⟩
  · cases as with
    | nil =>
        obtain ⟨rfl, rfl⟩ := List.cons.inj has
        exact Or.inl ⟨(List.append_nil _).symm, rfl, rfl⟩
    | cons a as =>
        obtain ⟨rfl, rfl⟩ := List.cons.inj has
        exact Or.inr ⟨as, rfl, rfl⟩
  · cases cs with
    | nil =>
        obtain ⟨rfl, rfl⟩ := List.cons.inj hcs
        exact Or.inl ⟨by rw [hl, List.append_nil], rfl, rfl⟩
    | cons c cs =>
        obtain ⟨rfl, -⟩ := List.cons.inj hcs
        have := (crosses? l).newline_inside hl
        omega

theorem tokens?_eq_nil {l : Option LineTree} (h : tokens? l = []) : l = none := by
  cases l with
  | none => rfl
  | some l =>
      obtain ⟨t, ts, hts, -⟩ := l.first
      rw [show tokens? (some l) = l.tokens from rfl, hts] at h
      cases h

end LineTree

namespace ProgramTree

theorem lexemes_eq (p : ProgramTree) : p.lexemes = (p.rows.flatMap Row.tokens).map Token.lexeme ++
    ((LineTree.tokens? p.last).map Token.lexeme ++ [.endOfInput]) := by
  rw [lexemes, tokens, List.map_append, List.map_append, List.map_singleton, p.atEnd]

/-- The program of a row and what stands behind it. -/
def cons (r : Row) (p : ProgramTree) : ProgramTree := { p with rows := r :: p.rows }

theorem lexemes_cons (r : Row) (p : ProgramTree) : (cons r p).lexemes =
    (LineTree.tokens? r.line).map Token.lexeme ++ .newline :: p.lexemes := by
  rw [lexemes, lexemes, cons, tokens, tokens, List.flatMap_cons, Row.tokens]
  simp only [List.map_append, List.map_cons, List.map_nil, List.append_assoc, List.cons_append,
    List.nil_append, r.newline]

theorem lexemes_blank {stop : Token} (hstop : stop.lexeme = .newline) (p : ProgramTree) :
    (cons ⟨none, stop, hstop⟩ p).lexemes = .newline :: p.lexemes := lexemes_cons _ p

/-- Rows in front of a program. -/
def behind (rows : List Row) (p : ProgramTree) : ProgramTree := { p with rows := rows ++ p.rows }

theorem lexemes_behind (rows : List Row) (p : ProgramTree) :
    (behind rows p).lexemes = (rows.flatMap Row.tokens).map Token.lexeme ++ p.lexemes := by
  rw [lexemes, lexemes, behind, tokens, tokens, List.flatMap_append, List.append_assoc,
    List.map_append]

/-- A line break outside brackets ends a row. -/
theorem split (p : ProgramTree) {ls ms : List Lexeme} (h : p.lexemes = ls ++ .newline :: ms)
    (hdepth : Lexeme.balance ls ≤ 0) : ∃ (rows : List Row) (r : Row) (q : ProgramTree),
      p = behind rows (cons r q) ∧ q.lexemes = ms ∧
        ls = (rows.flatMap Row.tokens).map Token.lexeme ++
          (LineTree.tokens? r.line).map Token.lexeme := by
  obtain ⟨rows, last, stop, hstop⟩ := p
  induction rows generalizing ls with
  | nil =>
      rw [lexemes_eq] at h
      rcases LineTree.split? last h hdepth with ⟨-, hend, -⟩ | ⟨ls', -, hnil⟩
      · cases hend
      · simp at hnil
  | cons r rows ih =>
      replace h : (cons r ⟨rows, last, stop, hstop⟩).lexemes = ls ++ .newline :: ms := h
      rw [lexemes_cons] at h
      rcases LineTree.split? r.line h hdepth with ⟨rfl, -, rfl⟩ | ⟨ls', rfl, hrest⟩
      · exact ⟨[], r, ⟨rows, last, stop, hstop⟩, rfl, rfl, rfl⟩
      · have hdepth' : Lexeme.balance ls' ≤ 0 := by
          rw [Lexeme.balance_append, LineTree.balance?, Lexeme.balance,
            show Lexeme.nesting .newline = 0 from rfl, Int.zero_add, Int.zero_add] at hdepth
          exact hdepth
        obtain ⟨rows', r', q, hq, hms, rfl⟩ := ih hdepth' hrest
        refine ⟨r :: rows', r', q, congrArg (cons r) hq, hms, ?_⟩
        rw [List.flatMap_cons, Row.tokens]
        simp only [List.map_append, List.map_cons, List.append_assoc, List.cons_append,
          List.nil_append, r.newline]

/-- A program that begins with a line break begins with a blank row. -/
theorem blank_first (p : ProgramTree) {ms : List Lexeme} (h : p.lexemes = .newline :: ms) :
    ∃ (stop : Token) (hstop : stop.lexeme = .newline) (q : ProgramTree),
      p = cons ⟨none, stop, hstop⟩ q ∧ q.lexemes = ms := by
  obtain ⟨rows, ⟨line, stop, hstop⟩, q, rfl, hq, hnil⟩ :=
    p.split (show p.lexemes = [] ++ .newline :: ms from h) (Int.le_refl 0)
  obtain ⟨hrows, hline⟩ := List.append_eq_nil_iff.mp hnil.symm
  obtain rfl : line = none := LineTree.tokens?_eq_nil (List.map_eq_nil_iff.mp hline)
  cases rows with
  | nil => exact ⟨stop, hstop, q, rfl, hq⟩
  | cons r rows => simp [Row.tokens] at hrows

/-- Only the empty program has no more than the end of input. -/
theorem eq_empty (p : ProgramTree) (h : p.lexemes = [.endOfInput]) :
    p = ⟨[], none, p.stop, p.atEnd⟩ := by
  obtain ⟨rows, last, stop, hstop⟩ := p
  rw [lexemes_eq, ← List.append_assoc] at h
  obtain ⟨hrows, hlast⟩ := List.append_eq_nil_iff.mp
    (List.append_cancel_right (h.trans (List.nil_append _).symm))
  obtain rfl : last = none := LineTree.tokens?_eq_nil (List.map_eq_nil_iff.mp hlast)
  cases rows with
  | nil => rfl
  | cons r rows => simp [Row.tokens] at hrows

/-! ## Blank rows -/

/-- Behind any rows the two programs give the same items. -/
def Alike (path : Option Path) (p q : ProgramTree) : Prop :=
  Row.hasLine q.rows q.last = Row.hasLine p.rows p.last ∧ ∀ behindLine,
    Row.items path behindLine q.rows q.last = Row.items path behindLine p.rows p.last

variable {path : Option Path} {p q : ProgramTree}

theorem Alike.cons (r : Row) (h : Alike path p q) :
    Alike path (ProgramTree.cons r p) (ProgramTree.cons r q) := by
  obtain ⟨line, stop, hstop⟩ := r
  refine ⟨?_, fun behindLine => ?_⟩
  · rw [ProgramTree.cons, ProgramTree.cons, Row.hasLine, Row.hasLine, List.any_cons, List.any_cons,
      Bool.or_assoc, Bool.or_assoc]
    exact congrArg (_ || ·) h.1
  · cases line with
    | none => simp only [ProgramTree.cons, Row.items, h.1, h.2]
    | some l => simp only [ProgramTree.cons, Row.items, h.2]

theorem Alike.behind (rows : List Row) (h : Alike path p q) :
    Alike path (ProgramTree.behind rows p) (ProgramTree.behind rows q) := by
  induction rows with
  | nil => exact h
  | cons r rows ih => exact ih.cons r

theorem Alike.sameItems (h : Alike path p q) : SameItems (p.items path) (q.items path) :=
  .of_strip (by rw [items, items, h.2])

theorem Alike.symm (h : Alike path p q) : Alike path q p :=
  ⟨h.1.symm, fun behindLine => (h.2 behindLine).symm⟩

/-- A second blank row gives nothing. -/
theorem alike_blank_blank (path : Option Path) {stop stop' : Token} (hstop : stop.lexeme = .newline)
    (hstop' : stop'.lexeme = .newline) (p : ProgramTree) :
    Alike path (.cons ⟨none, stop, hstop⟩ p)
      (.cons ⟨none, stop, hstop⟩ (.cons ⟨none, stop', hstop'⟩ p)) := by
  refine ⟨rfl, fun behindLine => ?_⟩
  simp [cons, Row.items, Row.hasLine]

/-- Whether a line break ends the last line does not matter. -/
theorem alike_ended (path : Option Path) (r : Row) {stop : Token}
    (hstop : stop.lexeme = .endOfInput) :
    Alike path ⟨[], r.line, stop, hstop⟩ ⟨[r], none, stop, hstop⟩ := by
  obtain ⟨line, newline, hnewline⟩ := r
  cases line with
  | none => exact ⟨rfl, fun behindLine => by simp [Row.items, Row.hasLine]⟩
  | some l => exact ⟨rfl, fun behindLine => List.append_nil _⟩

end ProgramTree

/-! ## The last comment -/

/-- A line that ends in a comment may end in another comment. -/
theorem LineTree.recomment (l : LineTree) (path : Option Path) {ls : List Lexeme} {a : Text}
    (h : l.tokens.map Token.lexeme = ls ++ [.comment a]) (b : Text) :
    ∃ (l' : LineTree) (is : List Item) (span span' : Span),
      l'.tokens.map Token.lexeme = ls ++ [.comment b] ∧
      l.items path = is ++ [.comment a span] ∧ l'.items path = is ++ [.comment b span'] := by
  have hlast : ∀ {ts : List Token} {t : Token} {text : Text}, t.lexeme = .comment text →
      (ts ++ [t]).map Token.lexeme = ls ++ [.comment a] →
      text = a ∧ ∀ u : Token, u.lexeme = .comment b →
        (ts ++ [u]).map Token.lexeme = ls ++ [.comment b] := by
    intro ts t text ht h
    rw [List.map_append, List.map_singleton, ht] at h
    obtain ⟨rfl, htext⟩ := List.append_inj' h rfl
    refine ⟨Lexeme.comment.inj (List.cons.inj htext).1, fun u hu => ?_⟩
    rw [List.map_append, List.map_singleton, hu]
  cases l with
  | comment t text ht =>
      obtain ⟨rfl, hu⟩ := @hlast [] _ _ ht h
      exact ⟨.comment ⟨.comment b, t.start, t.stop⟩ b rfl, [], _, _, hu _ rfl, rfl, rfl⟩
  | commented s t text ht =>
      obtain ⟨rfl, hu⟩ := hlast ht h
      exact ⟨.commented s ⟨.comment b, t.start, t.stop⟩ b rfl, [s.item path], _, _, hu _ rfl, rfl,
        rfl⟩
  | statement s =>
      obtain ⟨ts, us, hts, -, hus⟩ := List.map_eq_append_iff.mp h
      obtain ⟨t, rfl, ht⟩ := List.map_eq_singleton_iff.mp hus
      have hnone := s.comment?_eq_none t (by rw [show s.tokens = _ from hts]; simp)
      rw [ht] at hnone
      cases hnone

/-- What stands in front of a last line gives the same items for every line. -/
theorem Row.items_some (path : Option Path) (behindLine : Bool) (rows : List Row) :
    ∃ is, ∀ l, items path behindLine rows (some l) = is ++ l.items path := by
  induction rows generalizing behindLine with
  | nil => exact ⟨[], fun _ => rfl⟩
  | cons r rows ih =>
      obtain ⟨line, stop, hstop⟩ := r
      cases line with
      | none =>
          obtain ⟨is, his⟩ := ih false
          refine ⟨(if behindLine then [.newlines (some (stop.span path))] else []) ++ is,
            fun l => ?_⟩
          simp [items, hasLine, his]
      | some k =>
          obtain ⟨is, his⟩ := ih true
          exact ⟨k.items path ++ is, fun l => by rw [items, his, List.append_assoc]⟩

/-! ## Edits -/

namespace Retells

variable {path : Option Path}

/-- A line break next to a line break neither separates an underscore nor joins one. -/
theorem infix_longer_iff (ls ms : List Lexeme) :
    [.newline, .underscore] <:+: ls ++ .newline :: .newline :: .newline :: ms ↔
      [.newline, .underscore] <:+: ls ++ .newline :: .newline :: ms := by
  induction ls with
  | nil =>
      rw [List.nil_append, List.nil_append, List.infix_cons_iff]
      refine or_iff_right fun hprefix => ?_
      obtain ⟨-, hprefix⟩ := List.cons_prefix_cons.mp hprefix
      cases (List.cons_prefix_cons.mp hprefix).1
  | cons l ls ih =>
      rw [List.cons_append, List.cons_append, List.infix_cons_iff, List.infix_cons_iff, ih]
      refine or_congr_left ?_
      cases ls with
      | nil => simp [List.cons_prefix_cons]
      | cons k ls => simp [List.cons_prefix_cons]

/-- Inside brackets a run of line breaks is as good as a line break. -/
theorem unbroken_longer {ls : List Lexeme} (hdepth : 0 < Lexeme.balance ls) (ms : List Lexeme) :
    Lexeme.unbroken 0 (ls ++ .newline :: .newline :: .newline :: ms) =
      Lexeme.unbroken 0 (ls ++ .newline :: .newline :: ms) := by
  have hnewline : ∀ ks, Lexeme.unbroken (0 + Lexeme.balance ls) (.newline :: ks) =
      Lexeme.unbroken (0 + Lexeme.balance ls) ks := fun ks => by
    rw [Int.zero_add, Lexeme.unbroken, if_pos ⟨rfl, hdepth⟩]
  rw [Lexeme.unbroken_append, Lexeme.unbroken_append, hnewline]

theorem longer (ls ms : List Lexeme) :
    Retells path (ls ++ .newline :: .newline :: ms)
        (ls ++ .newline :: .newline :: .newline :: ms) ∧
      Retells path (ls ++ .newline :: .newline :: .newline :: ms)
        (ls ++ .newline :: .newline :: ms) := by
  by_cases hdepth : 0 < Lexeme.balance ls
  · have h := unbroken_longer hdepth ms
    exact ⟨of_unbroken h (infix_longer_iff ls ms).mp,
      of_unbroken h.symm (infix_longer_iff ls ms).mpr⟩
  rw [Int.not_lt] at hdepth
  refine ⟨fun p hp => ?_, fun p hp => ?_⟩ <;>
    rw [List.append_assoc, List.cons_append, List.cons_append] at hp
  · obtain ⟨rows, r, q, rfl, hq, rfl⟩ := p.split hp hdepth
    obtain ⟨stop, hstop, q, rfl, hq'⟩ := q.blank_first hq
    have halike := ((ProgramTree.alike_blank_blank path hstop hstop q).cons r).behind rows
    refine ⟨_, ?_, halike.sameItems⟩
    rw [ProgramTree.lexemes_behind, ProgramTree.lexemes_cons, ProgramTree.lexemes_blank,
      ProgramTree.lexemes_blank, hq']
    simp
  · obtain ⟨rows, r, q, rfl, hq, rfl⟩ := p.split hp hdepth
    obtain ⟨stop, hstop, q, rfl, hq'⟩ := q.blank_first hq
    obtain ⟨stop', hstop', q, rfl, hq''⟩ := q.blank_first hq'
    have halike := ((ProgramTree.alike_blank_blank path hstop hstop' q).cons r).behind rows
    refine ⟨_, ?_, halike.symm.sameItems⟩
    rw [ProgramTree.lexemes_behind, ProgramTree.lexemes_cons, ProgramTree.lexemes_blank, hq'']
    simp

theorem first (ls : List Lexeme) :
    Retells path ls (.newline :: ls) ∧ Retells path (.newline :: ls) ls := by
  refine ⟨fun p hp => ?_, fun p hp => ?_⟩
  · refine ⟨.cons ⟨none, .anywhere .newline, rfl⟩ p, ?_, .of_strip rfl⟩
    rw [ProgramTree.lexemes_cons, hp]
    rfl
  · obtain ⟨stop, hstop, q, rfl, hq⟩ := p.blank_first hp
    exact ⟨q, hq, .of_strip rfl⟩

theorem last (ls : List Lexeme) :
    Retells path ls (ls ++ [.newline]) ∧ Retells path (ls ++ [.newline]) ls := by
  have hinside : 0 < Lexeme.balance ls →
      Lexeme.unbroken 0 ls = Lexeme.unbroken 0 (ls ++ [.newline]) := fun hdepth => by
    rw [Lexeme.unbroken_append, Int.zero_add, Lexeme.unbroken, if_pos ⟨rfl, hdepth⟩,
      Lexeme.unbroken, List.append_nil]
  refine ⟨fun p hp => ?_, ?_⟩
  · obtain ⟨rows, line, stop, hstop⟩ := p
    let r : Row := ⟨line, .anywhere .newline, rfl⟩
    have hrows : ProgramTree.mk rows line stop hstop = .behind rows ⟨[], line, stop, hstop⟩ := by
      rw [ProgramTree.behind, List.append_nil]
    rw [hrows] at hp ⊢
    have halike := (ProgramTree.alike_ended path r hstop).behind rows
    refine ⟨_, ?_, halike.sameItems⟩
    rw [ProgramTree.lexemes_behind, ProgramTree.lexemes_eq, List.flatMap_nil, List.map_nil,
      List.nil_append, ← List.append_assoc] at hp
    rw [← List.append_cancel_right hp, ProgramTree.lexemes_behind, List.append_assoc,
      List.append_assoc]
    refine congrArg (_ ++ ·) ((ProgramTree.lexemes_cons r ⟨[], none, stop, hstop⟩).trans ?_)
    rw [ProgramTree.lexemes_eq]
    rfl
  · by_cases hdepth : 0 < Lexeme.balance ls
    · exact of_unbroken (hinside hdepth) fun h => h.trans (List.prefix_append _ _).isInfix
    · intro p hp
      rw [List.append_assoc] at hp
      obtain ⟨rows, r, q, rfl, hq, rfl⟩ := p.split hp (Int.not_lt.mp hdepth)
      rw [q.eq_empty hq]
      have halike := (ProgramTree.alike_ended path r q.atEnd).behind rows
      refine ⟨_, ?_, halike.symm.sameItems⟩
      rw [ProgramTree.lexemes_behind, ProgramTree.lexemes_eq, List.append_assoc]
      rfl

theorem comment (ls : List Lexeme) {a b : Text} (h : a.trimRight = b.trimRight) :
    Retells path (ls ++ [.comment a]) (ls ++ [.comment b]) := by
  intro p hp
  obtain ⟨rows, line, stop, hstop⟩ := p
  rw [ProgramTree.lexemes_eq, ← List.append_assoc] at hp
  have hcut := List.append_cancel_right hp
  cases line with
  | none =>
      rw [LineTree.tokens?, List.map_nil, List.append_nil] at hcut
      rcases List.eq_nil_or_concat rows with rfl | ⟨rs, r, rfl⟩
      · simp at hcut
      · rw [List.concat_eq_append, List.flatMap_append, List.flatMap_singleton, Row.tokens,
          ← List.append_assoc, List.map_append, List.map_singleton, r.newline] at hcut
        cases (List.append_inj' hcut rfl).2
  | some l =>
      obtain ⟨ts, t, hts⟩ : ∃ ts t, l.tokens = ts ++ [t] := by
        obtain ⟨u, us, hus, -⟩ := l.first
        exact ⟨_, _, (List.dropLast_concat_getLast (by rw [hus]; simp)).symm⟩
      rw [LineTree.tokens?, hts, List.map_append, ← List.append_assoc, List.map_singleton] at hcut
      obtain ⟨rfl, ht⟩ := List.append_inj' hcut rfl
      have hline : l.tokens.map Token.lexeme = ts.map Token.lexeme ++ [.comment a] := by
        rw [hts, List.map_append, List.map_singleton, ht]
      obtain ⟨l', is, span, span', htokens, hitems, hitems'⟩ := l.recomment path hline b
      obtain ⟨front, hfront⟩ := Row.items_some path false rows
      refine ⟨⟨rows, some l', stop, hstop⟩, ?_, ?_⟩
      · rw [ProgramTree.lexemes_eq, LineTree.tokens?, htokens]
        simp only [List.append_assoc]
      · rw [SameItems, ProgramTree.items, ProgramTree.items, hfront, hfront, hitems, hitems',
          ← List.append_assoc, ← List.append_assoc, trimLast_concat, trimLast_concat,
          Item.trimmed, Item.trimmed, h]
        simp only [List.map_append, List.map_cons, List.map_nil, Item.strip]

end Retells

/-- An edit of the layout and its undoing leave the items as they are. -/
theorem retells_of_layoutEdit (path : Option Path) {ls ms : List Lexeme}
    (h : Lexeme.LayoutEdit ls ms) : Retells path ls ms ∧ Retells path ms ls := by
  cases h with
  | same => exact ⟨.refl path ls, .refl path ls⟩
  | longer ls ms => exact Retells.longer ls ms
  | first => exact Retells.first ls
  | last => exact Retells.last ls
  | comment ls h => exact ⟨.comment ls h, .comment ls h.symm⟩

end GlyphFormat
