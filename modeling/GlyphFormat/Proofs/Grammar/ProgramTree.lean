import GlyphFormat.Proofs.Grammar.Unambiguous

/-!
# Derivation trees of programs

A program is rows, each a line or blank with a line break behind it, then a last line or nothing in
front of the end of input. Its items are those of its lines; a run of blank rows between two lines
is one item.

Reading a source reports nothing exactly when its tokens have a tree. The tree is then the only one,
and the items that are read are its items (`parse_iff_tree`).
-/

namespace GlyphFormat

/-! ## Lines -/

/-- The text of a comment. -/
def Lexeme.comment? : Lexeme → Option Text
  | .comment t => some t
  | _ => none

theorem Lexeme.comment?_of_inWords {l : Lexeme} (h : l.inWords = true) : l.comment? = none := by
  cases l <;> first | rfl | cases h

/-- A name and the words that it is bound to, or words. -/
inductive StatementTree where
  | binding (t e : Token) (name : Text) (ht : t.lexeme = .ident name) (he : e.lexeme = .assign)
      (ws : Derivation .words false)
  | words (w : Derivation .word false) (ws : Derivation .words false)

inductive LineTree where
  | comment (t : Token) (text : Text) (ht : t.lexeme = .comment text)
  | statement (s : StatementTree)
  | commented (s : StatementTree) (t : Token) (text : Text) (ht : t.lexeme = .comment text)

namespace StatementTree

def tokens : StatementTree → List Token
  | .binding t e _ _ _ ws => t :: e :: ws.tokens
  | .words w ws => w.tokens ++ ws.tokens

def item (path : Option Path) : StatementTree → Item
  | .binding t e name _ _ ws => .binding name (ws.value path) (t.span path)
      (Token.spanOver path (t :: e :: ws.tokens))
  | .words w ws => .words (List.cons (w.value path) (ws.value path))
      (Token.spanOver path (w.tokens ++ ws.tokens))

theorem derives (path : Option Path) (s : StatementTree) :
    DerivesStatement path (s.item path) s.tokens := by
  cases s with
  | binding t e name ht he ws => exact .binding ht he (ws.derives path)
  | words w ws =>
      obtain ⟨t, ts, hts, -⟩ := w.first_word
      exact .words (by rw [hts]; simp) (.wordsCons .nil (w.derives path) (ws.derives path))

/-- The first token of a statement begins a word. -/
theorem first (s : StatementTree) :
    ∃ t ts, s.tokens = t :: ts ∧ t.lexeme.startsWord = true :=
  Cursor.startsWord_of_statement (s.derives none)

/-- A statement holds no comment. -/
theorem comment?_eq_none (s : StatementTree) : ∀ t ∈ s.tokens, t.lexeme.comment? = none := by
  have hwords : ∀ {part : Part} (w : Derivation part false), ∀ t ∈ w.tokens,
      t.lexeme.comment? = none := fun w t ht =>
    Lexeme.comment?_of_inWords ((w.derives none).inWords t ht)
  cases s with
  | binding t e name ht he ws =>
      refine List.forall_mem_cons.mpr ⟨by rw [ht]; rfl, ?_⟩
      exact List.forall_mem_cons.mpr ⟨by rw [he]; rfl, hwords ws⟩
  | words w ws => exact List.forall_mem_append.mpr ⟨hwords w, hwords ws⟩

end StatementTree

namespace LineTree

def tokens : LineTree → List Token
  | .comment t _ _ => [t]
  | .statement s => s.tokens
  | .commented s t _ _ => s.tokens ++ [t]

/-- A line gives its statement and, as an item of its own, its comment. -/
def items (path : Option Path) : LineTree → List Item
  | .comment t text _ => [.comment text (t.span path)]
  | .statement s => [s.item path]
  | .commented s t text _ => [s.item path, .comment text (t.span path)]

theorem derives (path : Option Path) (l : LineTree) :
    DerivesLine path (l.items path) l.tokens := by
  cases l with
  | comment t text ht => exact .comment ht
  | statement s => exact .statement (s.derives path)
  | commented s t text ht => exact .commented (s.derives path) ht

end LineTree

/-! ### Lines have trees -/

theorem DerivesStatement.tree {path : Option Path} {item : Item} {ts : List Token}
    (h : DerivesStatement path item ts) : ∃ s : StatementTree, s.tokens = ts := by
  cases h with
  | binding ht he hws =>
      obtain ⟨ws, rfl⟩ := hws.hasTree
      exact ⟨.binding _ _ _ ht he ws, rfl⟩
  | words hne hws =>
      obtain ⟨ws, rfl⟩ := hws.hasTree
      -- Outside brackets words that have tokens have a first word, and no gap in front of it.
      cases ws with
      | noWords g hg => exact absurd (hg.2 rfl) hne
      | moreWords g hg w ws =>
          obtain rfl := hg.2 rfl
          exact ⟨.words w ws, rfl⟩

theorem DerivesLine.tree {path : Option Path} {items : List Item} {ts : List Token}
    (h : DerivesLine path items ts) : ∃ l : LineTree, l.tokens = ts := by
  cases h with
  | comment ht => exact ⟨.comment _ _ ht, rfl⟩
  | statement hs =>
      obtain ⟨s, rfl⟩ := hs.tree
      exact ⟨.statement s, rfl⟩
  | commented hs ht =>
      obtain ⟨s, rfl⟩ := hs.tree
      exact ⟨.commented s _ _ ht, rfl⟩

/-! ### Lines have one tree -/

/-- A token behind a line. -/
def Token.EndsLine (t : Token) : Prop := t.lexeme = .newline ∨ t.lexeme = .endOfInput

theorem Token.EndsLine.not_comment {t : Token} (h : t.EndsLine) (text : Text) :
    t.lexeme ≠ .comment text := by
  intro ht
  rcases h with h | h <;> cases h.symm.trans ht

/-- A comment or the end of a line ends words outside brackets. -/
theorem ends_words_outside {t : Token} {ts : List Token}
    (h : t.EndsLine ∨ ∃ text, t.lexeme = .comment text) : Part.words.Ends false (t :: ts) := by
  refine .cons ?_
  rcases h with (h | h) | ⟨text, h⟩ <;>
    · rw [Part.EndsAt, h]
      refine ⟨rfl, ?_, ?_⟩ <;> rintro ⟨⟩

namespace StatementTree

variable {ts ts' : List Token}

theorem cancel {s s' : StatementTree} (hts : Part.words.Ends false ts)
    (hts' : Part.words.Ends false ts') (hassign : ∀ t ∈ ts.head?, t.lexeme ≠ .assign)
    (hassign' : ∀ t ∈ ts'.head?, t.lexeme ≠ .assign) (h : s.tokens ++ ts = s'.tokens ++ ts') :
    s = s' ∧ ts = ts' := by
  -- The second token of words is no mark of a binding, even where it stands behind the words.
  have hclash : ∀ {t e : Token} {us ts : List Token} {w : Derivation .word false}
      {ws : Derivation .words false}, e.lexeme = .assign →
      (∀ t ∈ ts.head?, t.lexeme ≠ .assign) → t :: e :: us = w.tokens ++ (ws.tokens ++ ts) →
      False := by
    intro t e us ts w ws he hassign h
    have hwords : ∀ u ∈ w.tokens ++ ws.tokens, u.lexeme.inWords = true :=
      List.forall_mem_append.mpr ⟨(w.derives none).inWords, (ws.derives none).inWords⟩
    obtain ⟨u, vs, hvs, -⟩ := w.first_word
    rw [hvs] at hwords
    rw [hvs, ← List.append_assoc] at h
    have htail : e :: us = (vs ++ ws.tokens) ++ ts := (List.cons.inj h).2
    cases hrest : vs ++ ws.tokens with
    | nil =>
        rw [hrest] at htail
        obtain rfl := htail
        exact hassign e rfl he
    | cons v more =>
        have hv := hwords v (by rw [List.cons_append, hrest]; simp)
        rw [hrest] at htail
        obtain ⟨rfl, -⟩ := List.cons.inj htail
        rw [he] at hv
        cases hv
  cases s with
  | binding t e name ht he ws =>
      cases s' with
      | binding t' e' name' ht' he' ws' =>
          simp only [tokens, List.cons_append] at h
          obtain ⟨rfl, htail⟩ := List.cons.inj h
          obtain ⟨rfl, hwords⟩ := List.cons.inj htail
          obtain rfl := Lexeme.ident.inj (ht.symm.trans ht')
          obtain ⟨rfl, rfl⟩ := ws.cancel hts hts' hwords
          exact ⟨rfl, rfl⟩
      | words w' ws' =>
          simp only [tokens, List.cons_append, List.append_assoc] at h
          exact (hclash he hassign' h).elim
  | words w ws =>
      cases s' with
      | binding t' e' name' ht' he' ws' =>
          simp only [tokens, List.cons_append, List.append_assoc] at h
          exact (hclash he' hassign h.symm).elim
      | words w' ws' =>
          simp only [tokens, List.append_assoc] at h
          obtain ⟨rfl, hwords⟩ := w.cancel (ws.ends_word hts) (ws'.ends_word hts') h
          obtain ⟨rfl, rfl⟩ := ws.cancel hts hts' hwords
          exact ⟨rfl, rfl⟩

end StatementTree

namespace LineTree

/-- The first token of a line stands behind no line. -/
theorem first (l : LineTree) : ∃ t ts, l.tokens = t :: ts ∧ ¬t.EndsLine := by
  obtain ⟨t, ts, hts, hnewline, hend⟩ := (l.derives none).first
  exact ⟨t, ts, hts, fun h => h.elim hnewline hend⟩

theorem cancel {l l' : LineTree} {t t' : Token} {ts ts' : List Token} (ht : t.EndsLine)
    (ht' : t'.EndsLine) (h : l.tokens ++ t :: ts = l'.tokens ++ t' :: ts') :
    l = l' ∧ t :: ts = t' :: ts' := by
  have hassign : ∀ {t : Token} {ts : List Token}, (t.EndsLine ∨ ∃ text, t.lexeme = .comment text) →
      ∀ u ∈ (t :: ts).head?, u.lexeme ≠ .assign := by
    intro t ts ht u hu
    obtain rfl : t = u := Option.some.inj hu
    rcases ht with (ht | ht) | ⟨text, ht⟩ <;> rw [ht] <;> exact nofun
  have hstatement : ∀ {s s' : StatementTree} {t t' : Token} {ts ts' : List Token},
      (t.EndsLine ∨ ∃ text, t.lexeme = .comment text) →
      (t'.EndsLine ∨ ∃ text, t'.lexeme = .comment text) →
      s.tokens ++ t :: ts = s'.tokens ++ t' :: ts' → s = s' ∧ t :: ts = t' :: ts' :=
    fun ht ht' => StatementTree.cancel (ends_words_outside ht) (ends_words_outside ht')
      (hassign ht) (hassign ht')
  have hclash : ∀ {s : StatementTree} {t : Token} {text : Text} {ts us : List Token},
      t.lexeme = .comment text → t :: us ≠ s.tokens ++ ts := by
    intro s t text ts us ht h
    obtain ⟨u, vs, hvs, hu⟩ := s.first
    rw [hvs] at h
    obtain ⟨rfl, -⟩ := List.cons.inj h
    rw [ht] at hu
    cases hu
  cases l with
  | comment c text hc =>
      cases l' with
      | comment c' text' hc' =>
          obtain ⟨rfl, htail⟩ := List.cons.inj h
          obtain rfl := Lexeme.comment.inj (hc.symm.trans hc')
          exact ⟨rfl, htail⟩
      | statement s' => exact (hclash hc h).elim
      | commented s' c' text' hc' =>
          simp only [tokens, List.append_assoc] at h
          exact (hclash hc h).elim
  | statement s =>
      cases l' with
      | comment c' text' hc' => exact (hclash hc' h.symm).elim
      | statement s' =>
          obtain ⟨rfl, htail⟩ := hstatement (Or.inl ht) (Or.inl ht') h
          exact ⟨rfl, htail⟩
      | commented s' c' text' hc' =>
          simp only [tokens, List.append_assoc, List.cons_append, List.nil_append] at h
          obtain ⟨-, htail⟩ := hstatement (Or.inl ht) (Or.inr ⟨text', hc'⟩) h
          obtain ⟨rfl, -⟩ := List.cons.inj htail
          exact absurd hc' (ht.not_comment text')
  | commented s c text hc =>
      cases l' with
      | comment c' text' hc' =>
          simp only [tokens, List.append_assoc] at h
          exact (hclash hc' h.symm).elim
      | statement s' =>
          simp only [tokens, List.append_assoc, List.cons_append, List.nil_append] at h
          obtain ⟨-, htail⟩ := hstatement (Or.inr ⟨text, hc⟩) (Or.inl ht') h
          obtain ⟨rfl, -⟩ := List.cons.inj htail
          exact absurd hc (ht'.not_comment text)
      | commented s' c' text' hc' =>
          simp only [tokens, List.append_assoc, List.cons_append, List.nil_append] at h
          obtain ⟨rfl, hcomment⟩ := hstatement (Or.inr ⟨text, hc⟩) (Or.inr ⟨text', hc'⟩) h
          obtain ⟨rfl, htail⟩ := List.cons.inj hcomment
          obtain rfl := Lexeme.comment.inj (hc.symm.trans hc')
          exact ⟨rfl, htail⟩

end LineTree

/-! ## Rows -/

namespace LineTree

/-- The tokens of a line, or none of a blank one. -/
def tokens? : Option LineTree → List Token
  | none => []
  | some l => l.tokens

/-- Of two lines in front of ends of lines, blank or not. -/
theorem cancel? {l l' : Option LineTree} {t t' : Token} {ts ts' : List Token} (ht : t.EndsLine)
    (ht' : t'.EndsLine) (h : tokens? l ++ t :: ts = tokens? l' ++ t' :: ts') :
    l = l' ∧ t = t' ∧ ts = ts' := by
  have hclash : ∀ {l : LineTree} {t : Token} {ts us : List Token}, t.EndsLine →
      t :: us ≠ l.tokens ++ ts := by
    intro l t ts us ht h
    obtain ⟨u, vs, hvs, hu⟩ := l.first
    rw [hvs] at h
    obtain ⟨rfl, -⟩ := List.cons.inj h
    exact hu ht
  cases l with
  | none =>
      cases l' with
      | none => exact ⟨rfl, List.cons.inj h⟩
      | some l' => exact (hclash ht h).elim
  | some l =>
      cases l' with
      | none => exact (hclash ht' h.symm).elim
      | some l' =>
          obtain ⟨rfl, htail⟩ := cancel ht ht' h
          exact ⟨rfl, List.cons.inj htail⟩

end LineTree

/-- A line or nothing, and the line break behind it. -/
structure Row where
  line : Option LineTree
  stop : Token
  newline : stop.lexeme = .newline

namespace Row

def tokens (r : Row) : List Token := LineTree.tokens? r.line ++ [r.stop]

/-- A line is left, in one of the rows or behind them. -/
def hasLine (rows : List Row) (last : Option LineTree) : Bool :=
  rows.any (·.line.isSome) || last.isSome

/-- The items of rows and of what stands behind them. Of blank rows only one right behind a line
gives an item, and only if another line follows. -/
def items (path : Option Path) (behindLine : Bool) : List Row → Option LineTree → List Item
  | [], none => []
  | [], some l => l.items path
  | ⟨some l, _, _⟩ :: rows, last => l.items path ++ items path true rows last
  | ⟨none, stop, _⟩ :: rows, last =>
    (if behindLine && hasLine rows last then [.newlines (some (stop.span path))] else []) ++
      items path false rows last

/-- Rows are derived behind blank lines that are known by their first. By induction on the rows:
`blank` is given only by the first line that follows. -/
theorem derives (path : Option Path) {stop : Token} (hstop : stop.lexeme = .endOfInput)
    (rows : List Row) (last : Option LineTree) (started : Bool) (blank : Option Span) :
    (started = false → blank = none) →
    DerivesLines path started blank (rows.flatMap tokens ++ (LineTree.tokens? last ++ [stop]))
      ((if hasLine rows last then gapItems blank else []) ++
        items path (started && blank.isNone) rows last) := by
  have hend : AtEnd [stop] := fun t ht => Option.some.inj ht ▸ hstop
  induction rows generalizing started blank with
  | nil =>
      intro _
      cases last with
      | none => exact .done hend
      | some l =>
          have hline : DerivesLines path started blank (l.tokens ++ [stop])
              (gapItems blank ++ l.items path) := .last (l.derives path) hend
          simpa [LineTree.tokens?, items, hasLine] using hline
  | cons r rows ih =>
      intro hblank
      obtain ⟨line, newline, hnewline⟩ := r
      cases line with
      | some l =>
          have hrest := ih true none nofun
          rw [show gapItems none = [] from rfl, ite_self, List.nil_append] at hrest
          have hline : DerivesLines path started blank
              (l.tokens ++ newline :: (rows.flatMap tokens ++ (LineTree.tokens? last ++ [stop])))
              (gapItems blank ++ l.items path ++ items path true rows last) :=
            .line (l.derives path) hnewline hrest
          simpa [tokens, LineTree.tokens?, items, hasLine] using hline
      | none =>
          refine .blank hnewline ?_
          cases started with
          | false =>
              obtain rfl := hblank rfl
              exact ih false none fun _ => rfl
          | true =>
              cases blank with
              | none =>
                  simpa [items, hasLine, gapItems, ← List.flatMap_def] using ih true (some _) nofun
              | some span => exact ih true (some span) nofun

/-- Rows have one reading. -/
theorem cancel {rows rows' : List Row} {last last' : Option LineTree} {stop stop' : Token}
    (hstop : stop.lexeme = .endOfInput) (hstop' : stop'.lexeme = .endOfInput)
    (h : rows.flatMap tokens ++ (LineTree.tokens? last ++ [stop]) =
      rows'.flatMap tokens ++ (LineTree.tokens? last' ++ [stop'])) :
    rows = rows' ∧ last = last' ∧ stop = stop' := by
  have hclash : ∀ {t t' : Token}, t.lexeme = .newline → t'.lexeme = .endOfInput → t ≠ t' := by
    rintro t t' ht ht' rfl
    cases ht.symm.trans ht'
  induction rows generalizing rows' with
  | nil =>
      cases rows' with
      | nil =>
          obtain ⟨rfl, rfl, -⟩ := LineTree.cancel? (Or.inr hstop) (Or.inr hstop') h
          exact ⟨rfl, rfl, rfl⟩
      | cons r rows' =>
          simp only [List.flatMap_cons, tokens, List.append_assoc, List.cons_append,
            List.nil_append] at h
          obtain ⟨-, hstops, -⟩ := LineTree.cancel? (Or.inr hstop) (Or.inl r.newline) h
          exact (hclash r.newline hstop hstops.symm).elim
  | cons r rows ih =>
      cases rows' with
      | nil =>
          simp only [List.flatMap_cons, tokens, List.append_assoc, List.cons_append,
            List.nil_append] at h
          obtain ⟨-, hstops, -⟩ := LineTree.cancel? (Or.inl r.newline) (Or.inr hstop') h
          exact (hclash r.newline hstop' hstops).elim
      | cons r' rows' =>
          simp only [List.flatMap_cons, tokens, List.append_assoc, List.cons_append,
            List.nil_append] at h
          obtain ⟨hline, hstops, hrest⟩ := LineTree.cancel? (Or.inl r.newline) (Or.inl r'.newline) h
          obtain ⟨rfl, rfl, rfl⟩ := ih hrest
          obtain ⟨line, newline, hnewline⟩ := r
          obtain rfl : line = r'.line := hline
          obtain rfl : newline = r'.stop := hstops
          exact ⟨rfl, rfl, rfl⟩

end Row

/-! ## Programs -/

structure ProgramTree where
  rows : List Row
  /-- A line without a line break behind it. -/
  last : Option LineTree
  stop : Token
  atEnd : stop.lexeme = .endOfInput

namespace ProgramTree

def tokens (p : ProgramTree) : List Token :=
  p.rows.flatMap Row.tokens ++ (LineTree.tokens? p.last ++ [p.stop])

def items (path : Option Path) (p : ProgramTree) : List Item := Row.items path false p.rows p.last

theorem derives (path : Option Path) (p : ProgramTree) :
    DerivesLines path false none p.tokens (p.items path) := by
  have h := Row.derives path p.atEnd p.rows p.last false none fun _ => rfl
  rwa [show gapItems none = [] from rfl, ite_self] at h

/-- Tokens have one tree at most. -/
theorem eq_of_tokens_eq {p p' : ProgramTree} (h : p.tokens = p'.tokens) : p = p' := by
  obtain ⟨hrows, hlast, hstop⟩ := Row.cancel p.atEnd p'.atEnd h
  obtain ⟨rows, last, stop, hend⟩ := p
  obtain rfl : rows = p'.rows := hrows
  obtain rfl : last = p'.last := hlast
  obtain rfl : stop = p'.stop := hstop
  rfl

end ProgramTree

/-- No line holds the end of input. -/
theorem DerivesLine.ne_end {path : Option Path} {items : List Item} {ts : List Token}
    (h : DerivesLine path items ts) : ∀ t ∈ ts, t.lexeme ≠ .endOfInput := by
  have hwords : ∀ {φ : Phrase} {ts : List Token}, Derives path false φ ts →
      ∀ t ∈ ts, t.lexeme ≠ .endOfInput := fun hd t ht hend => by
    have := hd.inWords t ht
    rw [hend] at this
    cases this
  have hstatement : ∀ {item : Item} {ts : List Token}, DerivesStatement path item ts →
      ∀ t ∈ ts, t.lexeme ≠ .endOfInput := by
    intro item ts hs
    cases hs with
    | binding ht he hws =>
        refine List.forall_mem_cons.mpr ⟨by rw [ht]; exact nofun, ?_⟩
        exact List.forall_mem_cons.mpr ⟨by rw [he]; exact nofun, hwords hws⟩
    | words _ hws => exact hwords hws
  cases h with
  | comment ht => exact List.forall_mem_singleton.mpr (by rw [ht]; exact nofun)
  | statement hs => exact hstatement hs
  | commented hs ht =>
      refine List.forall_mem_append.mpr ⟨hstatement hs, ?_⟩
      exact List.forall_mem_singleton.mpr (by rw [ht]; exact nofun)

/-- Lines that are derived have a tree. -/
theorem DerivesLines.tree {path : Option Path} {started : Bool} {blank : Option Span}
    {ts : List Token} {is : List Item} (h : DerivesLines path started blank ts is) :
    EndsInput ts → ∃ p : ProgramTree, p.tokens = ts := by
  induction h with
  | done hts =>
      intro hend
      obtain ⟨t, rfl, ht⟩ := hend.of_atEnd hts
      exact ⟨⟨[], none, t, ht⟩, rfl⟩
  | @blank _ _ t ts _ ht _ ih =>
      intro hend
      obtain ⟨p, rfl⟩ := ih (hend.behind_newline ht)
      exact ⟨{ p with rows := ⟨none, t, ht⟩ :: p.rows }, rfl⟩
  | @line _ _ us t ts _ _ hl ht _ ih =>
      intro hend
      obtain ⟨l, rfl⟩ := hl.tree
      obtain ⟨p, rfl⟩ := ih ((hend.behind hl.ne_end).behind_newline ht)
      refine ⟨{ p with rows := ⟨some l, t, ht⟩ :: p.rows }, ?_⟩
      simp only [ProgramTree.tokens, List.flatMap_cons, Row.tokens, LineTree.tokens?,
        List.append_assoc, List.cons_append, List.nil_append]
  | last hl hts =>
      intro hend
      obtain ⟨l, rfl⟩ := hl.tree
      obtain ⟨t, rfl, ht⟩ := (hend.behind hl.ne_end).of_atEnd hts
      exact ⟨⟨[], some l, t, ht⟩, rfl⟩

/-- A source whose tokens are those of a tree is read as the items of the tree. -/
theorem ProgramTree.parse_eq {s : Text} (p : ProgramTree) (h : (tokenize s).2 = none)
    (hp : p.tokens = (tokenize s).1) (path : Option Path) : parse s path = ⟨p.items path, []⟩ :=
  parse_iff.mpr ⟨h, hp ▸ p.derives path⟩

/-- A source that is read without a report has a tree. -/
theorem exists_tree {s : Text} {path : Option Path} (h : (parse s path).diagnostics = []) :
    (tokenize s).2 = none ∧ ∃ p : ProgramTree, p.tokens = (tokenize s).1 := by
  have hparse : parse s path = ⟨(parse s path).items, []⟩ := by rw [← h]
  obtain ⟨hlex, hder⟩ := parse_iff.mp hparse
  exact ⟨hlex, hder.tree (endsInput_tokenize hlex)⟩

/-- Reading a source that is scanned without a fault reports nothing exactly when its tokens have a
tree. The tree is then the only one, and the items are those of the tree. -/
theorem parse_iff_tree {s : Text} {path : Option Path} (h : (tokenize s).2 = none) :
    ((parse s path).diagnostics = [] ↔ ∃ p : ProgramTree, p.tokens = (tokenize s).1) ∧
      ∀ p : ProgramTree, p.tokens = (tokenize s).1 →
        (parse s path).items = p.items path ∧
          ∀ p' : ProgramTree, p'.tokens = (tokenize s).1 → p' = p := by
  refine ⟨⟨fun hdiag => (exists_tree hdiag).2, fun ⟨p, hp⟩ => ?_⟩, fun p hp => ⟨?_, ?_⟩⟩
  · rw [p.parse_eq h hp]
  · rw [p.parse_eq h hp]
  · exact fun p' hp' => ProgramTree.eq_of_tokens_eq (hp'.trans hp.symm)

/-- A modifier over a line break, a strand with an alternative, blank lines and a comment. -/
theorem parse_iff_tree_layout : (tokenize "(/\n+_1|)\n\n\nx = # c").2 = none ∧
    (parse "(/\n+_1|)\n\n\nx = # c" none).diagnostics = [] ∧
    ∃ p : ProgramTree, p.tokens = (tokenize "(/\n+_1|)\n\n\nx = # c").1 ∧
      (parse "(/\n+_1|)\n\n\nx = # c" none).items = p.items none ∧
      ∀ p' : ProgramTree, p'.tokens = (tokenize "(/\n+_1|)\n\n\nx = # c").1 → p' = p := by
  have hlex : (tokenize "(/\n+_1|)\n\n\nx = # c").2 = none := by decide +kernel
  have hdiag : (parse "(/\n+_1|)\n\n\nx = # c" none).diagnostics = [] := by decide +kernel
  obtain ⟨hiff, hunique⟩ := @parse_iff_tree _ none hlex
  obtain ⟨p, hp⟩ := hiff.mp hdiag
  exact ⟨hlex, hdiag, p, hp, hunique p hp⟩

end GlyphFormat
