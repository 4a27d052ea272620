import GlyphFormat.Proofs.Grammar.Relaid
import GlyphFormat.Proofs.Grammar.Spans
import GlyphFormat.Proofs.Token.Fragments

/-!
# Fragments read alone

The span of an item or of a word denotes it. The part of the source that the span of an item marks
is read as that item, and what the span of a word marks, in brackets, as an array of that word. Only
a modifier is no word when it stands alone.

A fragment spells the lexemes of its tokens, and these make up the same tree outside the source.
Brackets do not matter to that, since inside brackets more line breaks are allowed than outside
(`Derivation.enclose`).
-/

namespace GlyphFormat

/-! ## Trees in other surroundings -/

theorem Gap.enclose {inside : Bool} {g : List Token} (h : Gap inside g) : Gap true g :=
  ⟨h.1, nofun⟩

/-- Line breaks may stand at the end of the part. -/
def Part.endsInGap : Part → Bool → Bool
  | .words, inside => inside
  | .bodies, _ => true
  | _, _ => false

namespace Derivation

variable {part : Part} {inside leads : Bool} {path : Option Path}

/-- The same tree inside brackets. -/
def enclose {part : Part} {inside : Bool} : Derivation part inside → Derivation part true
  | .noWords g hg => .noWords g hg.enclose
  | .moreWords g hg w ws => .moreWords g hg.enclose w.enclose ws.enclose
  | .modified t ht g hg w => .modified t ht g hg.enclose w.enclose
  | .strand w ws => .strand w.enclose ws.enclose
  | .noMembers => .noMembers
  | .moreMembers t ht g hg w ws => .moreMembers t ht g hg.enclose w.enclose ws.enclose
  | .atom t ht hm => .atom t ht hm
  | .array o ho ws t ht => .array o ho ws t ht
  | .func o ho b bs t ht => .func o ho b bs t ht
  | .noBodies => .noBodies
  | .moreBodies t ht b bs => .moreBodies t ht b.enclose bs.enclose

theorem tokens_enclose (d : Derivation part inside) : d.enclose.tokens = d.tokens := by
  induction d <;> simp_all [enclose, tokens]

theorem value_enclose (path : Option Path) (d : Derivation part inside) :
    d.enclose.value path = d.value path := by
  induction d with
  | noWords | noMembers | atom | array | func | noBodies => rfl
  | moreWords g hg w ws ihw ihws | moreMembers t ht g hg w ws ihw ihws
  | moreBodies t ht w ws ihw ihws => exact congrArg₂ List.cons ihw ihws
  | modified t ht g hg w ih =>
      exact congrArg₂ (fun v ts => Word.modified (t.leaf path) v
        (Token.spanOver path (t :: (g ++ ts)))) ih w.tokens_enclose
  | strand w ws ihw ihws =>
      rw [enclose, value, value, tokens_enclose, tokens_enclose]
      exact congrArg₂ (joined · · _) ihw ihws

/-- Outside brackets no line break ends words, and nowhere one ends a word. -/
theorem last_ne_newline (d : Derivation part inside) {t : Token}
    (hpart : part.endsInGap inside = false)
    (ht : d.tokens.getLast? = some t) : t.lexeme ≠ .newline := by
  have hmark : ∀ {u : Token} {l : Lexeme}, u.lexeme = l → l ≠ .newline → u.lexeme ≠ .newline :=
    fun hu hl => hu ▸ hl
  -- the whole ends as its last part does, if that part is not empty
  have hword : ∀ (us : List Token) {vs : List Token}, (us ++ vs).getLast? = some t → vs ≠ [] →
      vs.getLast? = some t := fun us vs h hne => by
    rw [List.getLast?_append, Option.or_eq_some_iff] at h
    exact h.resolve_right fun hnil => hne (List.getLast?_eq_none_iff.mp hnil.1)
  have hbracket : ∀ (us : List Token) {u : Token}, (us ++ [u]).getLast? = some t → u = t :=
    fun us u h => Option.some.inj (hword us h (List.cons_ne_nil _ _))
  induction d with
  | noWords g hg =>
      rw [tokens, hg.2 hpart] at ht
      cases ht
  | moreWords g hg w ws ihw ihws =>
      rw [tokens, ← List.append_assoc, List.getLast?_append, Option.or_eq_some_iff] at ht
      rcases ht with ht | ⟨-, ht⟩
      · exact ihws hpart ht
      · exact ihw rfl (hword _ ht w.word_ne_nil)
  | modified u hu g hg w ih =>
      exact ih rfl (hword (u :: g) ht w.word_ne_nil)
  | strand w ws ihw ihws =>
      rw [tokens, List.getLast?_append, Option.or_eq_some_iff] at ht
      rcases ht with ht | ⟨-, ht⟩
      · exact ihws rfl ht
      · exact ihw rfl ht
  | noMembers => cases ht
  | moreMembers u hu g hg w ws ihw ihws =>
      replace ht : ((u :: g) ++ (w.tokens ++ ws.tokens)).getLast? = some t := ht
      rw [← List.append_assoc, List.getLast?_append, Option.or_eq_some_iff] at ht
      rcases ht with ht | ⟨-, ht⟩
      · exact ihws rfl ht
      · exact ihw rfl (hword _ ht w.term_ne_nil)
  | atom u hu hm =>
      obtain rfl : u = t := Option.some.inj ht
      intro hl
      rw [hl] at hu
      cases hu
  | array o ho ws u hu ih =>
      exact hbracket (o :: ws.tokens) ht ▸ hmark hu (by simp)
  | func o ho b bs u hu ihb ihbs =>
      refine hbracket (o :: (b.tokens ++ bs.tokens)) ?_ ▸ hmark hu (by simp)
      rw [← ht, tokens, List.cons_append, List.append_assoc]
  | noBodies | moreBodies u hu b bs ihb ihbs => cases hpart

end Derivation

theorem Token.isModifier_leaf (path : Option Path) (t : Token) :
    (t.leaf path).isModifier = t.lexeme.isModifier := by
  unfold leaf atom?
  cases t.lexeme <;> rfl

/-- A word that is no modifier may stand alone between brackets. -/
theorem Word.Built.exists_enclosed {path : Option Path} {w : Word} {ts : List Token}
    (h : w.Built path ts) (hw : w.isModifier = false) :
    ∃ d : Derivation .word true, d.tokens = ts ∧ d.value path = w := by
  cases h with
  | word d => exact ⟨d.enclose, d.tokens_enclose, d.value_enclose path⟩
  | term d =>
      cases d with
      | atom t ht hm =>
          have hmodifier : t.lexeme.isModifier = false := (t.isModifier_leaf path).symm.trans hw
          exact ⟨.strand (.atom t ht fun _ => hmodifier) .noMembers, rfl, rfl⟩
      | array o ho ws t ht =>
          exact ⟨.strand (.array o ho ws t ht) .noMembers, List.append_nil _, rfl⟩
      | func o ho b bs t ht =>
          exact ⟨.strand (.func o ho b bs t ht) .noMembers, List.append_nil _, rfl⟩

/-! ## Lines of a program -/

namespace LineTree

variable {path : Option Path} {i : Item}

/-- An item of a line has a line of its own. -/
theorem exists_single {l : LineTree} (hi : i ∈ l.items path) :
    ∃ l' : LineTree, l'.tokens <:+: l.tokens ∧ l'.items path = [i] := by
  cases l with
  | comment t text ht =>
      exact ⟨.comment t text ht, List.infix_refl _, by rw [List.mem_singleton.mp hi]; rfl⟩
  | statement s => exact ⟨.statement s, List.infix_refl _, by rw [List.mem_singleton.mp hi]; rfl⟩
  | commented s t text ht =>
      rcases List.mem_cons.mp hi with rfl | hi
      · exact ⟨.statement s, (List.prefix_append _ _).isInfix, rfl⟩
      · refine ⟨.comment t text ht, (List.suffix_append _ _).isInfix, ?_⟩
        rw [List.mem_singleton.mp hi]
        rfl

end LineTree

/-- An item of rows is a run of blank lines or belongs to a line. -/
theorem Row.exists_line {path : Option Path} {i : Item} (hi : i.isNewlines = false)
    (rows : List Row) (last : Option LineTree) (behindLine : Bool)
    (h : i ∈ Row.items path behindLine rows last) :
    ∃ l : LineTree, l.tokens <:+: rows.flatMap Row.tokens ++ LineTree.tokens? last ∧
      i ∈ l.items path := by
  induction rows generalizing behindLine with
  | nil =>
      cases last with
      | none => cases h
      | some l => exact ⟨l, List.infix_refl _, h⟩
  | cons r rows ih =>
      obtain ⟨line, stop, hstop⟩ := r
      have hrest : ∀ {b : Bool}, i ∈ Row.items path b rows last →
          ∃ l : LineTree, l.tokens <:+:
            (⟨line, stop, hstop⟩ :: rows : List Row).flatMap Row.tokens ++ LineTree.tokens? last ∧
            i ∈ l.items path := fun hmem => by
        obtain ⟨l, hl, hil⟩ := ih _ hmem
        refine ⟨l, hl.trans ?_, hil⟩
        rw [List.flatMap_cons, List.append_assoc]
        exact (List.suffix_append _ _).isInfix
      cases line with
      | some l =>
          rcases List.mem_append.mp h with h | h
          · refine ⟨l, ?_, h⟩
            rw [List.flatMap_cons, Row.tokens, List.append_assoc, List.append_assoc]
            exact (List.prefix_append _ _).isInfix
          · exact hrest h
      | none =>
          rcases List.mem_append.mp h with h | h
          · split at h
            · rw [List.mem_singleton.mp h] at hi
              cases hi
            · cases h
          · exact hrest h

theorem ProgramTree.exists_line {path : Option Path} {p : ProgramTree} {i : Item}
    (h : i ∈ p.items path) (hi : i.isNewlines = false) :
    ∃ l : LineTree, l.tokens <:+: p.tokens ∧ l.items path = [i] := by
  obtain ⟨l, hl, hil⟩ := Row.exists_line hi p.rows p.last false h
  obtain ⟨l', hl', hitems⟩ := LineTree.exists_single hil
  refine ⟨l', hl'.trans (hl.trans ?_), hitems⟩
  rw [tokens, ← List.append_assoc]
  exact (List.prefix_append _ _).isInfix

/-- What spells the lexemes of a program with one item is read as that item. -/
theorem ProgramTree.parse_single {u : Text} (path : Option Path) {ls : List Lexeme}
    {p : ProgramTree} {i : Item} (hu : Lexes u ls) (hp : p.lexemes = ls ++ [.endOfInput])
    (hi : p.items path = [i]) : ∃ j, parse u path = ⟨[j], []⟩ ∧ j.alike i = true := by
  obtain ⟨hlex, htokens⟩ := lexes_iff.mp hu
  obtain ⟨q, hq, hstrip⟩ := p.replace path (htokens.trans hp.symm)
  rw [hi] at hstrip
  obtain ⟨j, hj, hji⟩ := List.map_eq_singleton_iff.mp hstrip
  exact ⟨j, by rw [q.parse_eq hlex hq, hj], (Item.alike_iff j i).mpr hji⟩

namespace LineTree

/-- The program of one line. -/
def program (l : LineTree) : ProgramTree := ⟨[], some l, .anywhere .endOfInput, rfl⟩

theorem lexemes_program (l : LineTree) :
    l.program.lexemes = l.tokens.map Token.lexeme ++ [.endOfInput] :=
  l.program.lexemes_eq

/-- A line with one item is a comment or a statement. -/
theorem single {path : Option Path} {l : LineTree} {i : Item} (hi : l.items path = [i]) :
    (∃ t text ht, l = .comment t text ht ∧ i = .comment text (t.span path)) ∨
      ∃ s, l = .statement s ∧ i = s.item path := by
  cases l with
  | comment t text ht => exact .inl ⟨t, text, ht, rfl, (List.cons.inj hi).1.symm⟩
  | statement s => exact .inr ⟨s, rfl, (List.cons.inj hi).1.symm⟩
  | commented s t text ht => cases hi

/-- A line with one item ends in a token of a word, the mark of a binding or a comment. -/
theorem last_ne_newline {path : Option Path} {l : LineTree} {i : Item} {t : Token}
    (hi : l.items path = [i]) (ht : l.tokens.getLast? = some t) : t.lexeme ≠ .newline := by
  rcases single hi with ⟨u, text, hu, rfl, -⟩ | ⟨s, rfl, -⟩
  · obtain rfl : u = t := Option.some.inj ht
    rw [hu]
    exact nofun
  cases s with
  | words w ws => exact (Derivation.moreWords [] .nil w ws).last_ne_newline rfl ht
  | binding u e name hu he ws =>
      replace ht : ([u, e] ++ ws.tokens).getLast? = some t := ht
      rw [List.getLast?_append, Option.or_eq_some_iff] at ht
      rcases ht with ht | ⟨-, ht⟩
      · exact ws.last_ne_newline rfl ht
      · obtain rfl : e = t := Option.some.inj ht
        rw [he]
        exact nofun

end LineTree

/-! ## What spans denote -/

/-- The span runs from the start of the first of some tokens of the source, which stand in a row,
to the stop of the last. -/
structure Span.Covers (s : Text) (path : Option Path) (span : Span) (ts : List Token) : Prop where
  row : ts <:+: (tokenize s).1
  ends : ∃ first last, ts.head? = some first ∧ ts.getLast? = some last ∧
    span = ⟨path, first.start, last.stop⟩

/-- The item is made of the tokens, its span covers these and the spans of its parts, and what the
span marks is read as the item. -/
structure Item.Denoted (s : Text) (path : Option Path) (i : Item) (ts : List Token) (span : Span) :
    Prop where
  derived : DerivesLine path [i] ts
  marked : i.span? = some span
  covers : span.Covers s path ts
  parts : ∃ spans, i.partSpans? = spans.map some ∧ span.Holds spans
  alone : ∃ j, parse (s.slice span.start span.stop) path = ⟨[j], []⟩ ∧ j.alike i = true

/-- The word is made of the tokens, its span covers these and the spans of its children, and what
the span marks is read in brackets as an array of the word, unless the word is a modifier. -/
structure Word.Denoted (s : Text) (path : Option Path) (w : Word) (ts : List Token) (span : Span) :
    Prop where
  derived : ∃ inside, Derives path inside (.word w) ts ∨ Derives path inside (.term w) ts
  marked : w.span? = some span
  covers : span.Covers s path ts
  parts : ∃ spans, w.children.map Word.span? = spans.map some ∧ span.Holds spans
  bracketed : w.isModifier = false →
    ∃ j, parse ("[" ++ s.slice span.start span.stop ++ "]") path = ⟨[j], []⟩ ∧
      j.alike (.words [.array [w] none] none) = true

section Fragment

variable {s : Text} {path : Option Path} {ts : List Token}

theorem tokensApart_row (hrow : ts <:+: (tokenize s).1)
    (hend : ∀ t ∈ ts, t.lexeme ≠ .endOfInput) : TokensApart ts :=
  ⟨(tokens_apart s).sublist hrow.sublist, fun t ht =>
    (tokens_stand (hrow.sublist.subset ht) (hend t ht)).1.le⟩

theorem covers_spanOver (hrow : ts <:+: (tokenize s).1) (hne : ts ≠ []) :
    (Token.spanOver path ts).Covers s path ts := by
  obtain ⟨first, last, hfirst, hlast⟩ := exists_first_last hne
  exact ⟨hrow, first, last, hfirst, hlast, Token.spanOver_eq hfirst hlast⟩

/-- What a span marks spells the lexemes of the tokens that it covers. -/
theorem Span.Covers.lexes {span : Span} (h : span.Covers s path ts) (hlex : (tokenize s).2 = none)
    (hend : ∀ t ∈ ts, t.lexeme ≠ .endOfInput) (hlast : ∀ t ∈ ts.getLast?, t.lexeme ≠ .newline) :
    Lexes (s.slice span.start span.stop) (ts.map Token.lexeme) := by
  obtain ⟨before, after, hrow⟩ := h.row
  obtain ⟨first, last, hf, hl, rfl⟩ := h.ends
  have htokens : (tokenize s).1 = before ++ (ts ++ after) := by rw [← hrow, List.append_assoc]
  exact lexes_slice hlex htokens hf hl (hend last (List.mem_of_mem_getLast? hl)) (hlast last hl)

theorem LineTree.denoted {l : LineTree} {i : Item} (hlex : (tokenize s).2 = none)
    (hrow : l.tokens <:+: (tokenize s).1) (hi : l.items path = [i]) :
    i.Denoted s path l.tokens (Token.spanOver path l.tokens) := by
  have hder : DerivesLine path [i] l.tokens := hi ▸ l.derives path
  obtain ⟨t, us, htokens, -⟩ := l.first
  have hcovers : (Token.spanOver path l.tokens).Covers s path l.tokens :=
    covers_spanOver hrow (by rw [htokens]; exact nofun)
  have hlexes := hcovers.lexes hlex hder.ne_end fun t ht => last_ne_newline hi ht
  refine ⟨hder, ?_, hcovers, ?_, ProgramTree.parse_single path hlexes l.lexemes_program hi⟩
  · rcases single hi with ⟨t, text, ht, rfl, rfl⟩ | ⟨s, rfl, rfl⟩
    · rfl
    · cases s <;> rfl
  · rcases single hi with ⟨t, text, ht, rfl, rfl⟩ | ⟨s, rfl, rfl⟩
    · exact ⟨[], rfl, nofun, .nil⟩
    · exact s.holds (tokensApart_row hrow hder.ne_end)

theorem Lexeme.absorbs_bracket {l : Lexeme} (h : l.inWords = true) : l.absorbs ']' = false := by
  cases l <;> first | rfl | cases h

/-- Lexemes of words stay the same between brackets. -/
theorem Lexes.bracketed {u : Text} {ls : List Lexeme} (h : Lexes u ls)
    (hls : ∀ l ∈ ls, l.inWords = true) :
    Lexes ("[" ++ u ++ "]") (.openSquare :: (ls ++ [.closeSquare])) := by
  refine .lexeme (n := 1) rfl rfl (h.append (.lexeme (n := 1) rfl rfl .done) fun l hl c hc => ?_)
  obtain rfl := Option.some.inj hc
  exact Lexeme.absorbs_bracket (hls l (List.mem_of_mem_getLast? hl))

/-- A word between brackets. -/
def Derivation.bracketed (d : Derivation .word true) : LineTree :=
  .statement (.words
    (.strand (.array (.anywhere .openSquare) rfl (.moreWords [] .nil d (.noWords [] .nil))
      (.anywhere .closeSquare) rfl) .noMembers)
    (.noWords [] .nil))

theorem Derivation.lexemes_bracketed (d : Derivation .word true) : d.bracketed.program.lexemes =
    .openSquare :: (d.tokens.map Token.lexeme ++ [.closeSquare]) ++ [.endOfInput] := by
  rw [LineTree.lexemes_program]
  simp [bracketed, LineTree.tokens, StatementTree.tokens, tokens, Token.anywhere]

theorem Word.Built.denoted {w : Word} (hlex : (tokenize s).2 = none)
    (hrow : ts <:+: (tokenize s).1) (h : w.Built path ts) :
    w.Denoted s path ts (Token.spanOver path ts) := by
  have hwords : ∀ t ∈ ts, t.lexeme.inWords = true := by
    obtain ⟨inside, hd | hd⟩ := h.derives <;> exact hd.inWords
  have hend : ∀ t ∈ ts, t.lexeme ≠ .endOfInput := fun t ht hl => by
    have := hwords t ht
    rw [hl] at this
    cases this
  have hcovers : (Token.spanOver path ts).Covers s path ts := covers_spanOver hrow h.ne_nil
  refine ⟨h.derives, h.span_eq, hcovers, h.holds (tokensApart_row hrow hend), fun hw => ?_⟩
  obtain ⟨d, rfl, rfl⟩ := h.exists_enclosed hw
  have hlexes := (hcovers.lexes hlex hend fun t ht => d.last_ne_newline rfl ht).bracketed
    (List.forall_mem_map.mpr hwords)
  obtain ⟨j, hj, hji⟩ := ProgramTree.parse_single path hlexes d.lexemes_bracketed rfl
  -- the two arrays differ in their spans only
  refine ⟨j, hj, (Item.alike_iff _ _).mpr (((Item.alike_iff _ _).mp hji).trans ?_)⟩
  rfl

end Fragment

/-- Spans denote what they belong to. In a source that is read without a report, the span of every
comment, binding or row of words, and of every word in it, covers its tokens and the spans of its
parts, and what it marks is read as the item, or in brackets as an array of the word. -/
theorem spans_denote {s : Text} {path : Option Path} (h : (parse s path).diagnostics = []) :
    ∀ i ∈ (parse s path).items,
      (i.isNewlines = false → ∃ ts span, i.Denoted s path ts span) ∧
        ∀ w ∈ i.allWords, ∃ ts span, w.Denoted s path ts span := by
  obtain ⟨hlex, p, hp⟩ := exists_tree h
  rw [p.parse_eq hlex hp path]
  intro i hi
  by_cases hnewlines : i.isNewlines = true
  · refine ⟨fun hno => absurd (hno.symm.trans hnewlines) (by decide), fun w hw => ?_⟩
    cases i with
    | newlines span => exact absurd hw List.not_mem_nil
    | _ => cases hnewlines
  obtain ⟨l, hl, hitems⟩ := ProgramTree.exists_line hi (Bool.eq_false_iff.mpr hnewlines)
  rw [hp] at hl
  refine ⟨fun _ => ⟨_, _, LineTree.denoted hlex hl hitems⟩, fun w hw => ?_⟩
  rcases LineTree.single hitems with ⟨t, text, ht, rfl, rfl⟩ | ⟨s, rfl, rfl⟩
  · exact absurd hw List.not_mem_nil
  · obtain ⟨us, hus, hbuilt⟩ := s.built_of_mem hw
    exact ⟨_, _, hbuilt.denoted hlex (hus.trans hl)⟩

/-- A modifier, a strand and an alternative on the two lines of a binding, and a comment behind. -/
theorem spans_denote_nested :
    (parse "x = /+ [1_2\n(a|b)] # c" none).diagnostics = [] ∧
    ∀ i ∈ (parse "x = /+ [1_2\n(a|b)] # c" none).items,
      (i.isNewlines = false → ∃ ts span, i.Denoted "x = /+ [1_2\n(a|b)] # c" none ts span) ∧
        ∀ w ∈ i.allWords, ∃ ts span, w.Denoted "x = /+ [1_2\n(a|b)] # c" none ts span := by
  have h : (parse "x = /+ [1_2\n(a|b)] # c" none).diagnostics = [] := by decide +kernel
  exact ⟨h, spans_denote h⟩

end GlyphFormat
