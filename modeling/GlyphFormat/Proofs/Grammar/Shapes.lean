import GlyphFormat.Proofs.Grammar.Items
import GlyphFormat.Proofs.Grammar.LogicalLines

/-!
# The shapes of what is read

Every item that reading gives is well formed, whatever it reports (`shapes_parse`): an item comes
from a line that fits the grammar, made of tokens that the scanner found. If nothing is reported,
blank lines stand between other items only, and a comment that trails code is the next item behind
it.
-/

namespace GlyphFormat

open Cursor (depthAfter)

variable {s : Text} {path : Option Path}

/-! ## Lines that fit -/

/-- The items of lines are well formed if the tokens are valid: those of a line that fits are, and
another line has none. -/
theorem Judged.wellFormed {ls : List (List Token)} {ds : List Diagnostic} {is : List Item}
    (h : Judged path ls ds is) (hls : TokensValid ls.flatten) : ∀ i ∈ is, i.WellFormed := by
  induction h with
  | done => exact fun i hi => absurd hi List.not_mem_nil
  | blank _ ih => exact ih hls.append.2
  | malformed _ _ _ _ _ _ ih => exact ih hls.append.2
  | fits hl _ ih =>
      obtain ⟨hline, hrest⟩ := hls.append
      have hitems := (hl.wellFormed hline.append.1).2
      exact List.forall_mem_append.mpr ⟨fun i hi => (hitems i hi).1, ih hrest⟩

theorem wellFormed_of_mem_parse {i : Item} (hi : i ∈ (parse s path).items) : i.WellFormed := by
  cases hlex : (tokenize s).2 with
  | some e =>
      rw [parse_of_fault hlex] at hi
      cases hi
  | none =>
      cases hblank : i.isNewlines with
      | true =>
          cases i with
          | newlines span => trivial
          | _ => cases hblank
      | false =>
          have hjudged : Judged path (logicalLines depthAfter 0 (tokenize s).1)
              (parse s path).diagnostics ((parse s path).items.filter (!·.isNewlines)) := by
            rw [parse_of_tokens hlex]
            exact Cursor.judged_lines (c := Cursor.ofTokens path (tokenize s).1) rfl
              (endsInput_tokenize hlex)
          refine hjudged.wellFormed ?_ i (List.mem_filter.mpr ⟨hi, by rw [hblank]; rfl⟩)
          rw [flatten_logicalLines]
          exact tokensValid_of_tokenize hlex

/-! ## Comments behind code -/

/-- Where the code of an item ends. -/
def Item.codeStop? : Item → Option Position
  | .words _ span | .binding _ _ _ span => span.map (·.stop)
  | _ => none

section

variable {before after : List Token} {u t : Token} {text : Text}

theorem StatementTree.codeStop?_item {st : StatementTree} (h : st.tokens = before ++ [u]) :
    (st.item path).codeStop? = some u.stop := by
  have hstop : (Token.spanOver path st.tokens).stop = u.stop := by
    rw [h, Token.spanOver, List.getLast?_concat]
    rfl
  cases st with
  | binding _ _ _ _ _ _ => exact congrArg some hstop
  | words _ _ => exact congrArg some hstop

/-- Two neighbours of a list stand in front of its last element, or the second one is the last. -/
theorem Token.neighbours_concat {ts : List Token} {last : Token}
    (h : ts ++ [last] = before ++ u :: t :: after) :
    (ts = before ++ [u] ∧ last = t) ∨ ∃ more, ts = before ++ u :: t :: more := by
  rcases List.eq_nil_or_concat after with rfl | ⟨more, last', rfl⟩
  · have hsplit : ts ++ [last] = (before ++ [u]) ++ [t] := by simpa using h
    obtain ⟨hts, hlast⟩ := List.append_inj' hsplit rfl
    exact .inl ⟨hts, List.singleton_inj.mp hlast⟩
  · have hsplit : ts ++ [last] = (before ++ u :: t :: more) ++ [last'] := by simpa using h
    exact .inr ⟨more, (List.append_inj' hsplit rfl).1⟩

/-- A comment behind another token of its line is the comment of a statement which that token
ends. -/
theorem LineTree.exists_commented {l : Option LineTree} {stop : Token} (hstop : stop.EndsLine)
    (ht : t.lexeme = .comment text) (h : tokens? l ++ [stop] = before ++ u :: t :: after) :
    ∃ st, l = some (.commented st t text ht) ∧ st.tokens = before ++ [u] := by
  have hstatement : ∀ (st : StatementTree) (more : List Token),
      st.tokens ≠ before ++ u :: t :: more := fun st more heq => by
    have hnone := st.comment?_eq_none t (by rw [heq]; simp)
    rw [ht] at hnone
    cases hnone
  rcases Token.neighbours_concat h with ⟨-, rfl⟩ | ⟨more, hline⟩
  · exact absurd ht (hstop.not_comment text)
  match l with
  | none => simp [tokens?] at hline
  | some (.comment c text' hc) =>
      have hlen := congrArg List.length hline
      simp [tokens?, tokens] at hlen
      omega
  | some (.statement st) => exact absurd hline (hstatement st more)
  | some (.commented st c text' hc) =>
      replace hline : st.tokens ++ [c] = before ++ u :: t :: more := hline
      rcases Token.neighbours_concat hline with ⟨htokens, rfl⟩ | ⟨more, hst⟩
      · obtain rfl := Lexeme.comment.inj (hc.symm.trans ht)
        exact ⟨st, rfl, htokens⟩
      · exact absurd hst (hstatement st more)

/-- The items of a line with a comment are a piece of all items. -/
def Item.Trails (items : List Item) (stop : Position) (comment : Item) : Prop :=
  ∃ front code back, items = front ++ code :: comment :: back ∧ code.codeStop? = some stop

theorem Item.Trails.behind {items : List Item} {stop : Position} {comment : Item}
    (h : Trails items stop comment) (front : List Item) : Trails (front ++ items) stop comment := by
  obtain ⟨more, code, back, rfl, hcode⟩ := h
  exact ⟨front ++ more, code, back, (List.append_assoc ..).symm, hcode⟩

theorem LineTree.trails {st : StatementTree} (ht : t.lexeme = .comment text)
    (h : st.tokens = before ++ [u]) (back : List Item) :
    Item.Trails (items path (.commented st t text ht) ++ back) u.stop
      (.comment text (t.span path)) :=
  ⟨[], st.item path, back, rfl, st.codeStop?_item h⟩

/-- By induction on the rows: the two tokens stand in the first row or behind it. No row ends
between them, since the first one is no line break. -/
theorem Row.trails {rows : List Row} {last : Option LineTree} {stop : Token}
    (hstop : stop.EndsLine) (ht : t.lexeme = .comment text) (hu : u.lexeme ≠ .newline)
    (behindLine : Bool) (h : rows.flatMap tokens ++ (LineTree.tokens? last ++ [stop]) =
      before ++ u :: t :: after) :
    Item.Trails (items path behindLine rows last) u.stop (.comment text (t.span path)) := by
  induction rows generalizing before behindLine with
  | nil =>
      obtain ⟨st, rfl, htokens⟩ := LineTree.exists_commented hstop ht h
      have htrails : Item.Trails (LineTree.items path (.commented st t text ht) ++ []) u.stop
          (.comment text (t.span path)) := LineTree.trails ht htokens []
      rwa [List.append_nil] at htrails
  | cons r rows ih =>
      have hrest : ∀ before : List Token, rows.flatMap tokens ++
          (LineTree.tokens? last ++ [stop]) = before ++ u :: t :: after →
          Item.Trails (items path behindLine (r :: rows) last) u.stop
            (.comment text (t.span path)) := fun before hbehind => by
        obtain ⟨line, newline, hnewline⟩ := r
        cases line with
        | some l => exact (ih true hbehind).behind (l.items path)
        | none => exact (ih false hbehind).behind _
      rw [List.flatMap_cons, List.append_assoc] at h
      rcases List.append_eq_append_iff.mp h with ⟨more, -, hbehind⟩ | ⟨more, hrow, hbehind⟩
      · exact hrest more hbehind
      · match more, hbehind with
        | [], hbehind => exact hrest [] hbehind.symm
        | [v], hbehind =>
            obtain ⟨rfl, -⟩ := List.cons.inj hbehind
            obtain rfl := List.singleton_inj.mp (List.append_inj' hrow rfl).2
            exact absurd r.newline hu
        | v :: w :: more, hbehind =>
            obtain ⟨rfl, htail⟩ := List.cons.inj hbehind
            obtain ⟨rfl, -⟩ := List.cons.inj htail
            obtain ⟨st, hline, htokens⟩ := LineTree.exists_commented (.inl r.newline) ht hrow
            obtain ⟨line, newline, hnewline⟩ := r
            obtain rfl : line = _ := hline
            exact LineTree.trails ht htokens _

end

/-- Reading gives well-formed items, also where it reports something. Where it reports nothing,
blank lines stand between other items, and a comment behind code is the next item behind that
code. -/
theorem shapes_parse (s : Text) (path : Option Path) :
    (∀ i ∈ (parse s path).items, i.WellFormed) ∧
      ((parse s path).diagnostics = [] →
        WellFormedItems (parse s path).items ∧
          ∀ before u t after text, (tokenize s).1 = before ++ u :: t :: after →
            t.lexeme = .comment text → u.lexeme ≠ .newline →
            Item.Trails (parse s path).items u.stop (.comment text (t.span path))) := by
  refine ⟨fun i => wellFormed_of_mem_parse, fun hdiag => ⟨wellFormed_of_parse hdiag, ?_⟩⟩
  intro before u t after text htokens ht hu
  obtain ⟨hlex, p, hp⟩ := exists_tree hdiag
  rw [p.parse_eq hlex hp]
  exact Row.trails (.inr p.atEnd) ht hu false (hp.trans htokens)

/-- A comment behind a binding, in front of blank lines. -/
theorem shapes_parse_trailing :
    WellFormedItems (parse "x = y # c\n\n\nz" none).items ∧
      Item.Trails (parse "x = y # c\n\n\nz" none).items ⟨1, 6⟩
        (.comment "c" (some ⟨none, ⟨1, 7⟩, ⟨1, 10⟩⟩)) := by
  have hdiag : (parse "x = y # c\n\n\nz" none).diagnostics = [] := by decide +kernel
  have htokens : (tokenize "x = y # c\n\n\nz").1 =
      [⟨.ident "x", ⟨1, 1⟩, ⟨1, 2⟩⟩, ⟨.assign, ⟨1, 3⟩, ⟨1, 4⟩⟩] ++
        ⟨.ident "y", ⟨1, 5⟩, ⟨1, 6⟩⟩ :: ⟨.comment "c", ⟨1, 7⟩, ⟨1, 10⟩⟩ ::
          (tokenize "x = y # c\n\n\nz").1.drop 4 := by decide +kernel
  obtain ⟨hitems, htrails⟩ := (shapes_parse "x = y # c\n\n\nz" none).2 hdiag
  exact ⟨hitems, htrails _ _ _ _ _ htokens rfl nofun⟩

end GlyphFormat
