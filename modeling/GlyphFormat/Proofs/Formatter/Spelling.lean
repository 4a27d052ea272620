import GlyphFormat.Proofs.Formatter.Sources
import GlyphFormat.Proofs.Grammar.Relaid
import GlyphFormat.Proofs.Grammar.Respelled
import GlyphFormat.Proofs.Token.Respelled

/-!
# Spellings and canonical texts

It makes no difference to the canonical text of a source whether a primitive is written with its
glyph or called by its name, as long as no earlier item binds the name (`formatSource_respelled`).

Which names are bound changes from line to line. A name that an item before binds is one that the
lexemes before bind, so every item of the respelled source is like the item it comes from, under the
answers of the items before.
-/

namespace GlyphFormat

variable {bound : Text → Bool}

/-! ## Lexemes -/

/-- Behind lexemes that bind what is bound, spellings agree in canonical form. -/
theorem Lexeme.Respelled.split {done ls ks ms : List Lexeme}
    (hbound : ∀ n, bound n = true → BoundIn done n) (h : Respelled done (ls ++ ks) ms) :
    ∃ ms₁ ms₂, ms = ms₁ ++ ms₂ ∧ ms₁.map (canonical bound) = ls.map (canonical bound) ∧
      Respelled (done ++ ls) ks ms₂ := by
  have hfalse : ∀ {done : List Lexeme} {n : Text}, (∀ n, bound n = true → BoundIn done n) →
      ¬BoundIn done n → bound n = false :=
    fun hbound hn => Bool.eq_false_iff.mpr fun h => hn (hbound _ h)
  induction ls generalizing done ms with
  | nil => exact ⟨[], ms, rfl, rfl, by rwa [List.append_nil]⟩
  | cons l ls ih =>
      have hrest : ∀ {ms : List Lexeme}, Respelled (done ++ [l]) (ls ++ ks) ms →
          ∃ ms₁ ms₂, ms = ms₁ ++ ms₂ ∧ ms₁.map (canonical bound) = ls.map (canonical bound) ∧
            Respelled (done ++ l :: ls) ks ms₂ := fun h => by
        have := ih (fun n hn => (hbound n hn).append [l]) h
        rwa [List.append_assoc] at this
      cases h with
      | kept h =>
          obtain ⟨ms₁, ms₂, rfl, hms, h⟩ := hrest h
          exact ⟨l :: ms₁, ms₂, rfl, by rw [List.map_cons, hms, List.map_cons], h⟩
      | @glyph _ name p _ _ hname hglyph hn _ h =>
          obtain ⟨ms₁, ms₂, rfl, hms, h⟩ := hrest h
          refine ⟨.primitive p :: ms₁, ms₂, rfl, ?_, h⟩
          rw [List.map_cons, hms, List.map_cons,
            canonical_of_unbound (hfalse hbound hn) hname hglyph]
          rfl
      | @name _ p _ _ hglyph hn h =>
          obtain ⟨ms₁, ms₂, rfl, hms, h⟩ := hrest h
          refine ⟨.ident p.name :: ms₁, ms₂, rfl, ?_, h⟩
          rw [List.map_cons, hms, List.map_cons,
            canonical_of_unbound (hfalse hbound hn) p.ofName?_name hglyph]
          rfl

/-- The end of input is spelled in one way. -/
theorem Lexeme.Respelled.ended {done ls ms : List Lexeme} (h : Respelled done ls ms) :
    Respelled done (ls ++ [.endOfInput]) (ms ++ [.endOfInput]) := by
  induction h with
  | nil => exact .kept .nil
  | kept _ ih => exact .kept ih
  | @glyph _ _ _ ls _ hname hglyph hbound hown _ ih =>
      refine .glyph hname hglyph hbound ?_ ih
      cases ls with
      | nil => exact nofun
      | cons l ls => exact hown
  | name hglyph hbound _ ih => exact .name hglyph hbound ih

theorem senses_anywhere {ms : List Lexeme} {ts : List Token}
    (h : ms.map (Lexeme.canonical bound) = (ts.map Token.lexeme).map (Lexeme.canonical bound)) :
    senses bound (ms.map Token.anywhere) = senses bound ts := by
  rw [List.map_map] at h
  rw [senses, List.map_map]
  exact h

/-! ## Lines -/

/-- Words in other spellings. -/
theorem Derivation.exists_respelled (path : Option Path) {part : Part} {inside : Bool}
    (d : Derivation part inside) {done ks ms : List Lexeme}
    (hbound : ∀ n, bound n = true → Lexeme.BoundIn done n)
    (h : Lexeme.Respelled done (d.tokens.map Token.lexeme ++ ks) ms) :
    ∃ (d' : Derivation part inside) (ms' : List Lexeme),
      ms = d'.tokens.map Token.lexeme ++ ms' ∧
      Lexeme.Respelled (done ++ d.tokens.map Token.lexeme) ks ms' ∧
      part.strip (part.canonical bound (d'.value path)) =
        part.strip (part.canonical bound (d.value path)) := by
  obtain ⟨ms₁, ms₂, rfl, hms, hks⟩ := h.split hbound
  obtain ⟨d', hd', hvalue⟩ := d.respelled path (senses_anywhere hms)
  exact ⟨d', ms₂, by rw [hd', Token.map_anywhere], hks, hvalue⟩

namespace StatementTree

/-- A statement in another spelling is like the statement. The name that is bound keeps its
spelling. -/
theorem respelled (path : Option Path) (s : StatementTree) {done ks ms : List Lexeme}
    (hbound : ∀ n, bound n = true → Lexeme.BoundIn done n)
    (h : Lexeme.Respelled done (s.tokens.map Token.lexeme ++ ks) ms) :
    ∃ (s' : StatementTree) (ms' : List Lexeme), ms = s'.tokens.map Token.lexeme ++ ms' ∧
      Lexeme.Respelled (done ++ s.tokens.map Token.lexeme) ks ms' ∧
      (s.item path).LikeUnder bound (s'.item path) := by
  cases s with
  | binding t e name ht he ws =>
      simp only [tokens, List.map_cons, ht, he, List.cons_append] at h ⊢
      cases h with
      | glyph _ _ _ hown _ => exact absurd rfl hown
      | kept h =>
          cases h with
          | kept h =>
              obtain ⟨ws', ms', rfl, hks, hws⟩ := ws.exists_respelled path
                (fun n hn => ((hbound n hn).append _).append _) h
              refine ⟨.binding t e name ht he ws', ms', ?_, ?_, ?_⟩
              · simp only [List.map_cons, ht, he, List.cons_append]
              · simpa only [List.append_assoc, List.cons_append, List.nil_append] using hks
              · exact Item.likeUnder_of_canonical (congrArg (Item.binding name · none none) hws)
  | words w ws =>
      simp only [tokens, List.map_append, List.append_assoc] at h ⊢
      obtain ⟨w', ms₁, rfl, h₁, hw⟩ := w.exists_respelled path hbound h
      obtain ⟨ws', ms₂, rfl, h₂, hws⟩ := ws.exists_respelled path
        (fun n hn => (hbound n hn).append _) h₁
      refine ⟨.words w' ws', ms₂, ?_, by rwa [← List.append_assoc], ?_⟩
      · simp only [List.map_append, List.append_assoc]
      · refine Item.likeUnder_of_canonical ?_
        exact congrArg (Item.words · none) (List.cons_eq_cons.mpr ⟨hw, hws⟩)

end StatementTree

namespace LineTree

/-- A line in another spelling is like the line. -/
theorem respelled (path : Option Path) (l : LineTree) {done ks ms : List Lexeme}
    (hbound : ∀ n, bound n = true → Lexeme.BoundIn done n)
    (h : Lexeme.Respelled done (l.tokens.map Token.lexeme ++ ks) ms) :
    ∃ (l' : LineTree) (ms' : List Lexeme), ms = l'.tokens.map Token.lexeme ++ ms' ∧
      Lexeme.Respelled (done ++ l.tokens.map Token.lexeme) ks ms' ∧
      ∀ is, boundBefore is = bound → AllLike is (l.items path) (l'.items path) := by
  have hcomment : ∀ {done ks ms : List Lexeme} {t : Token} {text : Text},
      t.lexeme = .comment text → Lexeme.Respelled done (t.lexeme :: ks) ms →
        ∃ ms', ms = t.lexeme :: ms' ∧ Lexeme.Respelled (done ++ [t.lexeme]) ks ms' := by
    intro done ks ms t text ht h
    rw [ht] at h ⊢
    cases h with
    | kept h => exact ⟨_, rfl, h⟩
  cases l with
  | comment t text ht =>
      obtain ⟨ms', rfl, hks⟩ := hcomment ht h
      exact ⟨.comment t text ht, ms', rfl, hks, fun is _ => .of_strip rfl is⟩
  | statement s =>
      obtain ⟨s', ms', rfl, hks, hlike⟩ := s.respelled path hbound h
      exact ⟨.statement s', ms', rfl, hks, fun is his => ⟨his ▸ hlike, trivial⟩⟩
  | commented s t text ht =>
      rw [tokens, List.map_append] at h ⊢
      rw [List.append_assoc] at h
      obtain ⟨s', ms', rfl, htail, hlike⟩ := s.respelled path hbound h
      obtain ⟨ms', rfl, hks⟩ := hcomment ht htail
      refine ⟨.commented s' t text ht, ms', ?_, ?_,
        fun is his => ⟨his ▸ hlike, .of_strip rfl _⟩⟩
      · rw [tokens, List.map_append, List.append_assoc]
        rfl
      · rwa [← List.append_assoc]

/-- What the items of a line bind, its lexemes bind as soon as the line has ended. -/
theorem boundIn (path : Option Path) (l : LineTree) {done : List Lexeme}
    (hbalance : Lexeme.balance done = 0) {n : Text} (h : boundBefore (l.items path) n = true) :
    Lexeme.BoundIn (done ++ l.tokens.map Token.lexeme ++ [.newline]) n := by
  have hdepth : Lexeme.balance (done ++ l.tokens.map Token.lexeme) ≤ 0 := by
    rw [Lexeme.balance_append, hbalance, show l.tokens = tokens? (some l) from rfl, balance?]
    exact Int.le_refl 0
  have hstatement : ∀ {s : StatementTree} {ts : List Token}, l.tokens = s.tokens ++ ts →
      (s.item path).binds n = true →
        Lexeme.BoundIn (done ++ l.tokens.map Token.lexeme ++ [.newline]) n := by
    intro s ts hl hn
    cases s with
    | words w ws => cases hn
    | binding t e name ht he ws =>
        obtain rfl : name = n := of_decide_eq_true hn
        have hlexemes : l.tokens.map Token.lexeme =
            .ident name :: .assign :: (ws.tokens ++ ts).map Token.lexeme := by
          rw [hl, StatementTree.tokens, List.cons_append, List.cons_append, List.map_cons,
            List.map_cons, ht, he]
        rw [hlexemes] at hdepth ⊢
        exact ⟨done, _, [], rfl, hdepth⟩
  cases l with
  | comment t text ht => cases h
  | statement s =>
      refine hstatement (List.append_nil _).symm ?_
      simpa [boundBefore, items] using h
  | commented s t text ht =>
      refine hstatement rfl ?_
      simpa [boundBefore, items, Item.binds] using h

end LineTree

/-! ## Programs -/

/-- A program in another spelling is like the program, behind items whose names the lexemes in front
bind. By induction on the rows: with a line both its items and its lexemes get done. -/
theorem ProgramTree.respelled (path : Option Path) (p : ProgramTree) {done ms : List Lexeme}
    {before : List Item} (hbalance : Lexeme.balance done = 0)
    (hbound : ∀ n, boundBefore before n = true → Lexeme.BoundIn done n)
    (h : Lexeme.Respelled done p.lexemes ms) :
    ∃ q : ProgramTree, q.lexemes = ms ∧
      Row.hasLine q.rows q.last = Row.hasLine p.rows p.last ∧
      ∀ behindLine is, boundBefore is = boundBefore before →
        AllLike is (Row.items path behindLine p.rows p.last)
          (Row.items path behindLine q.rows q.last) := by
  obtain ⟨rows, last, stop, hstop⟩ := p
  induction rows generalizing done before ms with
  | nil =>
      rw [lexemes_eq] at h
      cases last with
      | none =>
          cases h with
          | kept h =>
              cases h
              exact ⟨⟨[], none, stop, hstop⟩, lexemes_eq _, rfl, fun _ _ _ => trivial⟩
      | some l =>
          obtain ⟨l', ms', rfl, h', hlike⟩ := l.respelled path hbound h
          cases h' with
          | kept h' =>
              cases h'
              exact ⟨⟨[], some l', stop, hstop⟩, lexemes_eq _, rfl, fun _ => hlike⟩
  | cons r rows ih =>
      obtain ⟨line, newline, hnewline⟩ := r
      replace h : Lexeme.Respelled done
        (cons ⟨line, newline, hnewline⟩ ⟨rows, last, stop, hstop⟩).lexemes ms := h
      rw [lexemes_cons] at h
      cases line with
      | none =>
          cases h with
          | kept h =>
              have hbalance' : Lexeme.balance (done ++ [.newline]) = 0 := by
                rw [Lexeme.balance_append, hbalance]
                rfl
              obtain ⟨q, rfl, hhas, hlike⟩ :=
                ih hbalance' (fun n hn => (hbound n hn).append _) h
              refine ⟨cons ⟨none, newline, hnewline⟩ q, lexemes_blank hnewline q, hhas,
                fun behindLine is his => ?_⟩
              rw [cons, Row.items, Row.items, hhas]
              refine AllLike.append (.of_strip rfl is) (hlike false _ ?_)
              rw [boundBefore_append_all, his]
              funext n
              split <;> exact Bool.or_false _
      | some l =>
          obtain ⟨l', ms', rfl, h', hl⟩ := l.respelled path hbound h
          cases h' with
          | kept h' =>
              have hbalance' : Lexeme.balance
                  (done ++ l.tokens.map Token.lexeme ++ [.newline]) = 0 := by
                rw [Lexeme.balance_append, Lexeme.balance_append, hbalance,
                  show l.tokens = LineTree.tokens? (some l) from rfl, LineTree.balance?]
                rfl
              have hbound' : ∀ n, boundBefore (before ++ l.items path) n = true →
                  Lexeme.BoundIn (done ++ l.tokens.map Token.lexeme ++ [.newline]) n := by
                intro n hn
                rw [boundBefore_append_all, Bool.or_eq_true] at hn
                rcases hn with hn | hn
                · exact ((hbound n hn).append _).append _
                · exact l.boundIn path hbalance hn
              obtain ⟨q, rfl, -, hlike⟩ := ih hbalance' hbound' h'
              refine ⟨cons ⟨some l', newline, hnewline⟩ q, lexemes_cons _ q, rfl,
                fun behindLine is his => ?_⟩
              refine AllLike.append (hl is his) (hlike true _ ?_)
              rw [boundBefore_append_all, his, ← boundBefore_append_all]

/-! ## Sources -/

/-- Glyphs and names for primitives, where no earlier item binds the name, lead to the same
canonical text. -/
theorem formatSource_respelled {s s' t : Text} {path : Option Path}
    (hformat : formatSource s path = .ok t) (h : Respelled [] s s') :
    formatSource s' path = .ok t := by
  obtain ⟨hdiag, hsound, rfl⟩ := formatSource_eq_ok_iff.mp hformat
  obtain ⟨hlex, p, hp⟩ := exists_tree hdiag
  obtain ⟨ms, hms, hre⟩ := h.lexes (lexes_lexemes hlex)
  obtain ⟨hlex', hms'⟩ := lexes_iff.mp hms
  rw [p.parse_eq hlex hp] at hsound ⊢
  have hlexemes : p.lexemes = s.lexemes ++ [.endOfInput] := by
    rw [ProgramTree.lexemes, hp, (lexes_iff.mp (lexes_lexemes hlex)).2]
  have hbound : ∀ n, boundBefore [] n = true → Lexeme.BoundIn [] n := fun _ h => by cases h
  obtain ⟨q, hq, -, hlike⟩ := p.respelled path rfl hbound (hlexemes ▸ hre.ended)
  obtain ⟨r, hr, hstrip⟩ := q.replace path (hms'.trans hq.symm)
  have hitems : AllLike [] (q.items path) (r.items path) := .of_strip hstrip []
  have hrespelled : AllLike [] (p.items path) (q.items path) := hlike false [] rfl
  rw [formatSource_eq_ok_iff, r.parse_eq hlex' hr]
  exact ⟨rfl, hitems.sound rfl (hrespelled.sound rfl hsound),
    (hitems.canonicalText.trans hrespelled.canonicalText).symm⟩

/-- A name on its own right-hand side, a name in a function and the glyph that both became. -/
theorem formatSource_respelled_shadowing :
    formatSource "add=add\nadd(dup|pop)\n# a \n" none = .ok "add = +\nadd(⋅|;)\n# a\n" ∧
      Respelled [] "add=add\nadd(dup|pop)\n# a \n" "add=+\nadd(⋅|pop)\n# a \n" ∧
      formatSource "add=+\nadd(⋅|pop)\n# a \n" none = .ok "add = +\nadd(⋅|;)\n# a\n" ∧
      Respelled [] "add=+\nadd(⋅|pop)\n# a \n" "add= add \nadd( dup |pop)\n# a \n" ∧
      formatSource "add= add \nadd( dup |pop)\n# a \n" none =
        .ok "add = +\nadd(⋅|;)\n# a\n" := by
  have hglyphs : ∃ t : Text, t = "add=+\nadd(⋅|pop)\n# a \n" ∧
      Respelled [] "add=add\nadd(dup|pop)\n# a \n" t :=
    ⟨_, by decide +kernel, .kept (n := 3) rfl <| .kept (n := 1) rfl <|
      .glyph (n := 3) (p := .add) (g := '+') rfl (by decide +kernel) rfl
        (fun h => absurd h.mem.2 (by decide +kernel)) (by decide +kernel) <|
      .kept (n := 1) rfl <| .kept (n := 3) rfl <| .kept (n := 1) rfl <|
      .glyph (n := 3) (p := .dup) (g := '⋅') rfl (by decide +kernel) rfl
        (fun h => absurd h.mem.1 (by decide +kernel)) (by decide +kernel) <|
      .kept (n := 1) rfl <| .kept (n := 3) rfl <| .kept (n := 1) rfl <| .kept (n := 1) rfl <|
      .kept (n := 4) rfl <| .kept (n := 1) rfl .ended⟩
  have hnames : ∃ t : Text, t = "add= add \nadd( dup |pop)\n# a \n" ∧
      Respelled [] "add=+\nadd(⋅|pop)\n# a \n" t :=
    ⟨_, by decide +kernel, .kept (n := 3) rfl <| .kept (n := 1) rfl <|
      .name (n := 1) (p := .add) rfl (fun h => absurd h.mem.2 (by decide +kernel)) <|
      .kept (n := 1) rfl <| .kept (n := 3) rfl <| .kept (n := 1) rfl <|
      .name (n := 1) (p := .dup) rfl (fun h => absurd h.mem.1 (by decide +kernel)) <|
      .kept (n := 1) rfl <| .kept (n := 3) rfl <| .kept (n := 1) rfl <| .kept (n := 1) rfl <|
      .kept (n := 4) rfl <| .kept (n := 1) rfl .ended⟩
  obtain ⟨_, rfl, hglyphs⟩ := hglyphs
  obtain ⟨_, rfl, hnames⟩ := hnames
  have hformat := formatSource_shadowing none
  have hformat' := formatSource_respelled hformat hglyphs
  exact ⟨hformat, hglyphs, hformat', hnames, formatSource_respelled hformat' hnames⟩

end GlyphFormat
