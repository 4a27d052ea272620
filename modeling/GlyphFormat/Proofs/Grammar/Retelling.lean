import GlyphFormat.Proofs.Grammar.ProgramTree
import GlyphFormat.Proofs.Grammar.LogicalLines
import GlyphFormat.Proofs.Token.Breaks

/-!
# Programs told in other tokens

The same program may be told in other tokens: at other places, or with other layout. Whether the
other tokens still have trees for its words is a matter of words. That they then have a tree for the
whole program, with the same items up to their spans, is shown once, for every relation between
tokens that keeps words (`KeepsWords.program`).
-/

namespace GlyphFormat

/-- A relation between tokens that leaves the tokens outside brackets as they are and gives words
for words. -/
structure KeepsWords (path : Option Path) (T : List Token → List Token → Prop) : Prop where
  nil : ∀ {us : List Token}, T [] us → us = []
  cons : ∀ {t : Token} {ts us : List Token}, t.lexeme.nesting = 0 → T (t :: ts) us →
    ∃ u us', us = u :: us' ∧ u.lexeme = t.lexeme ∧ T ts us'
  append : ∀ {ts ts' us : List Token}, Crosses 0 ts 0 → T (ts ++ ts') us →
    ∃ vs vs', us = vs ++ vs' ∧ T ts vs ∧ T ts' vs'
  word : ∀ (d : Derivation .word false) {us : List Token}, T d.tokens us →
    ∃ d' : Derivation .word false, d'.tokens = us ∧
      Word.strip (d'.value path) = Word.strip (d.value path)
  words : ∀ (d : Derivation .words false) {us : List Token}, T d.tokens us →
    ∃ d' : Derivation .words false, d'.tokens = us ∧
      Word.stripAll (d'.value path) = Word.stripAll (d.value path)

namespace KeepsWords

variable {path : Option Path} {T : List Token → List Token → Prop} {us : List Token}

theorem statement (hT : KeepsWords path T) (s : StatementTree) (h : T s.tokens us) :
    ∃ s' : StatementTree, s'.tokens = us ∧ (s'.item path).strip = (s.item path).strip := by
  cases s with
  | binding t e name ht he ws =>
      obtain ⟨t', vs, rfl, ht', h⟩ := hT.cons (by rw [ht]; rfl) h
      obtain ⟨e', vs, rfl, he', h⟩ := hT.cons (by rw [he]; rfl) h
      obtain ⟨ws', rfl, hws⟩ := hT.words ws h
      refine ⟨.binding t' e' name (ht'.trans ht) (he'.trans he) ws', rfl, ?_⟩
      exact congrArg (Item.binding name · none none) hws
  | words w ws =>
      obtain ⟨vs, vs', rfl, hv, hv'⟩ :=
        hT.append ((w.derives path).crosses (Int.le_refl 0) nofun) h
      obtain ⟨w', rfl, hw⟩ := hT.word w hv
      obtain ⟨ws', rfl, hws⟩ := hT.words ws hv'
      refine ⟨.words w' ws', rfl, ?_⟩
      show Item.words (Word.strip (w'.value path) :: Word.stripAll (ws'.value path)) none =
        Item.words (Word.strip (w.value path) :: Word.stripAll (ws.value path)) none
      rw [hw, hws]

theorem line (hT : KeepsWords path T) (l : LineTree) (h : T l.tokens us) :
    ∃ l' : LineTree, l'.tokens = us ∧
      (l'.items path).map Item.strip = (l.items path).map Item.strip := by
  have hcomment : ∀ {t : Token} {text : Text} {us : List Token}, t.lexeme = .comment text →
      T [t] us → ∃ u, us = [u] ∧ u.lexeme = .comment text := by
    intro t text us ht h
    obtain ⟨u, vs, rfl, hu, h⟩ := hT.cons (by rw [ht]; rfl) h
    obtain rfl := hT.nil h
    exact ⟨u, rfl, hu.trans ht⟩
  cases l with
  | comment t text ht =>
      obtain ⟨u, rfl, hu⟩ := hcomment ht h
      exact ⟨.comment u text hu, rfl, rfl⟩
  | statement s =>
      obtain ⟨s', rfl, hs⟩ := hT.statement s h
      exact ⟨.statement s', rfl, by rw [LineTree.items, LineTree.items, List.map_singleton,
        List.map_singleton, hs]⟩
  | commented s t text ht =>
      have hcrosses := (DerivesLine.statement (s.derives path)).crosses
      obtain ⟨vs, vs', rfl, hv, hv'⟩ := hT.append hcrosses h
      obtain ⟨s', rfl, hs⟩ := hT.statement s hv
      obtain ⟨u, rfl, hu⟩ := hcomment ht hv'
      refine ⟨.commented s' u text hu, rfl, ?_⟩
      rw [LineTree.items, LineTree.items, List.map_cons, List.map_cons, hs]
      rfl

/-- A line, or none, in front of other tokens. -/
theorem line? (hT : KeepsWords path T) (l : Option LineTree) {ts : List Token}
    (h : T (LineTree.tokens? l ++ ts) us) :
    ∃ (l' : Option LineTree) (vs : List Token), us = LineTree.tokens? l' ++ vs ∧ T ts vs ∧
      l'.map (fun l => (l.items path).map Item.strip) =
        l.map (fun l => (l.items path).map Item.strip) := by
  cases l with
  | none => exact ⟨none, us, rfl, h, rfl⟩
  | some l =>
      obtain ⟨vs, vs', rfl, hv, hv'⟩ := hT.append (l.derives path).crosses h
      obtain ⟨l', rfl, hl⟩ := hT.line l hv
      exact ⟨some l', vs', rfl, hv', congrArg some hl⟩

theorem rows (hT : KeepsWords path T) (rows : List Row) (last : Option LineTree) {stop : Token}
    (hstop : stop.lexeme = .endOfInput)
    (h : T (rows.flatMap Row.tokens ++ (LineTree.tokens? last ++ [stop])) us) :
    ∃ p : ProgramTree, p.tokens = us ∧ Row.hasLine p.rows p.last = Row.hasLine rows last ∧
      ∀ behindLine, (Row.items path behindLine p.rows p.last).map Item.strip =
        (Row.items path behindLine rows last).map Item.strip := by
  have hsome : ∀ {l l' : Option LineTree}, l'.map (fun l => (l.items path).map Item.strip) =
      l.map (fun l => (l.items path).map Item.strip) → l'.isSome = l.isSome := fun h => by
    rw [← Option.isSome_map, h, Option.isSome_map]
  induction rows generalizing us with
  | nil =>
      obtain ⟨l', vs, rfl, h, hl⟩ := hT.line? last h
      obtain ⟨stop', vs, rfl, hstop', h⟩ := hT.cons (by rw [hstop]; rfl) h
      obtain rfl := hT.nil h
      refine ⟨⟨[], l', stop', hstop'.trans hstop⟩, rfl, hsome hl, fun _ => ?_⟩
      cases last with
      | none =>
          obtain rfl := Option.map_eq_none_iff.mp hl
          rfl
      | some l =>
          obtain ⟨k, rfl, hk⟩ := Option.map_eq_some_iff.mp hl
          exact hk
  | cons r rows ih =>
      obtain ⟨line, newline, hnewline⟩ := r
      simp only [List.flatMap_cons, Row.tokens, List.append_assoc, List.cons_append,
        List.nil_append] at h
      obtain ⟨l', vs, rfl, h, hl⟩ := hT.line? line h
      obtain ⟨newline', vs, rfl, hnewline', h⟩ := hT.cons (by rw [hnewline]; rfl) h
      obtain ⟨p, rfl, hlines, hitems⟩ := ih h
      refine ⟨{ p with rows := ⟨l', newline', hnewline'.trans hnewline⟩ :: p.rows }, ?_, ?_, ?_⟩
      · simp only [ProgramTree.tokens, List.flatMap_cons, Row.tokens, List.append_assoc,
          List.cons_append, List.nil_append]
      · simp only [Row.hasLine, List.any_cons, hsome hl, Bool.or_assoc] at hlines ⊢
        rw [hlines]
      · intro behindLine
        cases line with
        | none =>
            obtain rfl := Option.map_eq_none_iff.mp hl
            simp only [Row.items, hlines, List.map_append, hitems]
            split <;> rfl
        | some l =>
            obtain ⟨k, rfl, hk⟩ := Option.map_eq_some_iff.mp hl
            simp only [Row.items, List.map_append, hitems, hk]

/-- The other tokens tell the same program. -/
theorem program (hT : KeepsWords path T) (p : ProgramTree) (h : T p.tokens us) :
    ∃ p' : ProgramTree, p'.tokens = us ∧
      (p'.items path).map Item.strip = (p.items path).map Item.strip := by
  obtain ⟨p', hp', -, hitems⟩ := hT.rows p.rows p.last p.atEnd h
  exact ⟨p', hp', hitems false⟩

end KeepsWords

end GlyphFormat
