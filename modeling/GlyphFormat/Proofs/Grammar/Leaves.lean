import GlyphFormat.Proofs.Grammar.Atoms
import GlyphFormat.Proofs.Grammar.Items
import GlyphFormat.Proofs.Grammar.ProgramTree
import GlyphFormat.Proofs.Tree.Outlines
import Mathlib.Data.List.Basic

/-!
# Leaves of outlines

From left to right the leaves of a source's outline are the tokens of the source that carry content,
each with its canonical text and its own span (`leaves_parse`). What an outline has between its
leaves, labels and levels, comes from the other tokens, and none of those shows as a leaf.

The leaves of a tree are told from its words and items first (`leavesAll_ofItems`), and those of a
source's items from its tokens, line by line.
-/

namespace GlyphFormat

/-! ## Leaves of trees -/

namespace Outline

mutual

/-- The leaves of an outline from left to right. -/
def leaves : Outline → List Outline
  | .node _ os => leavesAll os
  | .leaf kind t span => [.leaf kind t span]

def leavesAll : List Outline → List Outline
  | [] => []
  | o :: os => o.leaves ++ leavesAll os

end

end Outline

/-- The leaf that a word without parts shows as. -/
def Word.toLeaf? (w : Word) : Option Outline :=
  if w.isAtom then (Outline.ofWord w).toOption else none

theorem Word.toLeaf?_of_not_isAtom (w : Word) (hw : w.isAtom = false) : w.toLeaf? = none := by
  rw [toLeaf?, hw]
  rfl

/-- The leaves that an item shows as. -/
def Item.toLeaves : Item → List Outline
  | .words ws _ => (Word.preorderAll ws).filterMap Word.toLeaf?
  | .binding name ws nameSpan _ =>
    .leaf .ident name nameSpan :: (Word.preorderAll ws).filterMap Word.toLeaf?
  | .comment t span => [.leaf .comment t span]
  | _ => []

namespace Outline

mutual

/-- The leaves of a word's outline are the words without parts in it. By recursion on the word. -/
theorem leaves_ofWord : (w : Word) → {o : Outline} → ofWord w = .ok o →
    o.leaves = w.preorder.filterMap Word.toLeaf?
  | .number _ _, o, h | .char _ _, o, h | .string _ _, o, h | .ident _ _, o, h
  | .prim _ _, o, h => by
      obtain rfl := Except.ok.inj h
      rfl
  | .selector s span, o, h => by
      have hleaf : Word.toLeaf? (.selector s span) = some o := by
        rw [Word.toLeaf?, h]
        rfl
      rw [show (Word.selector s span).preorder = [.selector s span] from rfl,
        List.filterMap_cons_some hleaf]
      rw [ofWord] at h
      cases ht : s.toText? with
      | none => rw [ht] at h; cases h
      | some t =>
          rw [ht] at h
          obtain rfl := Except.ok.inj h
          rfl
  | .missing, o, h => nomatch h
  | .strand ws _, o, h | .array ws _, o, h | .func ws _, o, h => by
      rw [ofWord] at h
      obtain ⟨os, hos, rfl⟩ := bind_return_eq_ok_iff.mp h
      rw [leaves, leavesAll_ofWords ws hos, Word.preorder]
      exact (List.filterMap_cons_none (Word.toLeaf?_of_not_isAtom _ rfl)).symm
  | .funcArray bs _, o, h => by
      rw [ofWord] at h
      obtain ⟨os, hos, rfl⟩ := bind_return_eq_ok_iff.mp h
      rw [leaves, leavesAll_ofBodies bs hos, Word.preorder]
      exact (List.filterMap_cons_none (Word.toLeaf?_of_not_isAtom _ rfl)).symm
  | .modified m w _, o, h => by
      rw [ofWord] at h
      obtain ⟨p, q, hp, hq, rfl⟩ := bind_bind_return_eq_ok_iff.mp h
      rw [leaves, leavesAll, leavesAll, leavesAll, leaves_ofWord m hp, leaves_ofWord w hq,
        List.append_nil, ← List.filterMap_append, Word.preorder]
      exact (List.filterMap_cons_none (Word.toLeaf?_of_not_isAtom _ rfl)).symm

theorem leavesAll_ofWords : (ws : List Word) → {os : List Outline} → ofWords ws = .ok os →
    leavesAll os = (Word.preorderAll ws).filterMap Word.toLeaf?
  | [], os, h => by
      obtain rfl := Except.ok.inj h
      rfl
  | w :: ws, os, h => by
      rw [ofWords] at h
      obtain ⟨p, ps, hp, hps, rfl⟩ := bind_bind_return_eq_ok_iff.mp h
      rw [leavesAll, leaves_ofWord w hp, leavesAll_ofWords ws hps, ← List.filterMap_append]
      rfl

theorem leavesAll_ofBodies : (bs : List (List Word)) → {os : List Outline} →
    ofBodies bs = .ok os → leavesAll os = (Word.preorderBodies bs).filterMap Word.toLeaf?
  | [], os, h => by
      obtain rfl := Except.ok.inj h
      rfl
  | b :: bs, os, h => by
      rw [ofBodies] at h
      obtain ⟨ps, qs, hps, hqs, rfl⟩ := bind_bind_return_eq_ok_iff.mp h
      rw [leavesAll, leaves, leavesAll_ofWords b hps, leavesAll_ofBodies bs hqs,
        ← List.filterMap_append]
      rfl

end

theorem leaves_ofItem {i : Item} {o : Outline} (h : ofItem i = .ok o) : o.leaves = i.toLeaves := by
  cases i with
  | words ws _ | binding _ ws _ _ =>
      rw [ofItem] at h
      obtain ⟨os, hos, rfl⟩ := bind_return_eq_ok_iff.mp h
      simp [leaves, leavesAll, leavesAll_ofWords ws hos, Item.toLeaves]
  | comment _ _ | newlines _ =>
      obtain rfl := Except.ok.inj h
      rfl
  | missing => cases h

theorem leavesAll_ofItems {is : List Item} {os : List Outline} (h : ofItems is = .ok os) :
    leavesAll os = is.flatMap Item.toLeaves := by
  induction is generalizing os with
  | nil =>
      obtain rfl := Except.ok.inj h
      rfl
  | cons i is ih =>
      rw [ofItems] at h
      obtain ⟨p, ps, hp, hps, rfl⟩ := bind_bind_return_eq_ok_iff.mp h
      rw [leavesAll, leaves_ofItem hp, ih hps, List.flatMap_cons]

end Outline

/-! ## Leaves and tokens -/

/-- The text that stands for a lexeme in an outline, if it has content. -/
def Lexeme.leafText? : Lexeme → Option Text
  | .number x => some x.format
  | .char t => some (quoteChar t)
  | .string t => some (quoteString t)
  | .ident name => some name
  | .selector letters => some (CodePoint.ofChar ':' :: letters)
  | .primitive p => some p.name
  | .comment t => some t
  | _ => none

/-- The leaf that a token shows as: its kind, its text and its place. -/
def Token.toLeaf? (path : Option Path) (t : Token) : Option Outline :=
  t.lexeme.leafText?.map fun text => .leaf t.kind text (some (t.span path))

variable (path : Option Path)

/-- A token shows as the word that it is by itself. -/
theorem Token.toLeaf?_eq {t : Token} (ht : t.lexeme.comment? = none) :
    t.toLeaf? path = (t.atom? path).bind Word.toLeaf? := by
  unfold toLeaf? atom? kind
  cases hl : t.lexeme with
  | selector letters =>
      simp [Lexeme.leafText?, Lexeme.kind, Word.toLeaf?, Word.isAtom, Outline.ofWord,
        Selector.toText?, Selector.characters?_ofLetters, Except.toOption]
  | comment text =>
      rw [hl] at ht
      cases ht
  | _ => rfl

theorem Derivation.leaves {part : Part} (d : Derivation part false) :
    (part.allWords (d.value path)).filterMap Word.toLeaf? =
      d.tokens.filterMap (Token.toLeaf? path) := by
  rw [d.filterMap_allWords Word.toLeaf?_of_not_isAtom path fun _ => rfl]
  refine List.filterMap_congr fun t ht => (Token.toLeaf?_eq path ?_).symm
  exact Lexeme.comment?_of_inWords ((d.derives none).inWords t ht)

theorem StatementTree.leaves (s : StatementTree) :
    (s.item path).toLeaves = s.tokens.filterMap (Token.toLeaf? path) := by
  cases s with
  | binding t e name ht he ws =>
      have hname : t.toLeaf? path = some (.leaf .ident name (some (t.span path))) := by
        rw [Token.toLeaf?, Token.kind, ht]
        rfl
      have hmark : e.toLeaf? path = none := by
        rw [Token.toLeaf?, he]
        rfl
      rw [tokens, List.filterMap_cons_some hname, List.filterMap_cons_none hmark, ← ws.leaves]
      rfl
  | words w ws =>
      rw [tokens, List.filterMap_append, ← w.leaves, ← ws.leaves, ← List.filterMap_append]
      rfl

theorem LineTree.leaves (l : LineTree) :
    (l.items path).flatMap Item.toLeaves = l.tokens.filterMap (Token.toLeaf? path) := by
  have hcomment : ∀ {t : Token} {text : Text}, t.lexeme = .comment text →
      [t].filterMap (Token.toLeaf? path) = [.leaf .comment text (some (t.span path))] := by
    intro t text ht
    refine List.filterMap_cons_some ?_
    rw [Token.toLeaf?, Token.kind, ht]
    rfl
  cases l with
  | comment t text ht => exact (hcomment ht).symm
  | statement s => rw [items, List.flatMap_singleton, tokens, s.leaves]
  | commented s t text ht =>
      rw [items, List.flatMap_cons, List.flatMap_singleton, tokens, List.filterMap_append,
        hcomment ht, s.leaves]
      rfl

/-- Line breaks have no leaves, and no more have runs of blank rows. -/
theorem Row.leaves (behindLine : Bool) (rows : List Row) (last : Option LineTree) :
    (items path behindLine rows last).flatMap Item.toLeaves =
      (rows.flatMap tokens ++ LineTree.tokens? last).filterMap (Token.toLeaf? path) := by
  induction rows generalizing behindLine with
  | nil =>
      cases last with
      | none => rfl
      | some l => exact l.leaves path
  | cons r rows ih =>
      obtain ⟨line, stop, hstop⟩ := r
      have hstopped : [stop].filterMap (Token.toLeaf? path) = [] := by
        refine List.filterMap_cons_none ?_
        rw [Token.toLeaf?, hstop]
        rfl
      rw [List.flatMap_cons, tokens, List.append_assoc, List.append_assoc, List.filterMap_append,
        List.filterMap_append, hstopped, List.nil_append]
      cases line with
      | none =>
          rw [items, List.flatMap_append, ih]
          split <;> rfl
      | some l =>
          rw [items, List.flatMap_append, l.leaves, ih]
          rfl

theorem ProgramTree.leaves (p : ProgramTree) :
    (p.items path).flatMap Item.toLeaves = p.tokens.filterMap (Token.toLeaf? path) := by
  have hstop : [p.stop].filterMap (Token.toLeaf? path) = [] := by
    refine List.filterMap_cons_none ?_
    rw [Token.toLeaf?, p.atEnd]
    rfl
  rw [items, Row.leaves, tokens, ← List.append_assoc]
  conv_rhs => rw [List.filterMap_append, hstop, List.append_nil]

/-- A source that is read without a report has an outline, whose leaves from left to right are the
tokens of the source that carry content, in their order and at their places. -/
theorem leaves_parse {s : Text} {path : Option Path} (h : (parse s path).diagnostics = []) :
    ∃ o, Outline.ofProgram (parse s path).items = .ok o ∧
      o.leaves = (tokenize s).1.filterMap (Token.toLeaf? path) := by
  obtain ⟨o, ho⟩ := (wellFormed_of_parse h).exists_outline
  obtain ⟨os, hos, rfl⟩ := Outline.bind_return_eq_ok_iff.mp ho
  obtain ⟨hlex, p, hp⟩ := exists_tree h
  refine ⟨_, ho, ?_⟩
  rw [p.parse_eq hlex hp] at hos
  rw [Outline.leaves, Outline.leavesAll_ofItems hos, p.leaves, hp]

/-- A modifier of a modifier, a strand, alternatives over a line break, a selector and a comment. -/
theorem leaves_parse_mixed :
    (parse "x = /fold +_1.50\n\n(:ba x|\n'a') # c" none).diagnostics = [] ∧
      ∃ o, Outline.ofProgram (parse "x = /fold +_1.50\n\n(:ba x|\n'a') # c" none).items = .ok o ∧
        o.leaves = (tokenize "x = /fold +_1.50\n\n(:ba x|\n'a') # c").1.filterMap
          (Token.toLeaf? none) := by
  have hdiag : (parse "x = /fold +_1.50\n\n(:ba x|\n'a') # c" none).diagnostics = [] := by
    decide +kernel
  exact ⟨hdiag, leaves_parse hdiag⟩

end GlyphFormat
