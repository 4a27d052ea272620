import GlyphFormat.Proofs.Grammar.Derivation
import GlyphFormat.Tree.Walk

/-!
# Words without parts

The words of a tree that have no parts are those of its tokens, in order: no arm of the walk over
the tree loses one, meets one twice or makes one up. So what is looked for in such words may be
looked for in the tokens (`Derivation.filterMap_allWords`).
-/

namespace GlyphFormat

/-- The word has no parts. -/
def Word.isAtom : Word → Bool
  | .number _ _ | .char _ _ | .string _ _ | .ident _ _ | .selector _ _ | .prim _ _ => true
  | _ => false

/-- Every word of a part, each before its children. -/
def Part.allWords : (part : Part) → part.Value → List Word
  | .words, ws | .members, ws => Word.preorderAll ws
  | .word, w | .term _, w => w.preorder
  | .bodies, bs => Word.preorderBodies bs

namespace Token

/-- A token that is a word by itself is one without parts. -/
theorem preorder_leaf (path : Option Path) (t : Token) :
    (t.leaf path).preorder = [t.leaf path] := by
  unfold leaf atom?
  cases t.lexeme <;> rfl

theorem atom?_eq_none {t : Token} (path : Option Path) (ht : t.lexeme.isAtom = false) :
    t.atom? path = none := by
  unfold atom?
  cases hl : t.lexeme <;> rw [hl] at ht <;> first | rfl | cases ht

end Token

namespace Derivation

section

variable {β : Type} {f : Word → Option β}

/-- What is looked for in a strand is in its members. -/
theorem filterMap_joined (hf : ∀ w, w.isAtom = false → f w = none) (w : Word) (ws : List Word)
    (span : Span) : (joined w ws span).preorder.filterMap f =
      (w.preorder ++ Word.preorderAll ws).filterMap f := by
  cases ws with
  | nil => rw [joined, Word.preorderAll, List.append_nil]
  | cons v vs => exact List.filterMap_cons_none (hf _ rfl)

/-- What is looked for in a function is in its bodies. -/
theorem filterMap_alternatives (hf : ∀ w, w.isAtom = false → f w = none) (b : List Word)
    (bs : List (List Word)) (span : Span) : (alternatives b bs span).preorder.filterMap f =
      (Word.preorderAll b ++ Word.preorderBodies bs).filterMap f := by
  cases bs with
  | nil =>
      rw [Word.preorderBodies, List.append_nil]
      exact List.filterMap_cons_none (hf _ rfl)
  | cons c cs => exact List.filterMap_cons_none (hf _ rfl)

/-- What is looked for in the words of a tree, but only in those without parts, is found in the
words that tokens are by themselves, in the order of the tokens. -/
theorem filterMap_allWords (hf : ∀ w, w.isAtom = false → f w = none) (path : Option Path)
    {g : Token → Option β} (hg : ∀ t, g t = (t.atom? path).bind f) {part : Part} {inside : Bool}
    (d : Derivation part inside) :
    (part.allWords (d.value path)).filterMap f = d.tokens.filterMap g := by
  have hleaf : ∀ {t : Token}, t.lexeme.isAtom = true →
      (t.leaf path).preorder.filterMap f = [t].filterMap g := by
    intro t ht
    rw [Token.preorder_leaf, List.filterMap_cons, List.filterMap_cons, hg, Token.atom?_eq_leaf ht]
    rfl
  have hmark : ∀ {t : Token} {l : Lexeme}, t.lexeme = l → l.isAtom = false → g t = none := by
    rintro t l rfl hl
    rw [hg, Token.atom?_eq_none path hl]
    rfl
  have hgap : ∀ {inside : Bool} {ts : List Token}, Gap inside ts → ts.filterMap g = [] :=
    fun hts => List.filterMap_eq_nil_iff.mpr fun t ht => hmark (hts.1 t ht) rfl
  induction d with
  | noWords ts hts => exact (hgap hts).symm
  | moreWords ts hts w ws ihw ihws =>
      rw [tokens, List.filterMap_append, List.filterMap_append, hgap hts, ← ihw, ← ihws]
      exact List.filterMap_append
  | modified t ht ts hts w ih =>
      rw [tokens, ← List.singleton_append, List.filterMap_append, List.filterMap_append, hgap hts,
        ← ih, ← hleaf (Lexeme.isAtom_of_isModifier ht), List.nil_append, ← List.filterMap_append]
      exact List.filterMap_cons_none (hf _ rfl)
  | strand w ws ihw ihws =>
      rw [tokens, List.filterMap_append, ← ihw, ← ihws, ← List.filterMap_append]
      exact filterMap_joined hf _ _ _
  | noMembers => rfl
  | moreMembers t ht ts hts w ws ihw ihws =>
      rw [tokens, List.filterMap_cons_none (hmark ht rfl), List.filterMap_append,
        List.filterMap_append, hgap hts, ← ihw, ← ihws]
      exact List.filterMap_append
  | atom t ht hm => exact hleaf ht
  | array o ho ws t ht ih =>
      rw [tokens, List.filterMap_cons_none (hmark ho rfl), List.filterMap_append, ← ih,
        List.filterMap_cons_none (hmark ht rfl), List.filterMap_nil, List.append_nil]
      exact List.filterMap_cons_none (hf _ rfl)
  | func o ho b bs t ht ihb ihbs =>
      rw [tokens, List.filterMap_cons_none (hmark ho rfl), List.filterMap_append,
        List.filterMap_append, ← ihb, ← ihbs, List.filterMap_cons_none (hmark ht rfl),
        List.filterMap_nil, List.append_nil, ← List.filterMap_append]
      exact filterMap_alternatives hf _ _ _
  | noBodies => rfl
  | moreBodies t ht b bs ihb ihbs =>
      rw [tokens, List.filterMap_cons_none (hmark ht rfl), List.filterMap_append, ← ihb, ← ihbs]
      exact List.filterMap_append

end

end Derivation

end GlyphFormat
