import GlyphFormat.Decimal.Binary64
import GlyphFormat.Diagnostic
import GlyphFormat.Primitive

/-!
# Syntax trees

A program is a list of items, an item holds words, and words nest. Every node may know the part of
the source it came from; that span says nothing about the program, and `strip` takes all spans away.

Trees are also made by hand, so a node may be missing where a word or an item should stand, and
contents are not limited to what a source can spell.
-/

namespace GlyphFormat

/-- Which values of the stack are meant, by number; the letter `a` is number 0. -/
abbrev Selector := List Int

inductive Word where
  | number (value : Binary64) (span : Option Span)
  | char (content : Text) (span : Option Span)
  | string (content : Text) (span : Option Span)
  | ident (name : Text) (span : Option Span)
  | selector (slots : Selector) (span : Option Span)
  | prim (p : Primitive) (span : Option Span)
  | strand (members : List Word) (span : Option Span)
  | array (words : List Word) (span : Option Span)
  | func (body : List Word) (span : Option Span)
  | funcArray (bodies : List (List Word)) (span : Option Span)
  | modified (modifier operand : Word) (span : Option Span)
  | missing

inductive Item where
  | words (ws : List Word) (span : Option Span)
  | binding (name : Text) (ws : List Word) (nameSpan span : Option Span)
  | comment (text : Text) (span : Option Span)
  /-- A run of blank lines. -/
  | newlines (span : Option Span)
  | missing

/-! ## Trees without spans -/

mutual

def Word.strip : Word → Word
  | .number x _ => .number x none
  | .char t _ => .char t none
  | .string t _ => .string t none
  | .ident n _ => .ident n none
  | .selector s _ => .selector s none
  | .prim p _ => .prim p none
  | .strand ws _ => .strand (Word.stripAll ws) none
  | .array ws _ => .array (Word.stripAll ws) none
  | .func ws _ => .func (Word.stripAll ws) none
  | .funcArray bs _ => .funcArray (Word.stripBodies bs) none
  | .modified m w _ => .modified m.strip w.strip none
  | .missing => .missing

def Word.stripAll : List Word → List Word
  | [] => []
  | w :: ws => w.strip :: Word.stripAll ws

def Word.stripBodies : List (List Word) → List (List Word)
  | [] => []
  | b :: bs => Word.stripAll b :: Word.stripBodies bs

end

def Item.strip : Item → Item
  | .words ws _ => .words (Word.stripAll ws) none
  | .binding n ws _ _ => .binding n (Word.stripAll ws) none none
  | .comment t _ => .comment t none
  | .newlines _ => .newlines none
  | .missing => .missing

/-! ## Equality of trees without spans -/

mutual

/-- The two words have the same structure, wherever they came from. -/
def Word.alike : Word → Word → Bool
  | .number x _, .number y _ => x = y
  | .char s _, .char t _ => s = t
  | .string s _, .string t _ => s = t
  | .ident m _, .ident n _ => m = n
  | .selector s _, .selector t _ => s = t
  | .prim p _, .prim q _ => p = q
  | .strand vs _, .strand ws _ => Word.allAlike vs ws
  | .array vs _, .array ws _ => Word.allAlike vs ws
  | .func vs _, .func ws _ => Word.allAlike vs ws
  | .funcArray as _, .funcArray bs _ => Word.bodiesAlike as bs
  | .modified l v _, .modified m w _ => l.alike m && v.alike w
  | .missing, .missing => true
  | _, _ => false

def Word.allAlike : List Word → List Word → Bool
  | [], [] => true
  | v :: vs, w :: ws => v.alike w && Word.allAlike vs ws
  | _, _ => false

def Word.bodiesAlike : List (List Word) → List (List Word) → Bool
  | [], [] => true
  | a :: as, b :: bs => Word.allAlike a b && Word.bodiesAlike as bs
  | _, _ => false

end

def Item.alike : Item → Item → Bool
  | .words vs _, .words ws _ => Word.allAlike vs ws
  | .binding m vs _ _, .binding n ws _ _ => m = n && Word.allAlike vs ws
  | .comment s _, .comment t _ => s = t
  | .newlines _, .newlines _ => true
  | .missing, .missing => true
  | _, _ => false

def Item.allAlike : List Item → List Item → Bool
  | [], [] => true
  | i :: is, j :: js => i.alike j && allAlike is js
  | _, _ => false

mutual

/-- Alike words are equal without their spans. -/
theorem Word.alike_iff : (v w : Word) → (v.alike w = true ↔ v.strip = w.strip)
  | .number .., w | .char .., w | .string .., w | .ident .., w | .selector .., w | .prim .., w
  | .missing, w => by cases w <;> simp [Word.alike, Word.strip]
  | .strand vs _, w | .array vs _, w | .func vs _, w => by
    cases w <;> simp [Word.alike, Word.strip, Word.allAlike_iff vs]
  | .funcArray bs _, w => by cases w <;> simp [Word.alike, Word.strip, Word.bodiesAlike_iff bs]
  | .modified m v _, w => by
    cases w <;> simp [Word.alike, Word.strip, Word.alike_iff m, Word.alike_iff v]

theorem Word.allAlike_iff :
    (vs ws : List Word) → (Word.allAlike vs ws = true ↔ Word.stripAll vs = Word.stripAll ws)
  | [], ws => by cases ws <;> simp [Word.allAlike, Word.stripAll]
  | v :: vs, ws => by
    cases ws <;> simp [Word.allAlike, Word.stripAll, Word.alike_iff v, Word.allAlike_iff vs]

theorem Word.bodiesAlike_iff : (as bs : List (List Word)) →
    (Word.bodiesAlike as bs = true ↔ Word.stripBodies as = Word.stripBodies bs)
  | [], bs => by cases bs <;> simp [Word.bodiesAlike, Word.stripBodies]
  | a :: as, bs => by
    cases bs <;>
      simp [Word.bodiesAlike, Word.stripBodies, Word.allAlike_iff a, Word.bodiesAlike_iff as]

end

theorem Item.alike_iff (i j : Item) : i.alike j = true ↔ i.strip = j.strip := by
  cases i <;> cases j <;> simp [Item.alike, Item.strip, Word.allAlike_iff]

theorem Item.allAlike_iff (is js : List Item) :
    Item.allAlike is js = true ↔ is.map Item.strip = js.map Item.strip := by
  induction is generalizing js with
  | nil => cases js <;> simp [Item.allAlike]
  | cons i is ih => cases js <;> simp [Item.allAlike, Item.alike_iff, ih]

end GlyphFormat
