import GlyphFormat.Tree.Basic

/-!
# Walking a tree

The direct children of a word, and every word of a tree in document order, each before its children.
-/

namespace GlyphFormat

def Word.children : Word → List Word
  | .strand ws _ | .array ws _ | .func ws _ => ws
  | .funcArray bodies _ => bodies.flatten
  | .modified m w _ => [m, w]
  | _ => []

mutual

/-- The word and all words in it. -/
def Word.preorder : Word → List Word
  | w@(.strand ws _) | w@(.array ws _) | w@(.func ws _) => w :: Word.preorderAll ws
  | w@(.funcArray bodies _) => w :: Word.preorderBodies bodies
  | w@(.modified m v _) => w :: (m.preorder ++ v.preorder)
  | w => [w]

def Word.preorderAll : List Word → List Word
  | [] => []
  | w :: ws => w.preorder ++ Word.preorderAll ws

def Word.preorderBodies : List (List Word) → List Word
  | [] => []
  | b :: bs => Word.preorderAll b ++ Word.preorderBodies bs

end

theorem Word.preorderAll_eq_flatMap (ws : List Word) : preorderAll ws = ws.flatMap preorder := by
  induction ws with
  | nil => rfl
  | cons w ws ih => simp [preorderAll, ih]

theorem Word.preorderBodies_eq (bs : List (List Word)) :
    preorderBodies bs = preorderAll bs.flatten := by
  induction bs with
  | nil => rfl
  | cons b bs ih => simp [preorderBodies, ih, preorderAll_eq_flatMap]

/-- A word comes first, then what comes of its children. -/
theorem Word.preorder_eq (w : Word) : w.preorder = w :: preorderAll w.children := by
  cases w <;> simp [preorder, children, preorderAll, preorderBodies_eq]

def Item.topWords : Item → List Word
  | .words ws _ | .binding _ ws _ _ => ws
  | _ => []

/-- Every word of an item. -/
def Item.allWords (i : Item) : List Word := Word.preorderAll i.topWords

/-- A name where a word stands, with its span. -/
def Word.ident? : Word → Option (Text × Option Span)
  | .ident name span => some (name, span)
  | _ => none

/-- The names that an item uses, in document order. -/
def Item.idents (i : Item) : List (Text × Option Span) := i.allWords.filterMap Word.ident?

end GlyphFormat
