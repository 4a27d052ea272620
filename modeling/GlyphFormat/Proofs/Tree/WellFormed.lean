import GlyphFormat.Proofs.Text.Trim
import GlyphFormat.Proofs.Writing.Words

/-!
# Well-formed trees

The trees that a source can spell: words (`Word.WellFormed`), items (`Item.WellFormed`) and whole
programs (`WellFormedItems`). Well-formed words can be lexed, but not the other way round: shape
matters to the grammar only.
-/

namespace GlyphFormat

namespace Word

/-- A leaf that a source can spell. -/
def LeafValid : Word → Prop
  | .number x _ => x.IsLiteral
  | .char t _ => t.length = 1
  | .string _ _ => True
  | .ident n _ => n.IsName
  | .selector s _ => s ≠ [] ∧ ∀ slot ∈ s, Selector.HasLetter slot
  | .prim p _ => p.glyph?.isSome = true
  | _ => False

/-- A modifier, or a name that names one. -/
def isModifier : Word → Bool
  | .prim p _ => p.isModifier
  | .ident n _ => Primitive.isModifierName n
  | _ => false

/-- Where a word stands: by itself, or as a member of a strand. -/
inductive Position where
  | alone
  | member
  deriving DecidableEq

/-- The word is well formed at its place. A modifier stands by itself only in front of the word
that it modifies; as a member of a strand, other than the first, it is like any leaf. Members are
neither strands nor modified. -/
inductive Formed : Position → Word → Prop
  | leaf {place : Position} {w : Word} (hw : w.LeafValid)
      (hm : place = .alone → w.isModifier = false) : Formed place w
  | strand {w : Word} {ws : List Word} {span : Option Span} (hne : ws ≠ [])
      (hm : w.isModifier = false) (h : ∀ v ∈ w :: ws, Formed .member v) :
      Formed .alone (.strand (w :: ws) span)
  | array {place : Position} {ws : List Word} {span : Option Span}
      (h : ∀ w ∈ ws, Formed .alone w) : Formed place (.array ws span)
  | func {place : Position} {ws : List Word} {span : Option Span}
      (h : ∀ w ∈ ws, Formed .alone w) : Formed place (.func ws span)
  | funcArray {place : Position} {bs : List (List Word)} {span : Option Span}
      (hlen : 2 ≤ bs.length) (h : ∀ b ∈ bs, ∀ w ∈ b, Formed .alone w) :
      Formed place (.funcArray bs span)
  | modified {m w : Word} {span : Option Span} (hm : m.LeafValid) (hmod : m.isModifier = true)
      (h : Formed .alone w) : Formed .alone (.modified m w span)

/-- A word that a source can spell. -/
def WellFormed (w : Word) : Prop := w.Formed .alone

theorem wellFormed_ident {n : Text} (span : Option Span) (hn : n.IsName)
    (hm : Primitive.isModifierName n = false) : (ident n span).WellFormed :=
  .leaf hn fun _ => hm

/-- A member that is no modifier may stand by itself. -/
theorem Formed.alone {w : Word} (h : Formed .member w) (hm : w.isModifier = false) :
    Formed .alone w := by
  cases h with
  | leaf hw _ => exact .leaf hw fun _ => hm
  | array h => exact .array h
  | func h => exact .func h
  | funcArray hlen h => exact .funcArray hlen h

theorem LeafValid.lexable {w : Word} (h : w.LeafValid) : w.LeafLexable := by
  cases w with
  | string _ _ | prim _ _ => trivial
  | number _ _ | char _ _ | ident _ _ | selector _ _ => exact h
  | strand _ _ | array _ _ | func _ _ | funcArray _ _ | modified _ _ _ | missing => exact h.elim

theorem LeafValid.preorder {w : Word} (h : w.LeafValid) : w.preorder = [w] := by
  cases w with
  | strand _ _ | array _ _ | func _ _ | funcArray _ _ | modified _ _ _ | missing => exact h.elim
  | _ => rfl

/-- Well-formed words can be lexed. -/
theorem Formed.lexable {place : Position} {w : Word} (h : Formed place w) : w.Lexable := by
  have hall : ∀ {ws : List Word}, (∀ w ∈ ws, w.Lexable) → ∀ v ∈ preorderAll ws, v.LeafLexable := by
    intro ws h v hv
    rw [preorderAll_eq_flatMap] at hv
    obtain ⟨w, hw, hv⟩ := List.mem_flatMap.mp hv
    exact h w hw v hv
  induction h with
  | leaf hw _ =>
      intro v hv
      rw [hw.preorder] at hv
      obtain rfl := List.mem_singleton.mp hv
      exact hw.lexable
  | strand _ _ _ ih => exact List.forall_mem_cons.mpr ⟨trivial, hall ih⟩
  | array _ ih => exact List.forall_mem_cons.mpr ⟨trivial, hall ih⟩
  | func _ ih => exact List.forall_mem_cons.mpr ⟨trivial, hall ih⟩
  | @funcArray _ bs _ _ _ ih =>
      refine List.forall_mem_cons.mpr ⟨trivial, ?_⟩
      rw [preorderBodies_eq]
      refine hall fun w hw => ?_
      obtain ⟨b, hb, hw⟩ := List.mem_flatten.mp hw
      exact ih b hb w hw
  | modified hm _ _ ih =>
      refine List.forall_mem_cons.mpr ⟨trivial, List.forall_mem_append.mpr ⟨?_, ih⟩⟩
      rw [hm.preorder]
      exact List.forall_mem_singleton.mpr hm.lexable

end Word

/-! ## Items -/

namespace Item

/-- An item that a source can spell. -/
def WellFormed : Item → Prop
  | .words ws _ => ws ≠ [] ∧ ∀ w ∈ ws, w.WellFormed
  | .binding n ws _ _ => n.IsName ∧ ∀ w ∈ ws, w.WellFormed
  | .comment t _ => ∀ c ∈ t, c.isLineBreak = false
  | .newlines _ => True
  | .missing => False

def isNewlines : Item → Bool
  | .newlines _ => true
  | _ => false

end Item

/-- Items that a source can spell: each by itself, and blank lines only between two others. -/
structure WellFormedItems (items : List Item) : Prop where
  each : ∀ i ∈ items, i.WellFormed
  first : ∀ i ∈ items.head?, i.isNewlines = false
  last : ∀ i ∈ items.getLast?, i.isNewlines = false
  apart : ∀ before i j after, items = before ++ i :: j :: after →
    i.isNewlines = false ∨ j.isNewlines = false

/-- Where something is blank that goes with the items one by one, no two neighbours are. -/
theorem WellFormedItems.apart_of_shape {α : Type} {f : α → Bool} {is : List Item}
    (his : WellFormedItems is) {xs : List α} (hshape : xs.map f = is.map Item.isNewlines)
    {before after : List α} {x y : α} (hxs : xs = before ++ x :: y :: after) :
    f x = false ∨ f y = false := by
  rw [hxs, List.map_append, List.map_cons, List.map_cons] at hshape
  obtain ⟨as, bs, rfl, -, hbs⟩ := List.map_eq_append_iff.mp hshape.symm
  obtain ⟨k, bs, rfl, hk, hbs⟩ := List.map_eq_cons_iff.mp hbs
  obtain ⟨m, bs, rfl, hm, -⟩ := List.map_eq_cons_iff.mp hbs
  rw [← hk, ← hm]
  exact his.apart as k m bs rfl

/-- Being well formed as a list depends on where the blank lines are and on each item. -/
theorem WellFormedItems.of_shape {is js : List Item} (his : WellFormedItems is)
    (hjs : ∀ j ∈ js, j.WellFormed)
    (hshape : js.map Item.isNewlines = is.map Item.isNewlines) : WellFormedItems js := by
  refine ⟨hjs, fun j hj => ?_, fun j hj => ?_, fun before i j after hsplit => ?_⟩
  · have hhead : is.head?.map Item.isNewlines = some j.isNewlines := by
      rw [← List.head?_map, ← hshape, List.head?_map, show js.head? = some j from hj]
      rfl
    obtain ⟨i, hi, heq⟩ := Option.map_eq_some_iff.mp hhead
    rw [← heq]
    exact his.first i hi
  · have hlast : is.getLast?.map Item.isNewlines = some j.isNewlines := by
      rw [← List.getLast?_map, ← hshape, List.getLast?_map, show js.getLast? = some j from hj]
      rfl
    obtain ⟨i, hi, heq⟩ := Option.map_eq_some_iff.mp hlast
    rw [← heq]
    exact his.last i hi
  · exact his.apart_of_shape hshape hsplit

/-! ## The end of a last comment -/

/-- A comment that comes last does not end in a blank. -/
def EndsTrimmed (items : List Item) : Prop :=
  ∀ t span, items.getLast? = some (.comment t span) → ∀ c ∈ t.getLast?, c.isBlank = false

/-- A comment without the blanks at its end. -/
def Item.trimmed : Item → Item
  | .comment t span => .comment t.trimRight span
  | i => i

/-- The items without the blanks at the end of a last comment. -/
def trimLast : List Item → List Item
  | [] => []
  | [i] => [i.trimmed]
  | i :: j :: is => i :: trimLast (j :: is)

theorem trimLast_concat (is : List Item) (i : Item) : trimLast (is ++ [i]) = is ++ [i.trimmed] := by
  induction is with
  | nil => rfl
  | cons j is ih =>
      cases is with
      | nil => rfl
      | cons k is => exact congrArg (j :: ·) ih

theorem isNewlines_trimmed (i : Item) : i.trimmed.isNewlines = i.isNewlines := by cases i <;> rfl

theorem Item.WellFormed.trimmed {i : Item} (h : i.WellFormed) : i.trimmed.WellFormed := by
  cases i with
  | comment t _ => exact fun c hc => h c (Text.mem_of_mem_trimRight hc)
  | _ => exact h

theorem WellFormedItems.trimLast {is : List Item} (h : WellFormedItems is) :
    WellFormedItems (trimLast is) := by
  rcases List.eq_nil_or_concat is with rfl | ⟨js, i, rfl⟩
  · exact h
  · rw [List.concat_eq_append] at h ⊢
    rw [trimLast_concat]
    refine h.of_shape (List.forall_mem_append.mpr ⟨fun j hj => ?_, ?_⟩) ?_
    · exact h.each j (List.mem_append_left _ hj)
    · exact List.forall_mem_singleton.mpr (h.each i (by simp)).trimmed
    · simp [isNewlines_trimmed]

theorem EndsTrimmed.trimLast_eq {is : List Item} (h : EndsTrimmed is) : trimLast is = is := by
  rcases List.eq_nil_or_concat is with rfl | ⟨js, i, rfl⟩
  · rfl
  · rw [List.concat_eq_append] at h ⊢
    rw [trimLast_concat]
    cases i with
    | comment t span =>
        rw [Item.trimmed, Text.trimRight_eq_self (h t span List.getLast?_concat)]
    | _ => rfl

end GlyphFormat
