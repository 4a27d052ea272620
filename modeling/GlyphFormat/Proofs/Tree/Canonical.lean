import GlyphFormat.Proofs.Tree.WellFormed

/-!
# Canonical trees

The canonical form of a tree under answers about names: a name that is not bound and names a
primitive with a glyph is that primitive. Only leaves change, so a canonical tree has the shape of
the tree it comes from, is well formed with it, and puts the same marks down once its names are
settled.
-/

namespace GlyphFormat

/-- The primitive whose glyph is written for a name that is not bound. -/
def Primitive.ofUnbound? (bound : Bool) (name : Text) : Option Primitive :=
  if bound then none else (ofName? name).filter (·.glyph?.isSome)

mutual

/-- The word with the glyphs of names that are not bound. -/
def Word.canonical (bound : Text → Bool) : Word → Word
  | .number x span => .number x span
  | .char t span => .char t span
  | .string t span => .string t span
  | .ident n span =>
    match Primitive.ofUnbound? (bound n) n with
    | some p => .prim p span
    | none => .ident n span
  | .selector s span => .selector s span
  | .prim p span => .prim p span
  | .strand ws span => .strand (Word.canonicalAll bound ws) span
  | .array ws span => .array (Word.canonicalAll bound ws) span
  | .func ws span => .func (Word.canonicalAll bound ws) span
  | .funcArray bs span => .funcArray (Word.canonicalBodies bound bs) span
  | .modified m w span => .modified (m.canonical bound) (w.canonical bound) span
  | .missing => .missing

def Word.canonicalAll (bound : Text → Bool) : List Word → List Word
  | [] => []
  | w :: ws => w.canonical bound :: Word.canonicalAll bound ws

def Word.canonicalBodies (bound : Text → Bool) : List (List Word) → List (List Word)
  | [] => []
  | b :: bs => Word.canonicalAll bound b :: Word.canonicalBodies bound bs

end

def Item.canonical (bound : Text → Bool) : Item → Item
  | .words ws span => .words (Word.canonicalAll bound ws) span
  | .binding n ws nameSpan span => .binding n (Word.canonicalAll bound ws) nameSpan span
  | .comment t span => .comment t span
  | .newlines span => .newlines span
  | .missing => .missing

/-- The items in canonical form, each under the answers after the items before it. -/
def canonicalItems (bound : List Item → Text → Bool) (done : List Item) : List Item → List Item
  | [] => []
  | i :: is => i.canonical (bound done) :: canonicalItems bound (done ++ [i]) is

namespace Word

variable {bound : Text → Bool}

theorem canonicalAll_eq_map (ws : List Word) :
    canonicalAll bound ws = ws.map (canonical bound) := by
  induction ws with
  | nil => rfl
  | cons w ws ih => simp [canonicalAll, ih]

theorem canonicalBodies_eq_map (bs : List (List Word)) :
    canonicalBodies bound bs = bs.map (canonicalAll bound) := by
  induction bs with
  | nil => rfl
  | cons b bs ih => simp [canonicalBodies, ih]

/-- A name either stays or becomes a primitive with a glyph that it names. -/
theorem canonical_ident (bound : Text → Bool) (n : Text) (span : Option Span) :
    (canonical bound (.ident n span) = .ident n span ∧
      Primitive.ofUnbound? (bound n) n = none) ∨
      ∃ p, canonical bound (.ident n span) = .prim p span ∧ bound n = false ∧
        Primitive.ofName? n = some p ∧ p.glyph?.isSome = true := by
  rw [canonical]
  cases h : Primitive.ofUnbound? (bound n) n with
  | none => exact Or.inl ⟨rfl, rfl⟩
  | some p =>
      refine Or.inr ⟨p, rfl, ?_⟩
      unfold Primitive.ofUnbound? at h
      by_cases hb : bound n = true
      · rw [if_pos hb] at h
        cases h
      · rw [if_neg hb] at h
        obtain ⟨hp, hg⟩ := Option.filter_eq_some_iff.mp h
        exact ⟨Bool.eq_false_iff.mpr hb, hp, hg⟩

/-! ## Canonical words are well formed -/

theorem isModifier_canonical (w : Word) : (w.canonical bound).isModifier = w.isModifier := by
  cases w with
  | ident n span =>
      rcases canonical_ident bound n span with ⟨h, -⟩ | ⟨p, h, -, hp, -⟩
      · rw [h]
      · rw [h, isModifier, isModifier, Primitive.isModifierName, hp]
        rfl
  | _ => rfl

theorem LeafValid.canonical {w : Word} (h : w.LeafValid) : (w.canonical bound).LeafValid := by
  cases w with
  | ident n span =>
      rcases canonical_ident bound n span with ⟨h', -⟩ | ⟨p, h', -, -, hg⟩
      · rw [h']
        exact h
      · rw [h']
        exact hg
  | number _ _ | char _ _ | string _ _ | selector _ _ | prim _ _ => exact h
  | strand _ _ | array _ _ | func _ _ | funcArray _ _ | modified _ _ _ | missing => exact h.elim

theorem Formed.canonical {place : Position} {w : Word} (h : Formed place w) :
    Formed place (w.canonical bound) := by
  have hall : ∀ {place : Position} {ws : List Word},
      (∀ w ∈ ws, Formed place (w.canonical bound)) →
        ∀ v ∈ canonicalAll bound ws, Formed place v := by
    intro place ws h v hv
    rw [canonicalAll_eq_map] at hv
    obtain ⟨w, hw, rfl⟩ := List.mem_map.mp hv
    exact h w hw
  induction h with
  | leaf hw hm => exact .leaf hw.canonical fun hp => (isModifier_canonical _).trans (hm hp)
  | @strand w ws _ hne hm _ ih =>
      refine .strand ?_ ((isModifier_canonical w).trans hm) (hall ih)
      rw [canonicalAll_eq_map]
      exact fun h => hne (List.map_eq_nil_iff.mp h)
  | array _ ih => exact .array (hall ih)
  | func _ ih => exact .func (hall ih)
  | @funcArray _ bs _ hlen _ ih =>
      refine .funcArray ?_ fun b hb => ?_
      · rw [canonicalBodies_eq_map, List.length_map]
        exact hlen
      · rw [canonicalBodies_eq_map] at hb
        obtain ⟨body, hbody, rfl⟩ := List.mem_map.mp hb
        exact hall (ih body hbody)
  | modified hm hmod _ ih => exact .modified hm.canonical ((isModifier_canonical _).trans hmod) ih

end Word

theorem Item.WellFormed.canonical {bound : Text → Bool} {i : Item} (h : i.WellFormed) :
    (i.canonical bound).WellFormed := by
  have hall : ∀ {ws : List Word}, (∀ w ∈ ws, w.WellFormed) →
      ∀ v ∈ Word.canonicalAll bound ws, v.WellFormed := by
    intro ws hws v hv
    rw [Word.canonicalAll_eq_map] at hv
    obtain ⟨w, hw, rfl⟩ := List.mem_map.mp hv
    exact (hws w hw).canonical
  cases i with
  | words ws _ =>
      refine ⟨fun hnil => h.1 ?_, hall h.2⟩
      rw [Word.canonicalAll_eq_map] at hnil
      exact List.map_eq_nil_iff.mp hnil
  | binding n ws _ _ => exact ⟨h.1, hall h.2⟩
  | _ => exact h

theorem isNewlines_canonical (bound : Text → Bool) (i : Item) :
    (i.canonical bound).isNewlines = i.isNewlines := by cases i <;> rfl

/-- The canonical form of well-formed items is well formed. -/
theorem WellFormedItems.canonical {bound : List Item → Text → Bool} {is : List Item}
    (h : WellFormedItems is) (done : List Item) :
    WellFormedItems (canonicalItems bound done is) := by
  have heach := h.each
  refine h.of_shape ?_ ?_ <;> clear h
  · induction is generalizing done with
    | nil => exact fun i hi => absurd hi List.not_mem_nil
    | cons i is ih =>
        refine List.forall_mem_cons.mpr ⟨(heach i List.mem_cons_self).canonical, ?_⟩
        exact ih _ fun j hj => heach j (List.mem_cons_of_mem _ hj)
  · clear heach
    induction is generalizing done with
    | nil => rfl
    | cons i is ih => rw [canonicalItems, List.map_cons, List.map_cons, ih, isNewlines_canonical]

theorem canonicalItems_append (bound : List Item → Text → Bool) (done is js : List Item) :
    canonicalItems bound done (is ++ js) =
      canonicalItems bound done is ++ canonicalItems bound (done ++ is) js := by
  induction is generalizing done with
  | nil => rw [List.append_nil]; rfl
  | cons i is ih =>
      rw [List.cons_append, canonicalItems, ih, ← List.append_cons]
      rfl

theorem EndsTrimmed.canonical {bound : List Item → Text → Bool} {is : List Item}
    (h : EndsTrimmed is) (done : List Item) : EndsTrimmed (canonicalItems bound done is) := by
  rcases List.eq_nil_or_concat is with rfl | ⟨js, i, rfl⟩
  · exact nofun
  · rw [List.concat_eq_append] at h ⊢
    rw [canonicalItems_append]
    intro t span hlast
    have hi : i.canonical (bound (done ++ js)) = .comment t span :=
      Option.some.inj (List.getLast?_concat.symm.trans hlast)
    cases i with
    | comment u span =>
        obtain ⟨rfl, -⟩ := Item.comment.inj hi
        exact h _ _ List.getLast?_concat
    | _ => cases hi

/-! ## Marks of canonical words -/

namespace Mark

variable {bound : Text → Bool}

/-- What a mark stands for under given answers. -/
def resolve (bound : Text → Bool) : Mark → Mark
  | .ident n => ofName (bound n) n
  | m => m

def canonical (bound : Text → Bool) : Mark → Mark
  | .ident n =>
    match Primitive.ofUnbound? (bound n) n with
    | some p => .prim p
    | none => .ident n
  | m => m

/-- The cases of a name, which is bound, names a primitive with or without a glyph, or neither. -/
theorem ident_cases (bound : Text → Bool) (n : Text) :
    (resolve bound (.ident n) = .ident n ∧ canonical bound (.ident n) = .ident n) ∨
      ∃ p, resolve bound (.ident n) = .prim p ∧ p.name = n ∧
        ((p.glyph?.isSome = true ∧ canonical bound (.ident n) = .prim p) ∨
          (p.glyph? = none ∧ canonical bound (.ident n) = .ident n)) := by
  unfold resolve canonical ofName Primitive.ofUnbound?
  dsimp only
  cases hb : bound n with
  | true => exact Or.inl ⟨rfl, rfl⟩
  | false =>
      cases hp : Primitive.ofName? n with
      | none => exact Or.inl ⟨rfl, rfl⟩
      | some p =>
          refine Or.inr ⟨p, rfl, Primitive.name_of_ofName? hp, ?_⟩
          cases hg : p.glyph? with
          | none => exact Or.inr ⟨rfl, by simp [Option.filter, hg]⟩
          | some g => exact Or.inl ⟨rfl, by simp [Option.filter, hg]⟩

/-- No name comes up that was not there. -/
theorem eq_ident_of_canonical {m : Mark} {n : Text} (h : m.canonical bound = .ident n) :
    m = .ident n := by
  cases m with
  | ident k =>
      rcases ident_cases bound k with ⟨-, hk⟩ | ⟨p, -, -, ⟨-, hk⟩ | ⟨-, hk⟩⟩
      · exact hk.symm.trans h
      · cases hk.symm.trans h
      · exact hk.symm.trans h
  | _ => exact h

theorem resolve_canonical (m : Mark) : (m.canonical bound).resolve bound = m.resolve bound := by
  cases m with
  | ident n =>
      rcases ident_cases bound n with ⟨-, h⟩ | ⟨p, h, -, ⟨-, h'⟩ | ⟨-, h'⟩⟩
      · rw [h]
      · rw [h', h]
        rfl
      · rw [h']
  | _ => rfl

/-- A settled mark spells the lexeme of the canonical one. -/
theorem lexeme?_canonical (m : Mark) : (m.canonical bound).lexeme? = (m.resolve bound).lexeme? := by
  cases m with
  | ident n =>
      rcases ident_cases bound n with ⟨h, h'⟩ | ⟨p, h, hn, ⟨-, h'⟩ | ⟨hg, h'⟩⟩
      · rw [h, h']
      · rw [h, h']
      · rw [h, h', lexeme?, lexeme?, hg, hn]
        rfl
  | _ => rfl

end Mark

namespace Word

variable {bound : Text → Bool}

mutual

theorem marks_canonical : (w : Word) → (w.canonical bound).marks = w.marks.map (.canonical bound)
  | .number _ _ | .char _ _ | .string _ _ | .selector _ _ | .prim _ _ | .missing
  | .strand [] _ | .funcArray [] _ => rfl
  | .ident n span => by
      rw [canonical, marks, List.map_singleton, Mark.canonical]
      cases Primitive.ofUnbound? (bound n) n <;> rfl
  | .strand (w :: ws) _ => by
      simp only [canonical, canonicalAll, marks, List.map_append, List.map_singleton,
        marks_canonical w, marksOfMembers_canonical ws, Mark.canonical]
  | .array ws _ | .func ws _ => by
      simp only [canonical, marks, List.map_append, List.map_cons, List.map_nil,
        marksOfAll_canonical ws, Mark.canonical]
  | .funcArray (b :: bs) _ => by
      simp only [canonical, canonicalBodies, marks, List.map_append, List.map_cons, List.map_nil,
        marksOfAll_canonical b, marksOfBodies_canonical bs, Mark.canonical]
  | .modified m w _ => by
      simp only [canonical, marks, List.map_append, marks_canonical m, marks_canonical w]

theorem marksOfAll_canonical : (ws : List Word) →
    marksOfAll (canonicalAll bound ws) = (marksOfAll ws).map (.canonical bound)
  | [] => rfl
  | w :: ws => by
      simp only [canonicalAll, marksOfAll, List.map_append, marks_canonical w,
        marksOfAll_canonical ws]

theorem marksOfMembers_canonical : (ws : List Word) →
    marksOfMembers (canonicalAll bound ws) = (marksOfMembers ws).map (.canonical bound)
  | [] => rfl
  | w :: ws => by
      simp only [canonicalAll, marksOfMembers, List.map_append, List.map_cons, marks_canonical w,
        marksOfMembers_canonical ws, Mark.canonical]

theorem marksOfBodies_canonical : (bs : List (List Word)) →
    marksOfBodies (canonicalBodies bound bs) = (marksOfBodies bs).map (.canonical bound)
  | [] => rfl
  | b :: bs => by
      simp only [canonicalBodies, marksOfBodies, List.map_append, List.map_cons,
        marksOfAll_canonical b, marksOfBodies_canonical bs, Mark.canonical]

end

/-! ## Spans do not matter -/

mutual

theorem marks_strip : (w : Word) → w.strip.marks = w.marks
  | .number _ _ | .char _ _ | .string _ _ | .ident _ _ | .selector _ _ | .prim _ _ | .missing
  | .strand [] _ | .funcArray [] _ => rfl
  | .strand (w :: ws) _ => by
      simp only [strip, stripAll, marks, marks_strip w, marksOfMembers_strip ws]
  | .array ws _ | .func ws _ => by simp only [strip, marks, marksOfAll_strip ws]
  | .funcArray (b :: bs) _ => by
      simp only [strip, stripBodies, marks, marksOfAll_strip b, marksOfBodies_strip bs]
  | .modified m w _ => by simp only [strip, marks, marks_strip m, marks_strip w]

theorem marksOfAll_strip : (ws : List Word) → marksOfAll (stripAll ws) = marksOfAll ws
  | [] => rfl
  | w :: ws => by simp only [stripAll, marksOfAll, marks_strip w, marksOfAll_strip ws]

theorem marksOfMembers_strip :
    (ws : List Word) → marksOfMembers (stripAll ws) = marksOfMembers ws
  | [] => rfl
  | w :: ws => by simp only [stripAll, marksOfMembers, marks_strip w, marksOfMembers_strip ws]

theorem marksOfBodies_strip :
    (bs : List (List Word)) → marksOfBodies (stripBodies bs) = marksOfBodies bs
  | [] => rfl
  | b :: bs => by
      simp only [stripBodies, marksOfBodies, marksOfAll_strip b, marksOfBodies_strip bs]

end

end Word

/-! ## The lexemes of items -/

namespace Item

/-- The marks of the words of an item. -/
def marks (i : Item) : List Mark := Word.marksOfAll i.topWords

/-- The lexemes that an item has in front of its words. -/
def front : Item → List Lexeme
  | .binding n _ _ _ => [.ident n, .assign]
  | .comment t _ => [.comment t]
  | _ => []

/-- The lexemes of an item as it stands, every name spelled out. -/
def spelling (i : Item) : List Lexeme := i.front ++ i.marks.filterMap Mark.lexeme?

variable {bound : Text → Bool}

theorem front_canonical (i : Item) : (i.canonical bound).front = i.front := by cases i <;> rfl

theorem marks_canonical (i : Item) :
    (i.canonical bound).marks = i.marks.map (.canonical bound) := by
  cases i with
  | words ws _ | binding _ ws _ _ => exact Word.marksOfAll_canonical ws
  | _ => rfl

/-- A canonical item has the lexemes of the settled marks. -/
theorem spelling_canonical (i : Item) : (i.canonical bound).spelling =
    i.front ++ (i.marks.map (.resolve bound)).filterMap Mark.lexeme? := by
  rw [spelling, front_canonical, marks_canonical, List.filterMap_map, List.filterMap_map]
  congr 2
  exact funext Mark.lexeme?_canonical

end Item

/-- The lexemes of items, one line each. -/
def spellLines (items : List Item) : List Lexeme :=
  items.flatMap fun i => i.spelling ++ [.newline]

theorem spellLines_cons (i : Item) (is : List Item) :
    spellLines (i :: is) = i.spelling ++ .newline :: spellLines is := by
  rw [spellLines, List.flatMap_cons, List.append_assoc]
  rfl

end GlyphFormat
