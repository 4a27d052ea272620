import GlyphFormat.Proofs.Grammar.Items
import GlyphFormat.Proofs.Writing.Ending

/-!
# The canonical text of a source

A source has a canonical text when nothing is reported about it, and that text is the canonical text
of its items (`formatSource_eq_ok_iff`). So it is known from what the source spells: spans are not
seen in it, nor are glyphs where names with the same meaning might stand. `Item.LikeUnder` says so
for one item, `AllLike` for programs.
-/

namespace GlyphFormat

/-! ## Names are marks -/

def Mark.name? : Mark → Option Text
  | .ident n => some n
  | _ => none

namespace Word

mutual

/-- The names in a word are those among its marks. -/
theorem names_eq_marks : (w : Word) →
    (w.preorder.filterMap ident?).map Prod.fst = w.marks.filterMap Mark.name?
  | .number _ _ | .char _ _ | .string _ _ | .ident _ _ | .selector _ _ | .prim _ _ | .missing
  | .strand [] _ | .funcArray [] _ => rfl
  | .strand (w :: ws) _ => by
      simp [preorder, preorderAll, marks, List.filterMap_cons, names_eq_marks w,
        namesOfMembers_eq_marks ws, ident?, Mark.name?]
  | .array ws _ | .func ws _ => by
      simp [preorder, marks, List.filterMap_cons, namesOfAll_eq_marks ws, ident?, Mark.name?]
  | .funcArray (b :: bs) _ => by
      simp [preorder, preorderBodies, marks, List.filterMap_cons, namesOfAll_eq_marks b,
        namesOfBodies_eq_marks bs, ident?, Mark.name?]
  | .modified m w _ => by
      simp [preorder, marks, List.filterMap_cons, names_eq_marks m, names_eq_marks w, ident?]

theorem namesOfAll_eq_marks : (ws : List Word) →
    ((preorderAll ws).filterMap ident?).map Prod.fst = (marksOfAll ws).filterMap Mark.name?
  | [] => rfl
  | w :: ws => by simp [preorderAll, marksOfAll, names_eq_marks w, namesOfAll_eq_marks ws]

theorem namesOfMembers_eq_marks : (ws : List Word) →
    ((preorderAll ws).filterMap ident?).map Prod.fst = (marksOfMembers ws).filterMap Mark.name?
  | [] => rfl
  | w :: ws => by
      simp [preorderAll, marksOfMembers, List.filterMap_cons, names_eq_marks w,
        namesOfMembers_eq_marks ws, Mark.name?]

theorem namesOfBodies_eq_marks : (bs : List (List Word)) →
    ((preorderBodies bs).filterMap ident?).map Prod.fst = (marksOfBodies bs).filterMap Mark.name?
  | [] => rfl
  | b :: bs => by
      simp [preorderBodies, marksOfBodies, List.filterMap_cons, namesOfAll_eq_marks b,
        namesOfBodies_eq_marks bs, Mark.name?]

end

end Word

namespace Item

theorem names_eq_marks (i : Item) : i.idents.map Prod.fst = i.marks.filterMap Mark.name? :=
  Word.namesOfAll_eq_marks i.topWords

/-- Only the marks of an item matter to name resolution, and whether it has a value. -/
theorem sound_iff {bound : Text → Bool} {i : Item} : i.Sound bound ↔
    (∀ n, .ident n ∈ i.marks → bound n = true ∨ (Primitive.ofName? n).isSome = true) ∧
      i.hasValue = true := by
  refine and_congr_left fun _ => ⟨fun h n hn => ?_, fun h n hn => ?_⟩
  · have hmem : n ∈ i.marks.filterMap Mark.name? := List.mem_filterMap.mpr ⟨_, hn, rfl⟩
    rw [← names_eq_marks] at hmem
    obtain ⟨m, hm, rfl⟩ := List.mem_map.mp hmem
    exact h m hm
  · have hmem : n.1 ∈ i.idents.map Prod.fst := List.mem_map_of_mem hn
    rw [names_eq_marks] at hmem
    obtain ⟨m, hm, hname⟩ := List.mem_filterMap.mp hmem
    cases m with
    | ident k =>
        obtain rfl : k = n.1 := Option.some.inj hname
        exact h _ hm
    | _ => cases hname

/-! ## Items without their spans -/

theorem marks_strip (i : Item) : i.strip.marks = i.marks := by
  cases i with
  | words ws _ | binding _ ws _ _ => exact Word.marksOfAll_strip ws
  | _ => rfl

theorem binds_strip (i : Item) : i.strip.binds = i.binds := by cases i <;> rfl

theorem hasValue_strip (i : Item) : i.strip.hasValue = i.hasValue := by
  cases i with
  | binding n ws _ _ => cases ws <;> rfl
  | _ => rfl

theorem front_strip (l : Layout) (i : Item) : l.front i.strip = l.front i := by cases i <;> rfl

/-! ## Items that make no difference -/

/-- Under the answers the second item is written like the first, binds the same names, and is sound
if the first is. -/
structure LikeUnder (bound : Text → Bool) (i j : Item) : Prop where
  line : ∀ l : Layout, l.line bound j = l.line bound i
  binds : j.binds = i.binds
  sound : i.Sound bound → j.Sound bound

variable {bound : Text → Bool}

theorem likeUnder_of_strip {i j : Item} (h : j.strip = i.strip) : i.LikeUnder bound j := by
  have hmarks : j.marks = i.marks := by rw [← marks_strip j, h, marks_strip]
  refine ⟨fun l => ?_, by rw [← binds_strip j, h, binds_strip], fun hi => ?_⟩
  · have hfront : l.front j = l.front i := by rw [← front_strip l j, h, front_strip]
    rw [Layout.line, hmarks, hfront]
    rfl
  · have hvalue : j.hasValue = i.hasValue := by rw [← hasValue_strip j, h, hasValue_strip]
    rw [sound_iff] at hi ⊢
    rw [hmarks, hvalue]
    exact hi

theorem hasValue_canonical (i : Item) :
    (i.canonical bound).hasValue = i.hasValue := by
  cases i with
  | binding n ws _ _ => cases ws <;> rfl
  | _ => rfl

theorem likeUnder_canonical (i : Item) : i.LikeUnder bound (i.canonical bound) := by
  refine ⟨fun l => ?_, by cases i <;> rfl, fun hi => ?_⟩
  · have hfront : l.front (i.canonical bound) = l.front i := by cases i <;> rfl
    rw [Layout.line, marks_canonical, hfront, List.map_map,
      show Mark.resolve bound ∘ Mark.canonical bound = Mark.resolve bound from
        funext Mark.resolve_canonical]
    rfl
  · rw [sound_iff] at hi ⊢
    refine ⟨fun n hn => hi.1 n ?_, (hasValue_canonical i).trans hi.2⟩
    rw [marks_canonical] at hn
    obtain ⟨m, hm, heq⟩ := List.mem_map.mp hn
    rwa [← Mark.eq_ident_of_canonical heq]

/-- A name that gives way to its primitive stands for something. -/
theorem sound_of_canonical {i : Item} (h : (i.canonical bound).Sound bound) : i.Sound bound := by
  rw [sound_iff] at h ⊢
  refine ⟨fun n hn => ?_, (hasValue_canonical i).symm.trans h.2⟩
  have hmem : (Mark.ident n).canonical bound ∈ (i.canonical bound).marks := by
    rw [marks_canonical]
    exact List.mem_map_of_mem hn
  rcases Mark.ident_cases bound n with ⟨-, hkept⟩ | ⟨p, -, rfl, -⟩
  · exact h.1 n (hkept ▸ hmem)
  · exact Or.inr (by rw [Primitive.ofName?_name]; rfl)

theorem likeUnder_of_canonical {i j : Item}
    (h : (j.canonical bound).strip = (i.canonical bound).strip) : i.LikeUnder bound j := by
  have hlike : (i.canonical bound).LikeUnder bound (j.canonical bound) := likeUnder_of_strip h
  have hi : i.LikeUnder bound (i.canonical bound) := likeUnder_canonical i
  have hj : j.LikeUnder bound (j.canonical bound) := likeUnder_canonical j
  refine ⟨fun l => ?_, ?_, fun hsound => ?_⟩
  · rw [← hj.line, hlike.line, hi.line]
  · rw [← hj.binds, hlike.binds, hi.binds]
  · exact sound_of_canonical (hlike.sound (hi.sound hsound))

end Item

/-- Item by item the second program is like the first, under the answers after the items before. -/
def AllLike (done : List Item) : List Item → List Item → Prop
  | [], [] => True
  | i :: is, j :: js => i.LikeUnder (boundBefore done) j ∧ AllLike (done ++ [i]) is js
  | _, _ => False

namespace AllLike

variable {done done' is js : List Item}

theorem boundBefore_append {i j : Item} (hdone : boundBefore done' = boundBefore done)
    (hbinds : j.binds = i.binds) :
    boundBefore (done' ++ [j]) = boundBefore (done ++ [i]) := by
  rw [GlyphFormat.boundBefore_append, GlyphFormat.boundBefore_append, hdone, hbinds]

/-- Programs that are alike have the same lines. -/
theorem lines (h : AllLike done is js) (hdone : boundBefore done' = boundBefore done) (l : Layout) :
    l.lines boundBefore done' js = l.lines boundBefore done is := by
  induction is generalizing js done done' l with
  | nil =>
      cases js with
      | nil => rfl
      | cons j js => exact h.elim
  | cons i is ih =>
      cases js with
      | nil => exact h.elim
      | cons j js =>
          rw [Layout.lines, Layout.lines, hdone, h.1.line]
          exact ih h.2 (boundBefore_append hdone h.1.binds) _

theorem sound (h : AllLike done is js) (hdone : boundBefore done' = boundBefore done)
    (his : SoundItems done is) : SoundItems done' js := by
  induction is generalizing js done done' with
  | nil =>
      cases js with
      | nil => trivial
      | cons j js => exact h.elim
  | cons i is ih =>
      cases js with
      | nil => exact h.elim
      | cons j js =>
          refine ⟨?_, ih h.2 (boundBefore_append hdone h.1.binds) his.2⟩
          rw [hdone]
          exact h.1.sound his.1

theorem canonicalText (h : AllLike [] is js) :
    canonicalText boundBefore js = canonicalText boundBefore is := by
  rw [GlyphFormat.canonicalText, h.lines rfl]
  rfl

theorem of_strip (h : js.map Item.strip = is.map Item.strip) (done : List Item) :
    AllLike done is js := by
  induction is generalizing js done with
  | nil =>
      cases js with
      | nil => trivial
      | cons j js => cases h
  | cons i is ih =>
      cases js with
      | nil => cases h
      | cons j js =>
          obtain ⟨hj, hjs⟩ := List.cons.inj h
          exact ⟨Item.likeUnder_of_strip hj, ih hjs _⟩

theorem append {is' js' : List Item} (h : AllLike done is js)
    (h' : AllLike (done ++ is) is' js') : AllLike done (is ++ is') (js ++ js') := by
  induction is generalizing js done with
  | nil =>
      cases js with
      | nil => rwa [List.append_nil] at h'
      | cons j js => exact h.elim
  | cons i is ih =>
      cases js with
      | nil => exact h.elim
      | cons j js =>
          refine ⟨h.1, ih h.2 ?_⟩
          rwa [← List.append_cons]

theorem canonical (done is : List Item) :
    AllLike done is (canonicalItems boundBefore done is) := by
  induction is generalizing done with
  | nil => trivial
  | cons i is ih => exact ⟨i.likeUnder_canonical, ih _⟩

end AllLike

/-! ## Sources -/

/-- Of a source that is read without a report either the names are reported, or it has the canonical
text of its items. -/
theorem formatSource_eq {s : Text} {path : Option Path} (hdiag : (parse s path).diagnostics = []) :
    formatSource s path = if faultsBehind [] (parse s path).items = []
      then .ok (canonicalText boundBefore (parse s path).items)
      else .error (.reported (faultsBehind [] (parse s path).items)) := by
  obtain ⟨r, hr, hformat⟩ := formatItems_eq Resolver.answers (wellFormed_of_parse hdiag).each
  have hfaults : Scope.diagnostics r = faultsBehind [] (parse s path).items := by
    rw [Resolver.reached hr]
    exact Resolver.faults_after [] _
  rw [formatSource, format]
  simp only [hdiag, hformat, hfaults]
  split
  · rename_i hnil
    rw [if_pos hnil]
  · rename_i hcons
    rw [if_neg hcons]

/-- A source has a canonical text when nothing is reported about it, and then it is that of its
items. -/
theorem formatSource_eq_ok_iff {s t : Text} {path : Option Path} :
    formatSource s path = .ok t ↔ (parse s path).diagnostics = [] ∧
      SoundItems [] (parse s path).items ∧ t = canonicalText boundBefore (parse s path).items := by
  by_cases hdiag : (parse s path).diagnostics = []
  · rw [formatSource_eq hdiag, ← faultsBehind_eq_nil]
    split
    · rename_i hnil
      exact ⟨fun h => ⟨hdiag, hnil, (Except.ok.inj h).symm⟩, fun h => by rw [h.2.2]⟩
    · rename_i hcons
      exact ⟨nofun, fun h => absurd h.2.1 hcons⟩
  · refine ⟨fun h => ?_, fun h => absurd h.1 hdiag⟩
    rw [formatSource, format] at h
    cases hds : (parse s path).diagnostics with
    | nil => exact absurd hds hdiag
    | cons d ds =>
        simp only [hds] at h
        cases h

/-- A source that reads as sound items, up to spans, has their canonical text. -/
theorem formatSource_eq_ok {s : Text} {is : List Item} {path : Option Path}
    (hs : (parse s path).diagnostics = [] ∧
      (parse s path).items.map Item.strip = is.map Item.strip) (his : SoundItems [] is) :
    formatSource s path = .ok (canonicalText boundBefore is) := by
  have hlike := AllLike.of_strip hs.2 []
  exact formatSource_eq_ok_iff.mpr ⟨hs.1, hlike.sound rfl his, hlike.canonicalText.symm⟩

/-- The first line names a primitive and binds its name, so from the second line on the name stays a
name. -/
theorem formatSource_shadowing (path : Option Path) :
    formatSource "add=add\nadd(dup|pop)\n# a \n" path = .ok "add = +\nadd(⋅|;)\n# a\n" := by
  let items : List Item := [.binding "add" [.ident "add" none] none none,
    .words [.ident "add" none, .funcArray [[.ident "dup" none], [.ident "pop" none]] none] none,
    .comment "a " none]
  have hadd : (Word.ident "add" none).WellFormed :=
    Word.wellFormed_ident none (by decide +kernel) (by decide +kernel)
  have hdup : (Word.ident "dup" none).WellFormed :=
    Word.wellFormed_ident none (by decide +kernel) (by decide +kernel)
  have hpop : (Word.ident "pop" none).WellFormed :=
    Word.wellFormed_ident none (by decide +kernel) (by decide +kernel)
  have hitems : WellFormedItems items := by
    refine GapsFilled.wellFormed ⟨nofun, nofun, nofun, trivial⟩ ?_ fun i hi => ?_
    · refine List.forall_mem_cons.mpr ⟨⟨by decide +kernel, List.forall_mem_singleton.mpr hadd⟩, ?_⟩
      refine List.forall_mem_cons.mpr ⟨⟨nofun, List.forall_mem_cons.mpr ⟨hadd, ?_⟩⟩, ?_⟩
      · refine List.forall_mem_singleton.mpr (.funcArray (by decide) ?_)
        exact List.forall_mem_cons.mpr ⟨List.forall_mem_singleton.mpr hdup,
          List.forall_mem_singleton.mpr (List.forall_mem_singleton.mpr hpop)⟩
      · exact List.forall_mem_singleton.mpr (show ∀ c ∈ Text.ofString "a ", _ by decide)
    · obtain rfl := Option.some.inj hi
      rfl
  have hlex : Lexes "add=add\nadd(dup|pop)\n# a \n" (spellLines items) :=
    .lexeme (n := 3) rfl rfl <| .lexeme (n := 1) rfl rfl <| .lexeme (n := 3) rfl rfl <|
    .lexeme (n := 1) rfl rfl <| .lexeme (n := 3) rfl rfl <| .lexeme (n := 1) rfl rfl <|
    .lexeme (n := 3) rfl rfl <| .lexeme (n := 1) rfl rfl <| .lexeme (n := 3) rfl rfl <|
    .lexeme (n := 1) rfl rfl <| .lexeme (n := 1) rfl rfl <| .lexeme (n := 4) rfl rfl <|
    .lexeme (n := 1) rfl rfl .done
  rw [formatSource_eq_ok (parse_of_spelling hitems hlex) (by decide +kernel)]
  exact congrArg Except.ok (by decide +kernel)

end GlyphFormat
