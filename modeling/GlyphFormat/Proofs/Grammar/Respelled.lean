import GlyphFormat.Proofs.Grammar.Rebreaks
import GlyphFormat.Proofs.Tree.Canonical

/-!
# Words in glyphs and names

Where a name is not bound, the grammar makes no difference between the name of a primitive and its
glyph: both modify or neither does, and both stand where a word may stand. So tokens that agree up
to such spellings make up the same part of the grammar, with words that are the same in canonical
form (`Derivation.respelled`).
-/

namespace GlyphFormat

variable {bound : Text → Bool}

/-! ## Lexemes in canonical form -/

/-- The primitive for a name that is not bound and names one with a glyph. -/
def Lexeme.canonical (bound : Text → Bool) : Lexeme → Lexeme
  | .ident n =>
    match Primitive.ofUnbound? (bound n) n with
    | some p => .primitive p
    | none => .ident n
  | l => l

namespace Lexeme

variable {l k : Lexeme}

theorem canonical_ident (bound : Text → Bool) (n : Text) :
    canonical bound (.ident n) = .ident n ∨
      ∃ p, canonical bound (.ident n) = .primitive p ∧ Primitive.ofName? n = some p := by
  rw [canonical]
  cases h : Primitive.ofUnbound? (bound n) n with
  | none => exact Or.inl rfl
  | some p =>
      refine Or.inr ⟨p, rfl, ?_⟩
      unfold Primitive.ofUnbound? at h
      split at h
      · cases h
      · exact (Option.filter_eq_some_iff.mp h).1

theorem canonical_of_unbound {n : Text} {p : Primitive} (hbound : bound n = false)
    (hname : Primitive.ofName? n = some p) (hglyph : p.glyph?.isSome = true) :
    canonical bound (.ident n) = .primitive p := by
  have h : Primitive.ofUnbound? (bound n) n = some p := by
    rw [Primitive.ofUnbound?, if_neg (by rw [hbound]; decide), hname]
    exact Option.filter_eq_some_iff.mpr ⟨rfl, hglyph⟩
  rw [canonical, h]

theorem isAtom_canonical (l : Lexeme) : (l.canonical bound).isAtom = l.isAtom := by
  cases l with
  | ident n =>
      rcases canonical_ident bound n with h | ⟨p, h, -⟩
      · rw [h]
      · rw [h]
        rfl
  | _ => rfl

theorem isModifier_canonical (l : Lexeme) : (l.canonical bound).isModifier = l.isModifier := by
  cases l with
  | ident n =>
      rcases canonical_ident bound n with h | ⟨p, h, hp⟩
      · rw [h]
      · rw [h, isModifier, isModifier, Primitive.isModifierName, hp]
        rfl
  | _ => rfl

/-- Only atoms have other spellings. -/
theorem eq_of_canonical (h : l.canonical bound = k) (hk : k.isAtom = false) : l = k := by
  rw [← h, isAtom_canonical] at hk
  cases l <;> first | exact h | cases hk

end Lexeme

/-! ## Tokens in canonical form -/

namespace Token

def canonical (bound : Text → Bool) (t : Token) : Token :=
  { t with lexeme := t.lexeme.canonical bound }

theorem leaf_canonical (path : Option Path) (t : Token) :
    (t.canonical bound).leaf path = (t.leaf path).canonical bound := by
  unfold leaf atom? canonical
  cases t.lexeme with
  | ident n =>
      dsimp only [Lexeme.canonical]
      cases h : Primitive.ofUnbound? (bound n) n <;> simp [Word.canonical, h, span]
  | _ => rfl

end Token

/-- The lexemes of tokens, in canonical form. -/
def senses (bound : Text → Bool) (ts : List Token) : List Lexeme :=
  ts.map fun t => t.lexeme.canonical bound

section Senses

variable {inside : Bool} {t u : Token} {ts ts' us g : List Token}

theorem senses_cons (h : senses bound us = senses bound (t :: ts)) :
    ∃ u us', us = u :: us' ∧ u.lexeme.canonical bound = t.lexeme.canonical bound ∧
      senses bound us' = senses bound ts :=
  List.map_eq_cons_iff.mp h

theorem senses_append (h : senses bound us = senses bound (ts ++ ts')) :
    ∃ vs vs', us = vs ++ vs' ∧ senses bound vs = senses bound ts ∧
      senses bound vs' = senses bound ts' := by
  rw [senses, senses, List.map_append] at h
  exact List.map_eq_append_iff.mp h

theorem senses_nil (h : senses bound us = senses bound []) : us = [] := List.map_eq_nil_iff.mp h

/-- A token that is no word by itself is spelled in one way. -/
theorem lexeme_of_sense (h : u.lexeme.canonical bound = t.lexeme.canonical bound)
    (ht : t.lexeme.isAtom = false) : u.lexeme = t.lexeme := by
  have hkeep : t.lexeme.canonical bound = t.lexeme :=
    (Lexeme.eq_of_canonical rfl (by rw [Lexeme.isAtom_canonical, ht])).symm
  exact Lexeme.eq_of_canonical (h.trans hkeep) ht

theorem senses_mark {k : Lexeme} (hk : k.isAtom = false) (ht : t.lexeme = k)
    (h : senses bound us = senses bound (t :: ts)) :
    ∃ u us', us = u :: us' ∧ u.lexeme = k ∧ senses bound us' = senses bound ts := by
  obtain ⟨u, us', rfl, hu, hus'⟩ := senses_cons h
  exact ⟨u, us', rfl, (lexeme_of_sense hu (by rw [ht, hk])).trans ht, hus'⟩

theorem senses_gap (hg : Gap inside g) (h : senses bound us = senses bound g) : Gap inside us := by
  induction g generalizing us with
  | nil =>
      rw [senses_nil h]
      exact .nil
  | cons t g ih =>
      obtain ⟨hinside, ht, hg⟩ := gap_cons.mp hg
      obtain ⟨u, us, rfl, hu, h⟩ := senses_mark rfl ht h
      exact gap_cons.mpr ⟨hinside, hu, ih hg h⟩

end Senses

/-! ## Parts in canonical form -/

/-- What a part stands for, in canonical form. -/
def Part.canonical (bound : Text → Bool) : (part : Part) → part.Value → part.Value
  | .words, ws => Word.canonicalAll bound ws
  | .word, w => Word.canonical bound w
  | .members, ws => Word.canonicalAll bound ws
  | .term _, w => Word.canonical bound w
  | .bodies, bs => Word.canonicalBodies bound bs

namespace Derivation

variable {part : Part} {inside : Bool}

theorem strip_canonical_joined {w w' : Word} {ws ws' : List Word}
    (hw : (w'.canonical bound).strip = (w.canonical bound).strip)
    (hws : Word.stripAll (Word.canonicalAll bound ws') = Word.stripAll (Word.canonicalAll bound ws))
    (span span' : Span) : ((joined w' ws' span').canonical bound).strip =
      ((joined w ws span).canonical bound).strip := by
  have hjoined : ∀ (w : Word) (ws : List Word) (span : Span), (joined w ws span).canonical bound =
      joined (w.canonical bound) (Word.canonicalAll bound ws) span := by
    intro w ws span
    cases ws <;> rfl
  rw [hjoined, hjoined]
  exact strip_joined hw hws span span'

theorem strip_canonical_alternatives {b b' : List Word} {bs bs' : List (List Word)}
    (hb : Word.stripAll (Word.canonicalAll bound b') = Word.stripAll (Word.canonicalAll bound b))
    (hbs : Word.stripBodies (Word.canonicalBodies bound bs') =
      Word.stripBodies (Word.canonicalBodies bound bs)) (span span' : Span) :
    ((alternatives b' bs' span').canonical bound).strip =
      ((alternatives b bs span).canonical bound).strip := by
  have halternatives : ∀ (b : List Word) (bs : List (List Word)) (span : Span),
      (alternatives b bs span).canonical bound =
        alternatives (Word.canonicalAll bound b) (Word.canonicalBodies bound bs) span := by
    intro b bs span
    cases bs <;> rfl
  rw [halternatives, halternatives]
  exact strip_alternatives hb hbs span span'

theorem strip_leaf_canonical (path : Option Path) {t u : Token}
    (h : u.lexeme.canonical bound = t.lexeme.canonical bound) :
    ((u.leaf path).canonical bound).strip = ((t.leaf path).canonical bound).strip := by
  rw [← Token.leaf_canonical, ← Token.leaf_canonical]
  exact Token.strip_leaf path h

theorem isModifier_of_sense {t u : Token}
    (h : u.lexeme.canonical bound = t.lexeme.canonical bound) :
    u.lexeme.isModifier = t.lexeme.isModifier := by
  rw [← Lexeme.isModifier_canonical, h, Lexeme.isModifier_canonical]

/-! ### Trees by one rule -/

/-- Tokens that agree with those of the tree in canonical form make up the same part, with the same
words in canonical form. -/
def Respells (bound : Text → Bool) (path : Option Path) (d : Derivation part inside) : Prop :=
  ∀ {us : List Token}, senses bound us = senses bound d.tokens →
    ∃ d' : Derivation part inside, d'.tokens = us ∧
      part.strip (part.canonical bound (d'.value path)) =
        part.strip (part.canonical bound (d.value path))

variable {path : Option Path}

theorem respells_noWords {g : List Token} (hg : Gap inside g) :
    Respells bound path (noWords g hg) := by
  intro us h
  exact ⟨.noWords us (senses_gap hg h), rfl, rfl⟩

theorem respells_moreWords {g : List Token} (hg : Gap inside g) {w : Derivation .word inside}
    {ws : Derivation .words inside} (ihw : Respells bound path w)
    (ihws : Respells bound path ws) : Respells bound path (moreWords g hg w ws) := by
  intro us h
  obtain ⟨ug, us, rfl, hug, h₁⟩ := senses_append h
  obtain ⟨uw, us, rfl, huw, h₂⟩ := senses_append h₁
  obtain ⟨w', rfl, hw⟩ := ihw huw
  obtain ⟨ws', rfl, hws⟩ := ihws h₂
  exact ⟨.moreWords ug (senses_gap hg hug) w' ws', rfl, List.cons_eq_cons.mpr ⟨hw, hws⟩⟩

theorem respells_modified {t : Token} (ht : t.lexeme.isModifier = true) {g : List Token}
    (hg : Gap inside g) {w : Derivation .word inside} (ih : Respells bound path w) :
    Respells bound path (modified t ht g hg w) := by
  intro us h
  obtain ⟨u, us, rfl, hu, h₁⟩ := senses_cons h
  obtain ⟨ug, us, rfl, hug, h₂⟩ := senses_append h₁
  obtain ⟨w', rfl, hw⟩ := ih h₂
  refine ⟨.modified u ((isModifier_of_sense hu).trans ht) ug (senses_gap hg hug) w', rfl, ?_⟩
  show Word.modified ((u.leaf path).canonical bound).strip (Word.strip _) none =
    .modified ((t.leaf path).canonical bound).strip (Word.strip _) none
  rw [strip_leaf_canonical path hu]
  exact congrArg (Word.modified _ · none) hw

theorem respells_strand {w : Derivation (.term true) inside} {ws : Derivation .members inside}
    (ihw : Respells bound path w) (ihws : Respells bound path ws) :
    Respells bound path (strand w ws) := by
  intro us h
  obtain ⟨uw, us, rfl, huw, h₁⟩ := senses_append h
  obtain ⟨w', rfl, hw⟩ := ihw huw
  obtain ⟨ws', rfl, hws⟩ := ihws h₁
  exact ⟨.strand w' ws', rfl, strip_canonical_joined hw hws _ _⟩

theorem respells_noMembers :
    Respells bound path (noMembers : Derivation .members inside) := by
  intro us h
  obtain rfl := senses_nil h
  exact ⟨.noMembers, rfl, rfl⟩

theorem respells_moreMembers {t : Token} (ht : t.lexeme = .underscore) {g : List Token}
    (hg : Gap inside g) {w : Derivation (.term false) inside} {ws : Derivation .members inside}
    (ihw : Respells bound path w) (ihws : Respells bound path ws) :
    Respells bound path (moreMembers t ht g hg w ws) := by
  intro us h
  obtain ⟨u, us, rfl, hu, h₁⟩ := senses_mark rfl ht h
  obtain ⟨ug, us, rfl, hug, h₂⟩ := senses_append h₁
  obtain ⟨uw, us, rfl, huw, h₃⟩ := senses_append h₂
  obtain ⟨w', rfl, hw⟩ := ihw huw
  obtain ⟨ws', rfl, hws⟩ := ihws h₃
  exact ⟨.moreMembers u hu ug (senses_gap hg hug) w' ws', rfl, List.cons_eq_cons.mpr ⟨hw, hws⟩⟩

/-- The spellings of an atom are atoms that modify alike. -/
theorem respells_atom {leads : Bool} {t : Token} (ht : t.lexeme.isAtom = true)
    (hm : leads = true → t.lexeme.isModifier = false) :
    Respells bound path (atom t ht hm : Derivation (.term leads) inside) := by
  intro us h
  obtain ⟨u, us, rfl, hu, h₁⟩ := senses_cons h
  obtain rfl := senses_nil h₁
  have hatom : u.lexeme.isAtom = true := by
    rw [← Lexeme.isAtom_canonical, hu, Lexeme.isAtom_canonical, ht]
  exact ⟨.atom u hatom fun hl => (isModifier_of_sense hu).trans (hm hl), rfl,
    strip_leaf_canonical path hu⟩

theorem respells_array {leads : Bool} {o t : Token} (ho : o.lexeme = .openSquare)
    {ws : Derivation .words true} (ih : Respells bound path ws) (ht : t.lexeme = .closeSquare) :
    Respells bound path (array o ho ws t ht : Derivation (.term leads) inside) := by
  intro us h
  obtain ⟨o', us, rfl, ho', h₁⟩ := senses_mark rfl ho h
  obtain ⟨uws, us, rfl, huws, h₂⟩ := senses_append h₁
  obtain ⟨t', us, rfl, ht', h₃⟩ := senses_mark rfl ht h₂
  obtain rfl := senses_nil h₃
  obtain ⟨ws', rfl, hws⟩ := ih huws
  exact ⟨.array o' ho' ws' t' ht', rfl, congrArg (Word.array · none) hws⟩

theorem respells_func {leads : Bool} {o t : Token} (ho : o.lexeme = .openRound)
    {b : Derivation .words true} {bs : Derivation .bodies true} (ihb : Respells bound path b)
    (ihbs : Respells bound path bs) (ht : t.lexeme = .closeRound) :
    Respells bound path (func o ho b bs t ht : Derivation (.term leads) inside) := by
  intro us h
  obtain ⟨o', us, rfl, ho', h₁⟩ := senses_mark rfl ho h
  obtain ⟨ub, us, rfl, hub, h₂⟩ := senses_append h₁
  obtain ⟨ubs, us, rfl, hubs, h₃⟩ := senses_append h₂
  obtain ⟨t', us, rfl, ht', h₄⟩ := senses_mark rfl ht h₃
  obtain rfl := senses_nil h₄
  obtain ⟨b', rfl, hb⟩ := ihb hub
  obtain ⟨bs', rfl, hbs⟩ := ihbs hubs
  exact ⟨.func o' ho' b' bs' t' ht', rfl, strip_canonical_alternatives hb hbs _ _⟩

theorem respells_noBodies : Respells bound path (noBodies : Derivation .bodies inside) := by
  intro us h
  obtain rfl := senses_nil h
  exact ⟨.noBodies, rfl, rfl⟩

theorem respells_moreBodies {t : Token} (ht : t.lexeme = .pipe) {b : Derivation .words inside}
    {bs : Derivation .bodies inside} (ihb : Respells bound path b)
    (ihbs : Respells bound path bs) : Respells bound path (moreBodies t ht b bs) := by
  intro us h
  obtain ⟨u, us, rfl, hu, h₁⟩ := senses_mark rfl ht h
  obtain ⟨ub, us, rfl, hub, h₂⟩ := senses_append h₁
  obtain ⟨b', rfl, hb⟩ := ihb hub
  obtain ⟨bs', rfl, hbs⟩ := ihbs h₂
  exact ⟨.moreBodies u hu b' bs', rfl, List.cons_eq_cons.mpr ⟨hb, hbs⟩⟩

/-- Every tree may be respelled. By induction on the tree: marks are spelled in one way, so only its
atoms change. -/
theorem respelled (path : Option Path) (d : Derivation part inside) :
    Respells bound path d := by
  induction d with
  | noWords _ hg => exact respells_noWords hg
  | moreWords _ hg _ _ ihw ihws => exact respells_moreWords hg ihw ihws
  | modified _ ht _ hg _ ih => exact respells_modified ht hg ih
  | strand _ _ ihw ihws => exact respells_strand ihw ihws
  | noMembers => exact respells_noMembers
  | moreMembers _ ht _ hg _ _ ihw ihws => exact respells_moreMembers ht hg ihw ihws
  | atom _ ht hm => exact respells_atom ht hm
  | array _ ho _ _ ht ih => exact respells_array ho ih ht
  | func _ ho _ _ _ ht ihb ihbs => exact respells_func ho ihb ihbs ht
  | noBodies => exact respells_noBodies
  | moreBodies _ ht _ _ ihb ihbs => exact respells_moreBodies ht ihb ihbs

end Derivation

end GlyphFormat
