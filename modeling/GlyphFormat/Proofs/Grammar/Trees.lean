import GlyphFormat.Proofs.Grammar.Programs
import GlyphFormat.Proofs.Tree.Canonical

/-!
# Derivations and trees

The grammar derives well-formed trees only (`Derives.formed`), and every well-formed tree is
derived, up to its spans, from any tokens that spell it (`Word.Formed.derives`).
-/

namespace GlyphFormat

/-! ## Leaves and tokens -/

namespace Token

variable {path : Option Path} {t : Token} {w m : Word}

/-- A modifier is the token's own word. -/
theorem atom?_of_modifier? (h : t.modifier? path = some m) :
    t.atom? path = some m ∧ m.isModifier = true := by
  unfold modifier? at h
  unfold atom?
  split at h
  · rename_i p hl
    rw [hl]
    by_cases hp : p.isModifier = true
    · rw [if_pos hp] at h
      exact ⟨h, by obtain rfl := Option.some.inj h; exact hp⟩
    · rw [if_neg hp] at h
      cases h
  · rename_i n hl
    rw [hl]
    by_cases hn : Primitive.isModifierName n = true
    · rw [if_pos hn] at h
      exact ⟨h, by obtain rfl := Option.some.inj h; exact hn⟩
    · rw [if_neg hn] at h
      cases h
  · cases h

theorem modifier?_of_atom? (h : t.atom? path = some w) (hw : w.isModifier = true) :
    t.modifier? path = some w := by
  unfold atom? at h
  unfold modifier?
  cases hl : t.lexeme <;> rw [hl] at h <;> cases h
  case ident n => exact if_pos hw
  case primitive p => exact if_pos hw
  all_goals cases hw

/-- The word of a valid token is a valid leaf. -/
theorem leafValid_of_atom? (h : t.atom? path = some w) (ht : t.lexeme.Valid) : w.LeafValid := by
  unfold atom? at h
  cases hl : t.lexeme <;> rw [hl] at h ht <;> cases h
  case selector letters =>
    refine ⟨fun hnil => ht.1 (List.map_eq_nil_iff.mp hnil), fun slot hslot => ?_⟩
    obtain ⟨c, hc, rfl⟩ := List.mem_map.mp hslot
    have := CodePoint.isSmallLetter_iff.mp (ht.2 c hc)
    unfold Selector.HasLetter
    omega
  all_goals exact ht

end Token

namespace Derives

variable {path : Option Path} {inside : Bool} {ts : List Token} {t : Token} {w : Word}

/-- The first token of a term modifies exactly when the term is a modifier. -/
theorem modifier_term (h : Derives path inside (.term w) (t :: ts)) :
    t.modifier? path = none ↔ w.isModifier = false := by
  have hbracket : t.lexeme = .openSquare ∨ t.lexeme = .openRound → t.modifier? path = none := by
    unfold Token.modifier?
    rintro (h | h) <;> rw [h]
  cases h with
  | atom h =>
      constructor
      · intro hnone
        refine Bool.eq_false_iff.mpr fun hw => ?_
        rw [Token.modifier?_of_atom? h hw] at hnone
        cases hnone
      · intro hw
        cases hm : t.modifier? path with
        | none => rfl
        | some m =>
            obtain ⟨hatom, hmod⟩ := Token.atom?_of_modifier? hm
            obtain rfl := Option.some.inj (h.symm.trans hatom)
            exact absurd (hw.symm.trans hmod) (by decide)
  | array ho _ _ => exact ⟨fun _ => rfl, fun _ => hbracket (Or.inl ho)⟩
  | func ho _ _ => exact ⟨fun _ => rfl, fun _ => hbracket (Or.inr ho)⟩
  | funcArray ho _ _ _ => exact ⟨fun _ => rfl, fun _ => hbracket (Or.inr ho)⟩

end Derives

/-! ## Derived trees are well formed -/

/-- Every word of the phrase is well formed at its place. -/
def Phrase.Formed : Phrase → Prop
  | .words ws => ∀ w ∈ ws, w.WellFormed
  | .word w => w.WellFormed
  | .members ws => ∀ w ∈ ws, w.Formed .member
  | .term w => w.Formed .member
  | .bodies bs => ∀ b ∈ bs, ∀ w ∈ b, w.WellFormed

/-- Tokens of a scan: all but the end of input have valid lexemes. -/
def TokensValid (ts : List Token) : Prop :=
  ∀ t ∈ ts, t.lexeme ≠ .endOfInput → t.lexeme.Valid

theorem TokensValid.append {ts us : List Token} (h : TokensValid (ts ++ us)) :
    TokensValid ts ∧ TokensValid us := List.forall_mem_append.mp h

theorem TokensValid.tail {t : Token} {ts : List Token} (h : TokensValid (t :: ts)) :
    TokensValid ts := (List.forall_mem_cons.mp h).2

namespace Derives

variable {path : Option Path} {inside : Bool} {ts : List Token}

theorem formed {φ : Phrase} (h : Derives path inside φ ts) (hts : TokensValid ts) : φ.Formed := by
  have hleaf : ∀ {t : Token} {ts : List Token} {w : Word}, TokensValid (t :: ts) →
      t.atom? path = some w → w.LeafValid := fun hts h =>
    Token.leafValid_of_atom? h (hts _ List.mem_cons_self (Token.ne_end_of_atom? h))
  induction h with
  | wordsNil _ => exact fun w hw => absurd hw List.not_mem_nil
  | wordsCons _ _ _ ihw ihws =>
      obtain ⟨-, hrest⟩ := hts.append
      obtain ⟨hw, hws⟩ := hrest.append
      exact List.forall_mem_cons.mpr ⟨ihw hw, ihws hws⟩
  | modified hm _ _ ih =>
      obtain ⟨hatom, hmod⟩ := Token.atom?_of_modifier? hm
      exact .modified (hleaf hts hatom) hmod (ih hts.tail.append.2)
  | lone hm hw ih => exact (ih hts).alone (hw.modifier_term.mp hm)
  | strand hm hw _ ihw ihvs =>
      obtain ⟨hterm, hmembers⟩ := hts.append
      refine .strand (by simp) (hw.modifier_term.mp hm) ?_
      exact List.forall_mem_cons.mpr ⟨ihw hterm, ihvs hmembers⟩
  | membersNil => exact fun w hw => absurd hw List.not_mem_nil
  | membersCons _ _ _ _ ihw ihws =>
      obtain ⟨hw, hws⟩ := hts.tail.append.2.append
      exact List.forall_mem_cons.mpr ⟨ihw hw, ihws hws⟩
  | atom h => exact .leaf (hleaf hts h) nofun
  | array _ _ _ ih => exact .array (ih hts.tail.append.1)
  | func _ _ _ ih => exact .func (ih hts.tail.append.1)
  | funcArray _ _ _ _ ihb ihbs =>
      obtain ⟨hb, hrest⟩ := hts.tail.append
      refine .funcArray (by simp) ?_
      exact List.forall_mem_cons.mpr ⟨ihb hb, ihbs hrest.append.1⟩
  | bodiesNil => exact fun b hb => absurd hb List.not_mem_nil
  | bodiesCons _ _ _ ihb ihbs =>
      obtain ⟨hb, hbs⟩ := hts.tail.append
      exact List.forall_mem_cons.mpr ⟨ihb hb, ihbs hbs⟩

end Derives

/-! ## Well-formed trees are derived -/

theorem Mark.filterMap_punctuation (l : Lexeme) (ms : List Mark) :
    (Mark.punctuation l :: ms).filterMap Mark.lexeme? = l :: ms.filterMap Mark.lexeme? := rfl

namespace Word

/-- The lexemes of a word as it stands, every name spelled out. -/
def spelling (w : Word) : List Lexeme := w.marks.filterMap Mark.lexeme?

/-- The phrase of a word at its place. -/
def Position.phrase : Position → Word → Phrase
  | .alone, w => .word w
  | .member, w => .term w

theorem isModifier_strip (w : Word) : w.strip.isModifier = w.isModifier := by
  cases w <;> rfl

theorem isModifier_congr {v w : Word} (h : v.strip = w.strip) : v.isModifier = w.isModifier := by
  rw [← isModifier_strip v, h, isModifier_strip]

variable {path : Option Path} {inside : Bool} {ts : List Token}

/-- A valid leaf is the word of a token that spells it. -/
theorem LeafValid.atom {w : Word} (h : w.LeafValid) (path : Option Path)
    (hts : ts.map Token.lexeme = w.spelling) :
    ∃ t v, ts = [t] ∧ t.atom? path = some v ∧ v.strip = w.strip := by
  have hone : ∀ {l : Lexeme}, w.spelling = [l] →
      (∀ t : Token, t.lexeme = l → (t.atom? path).map strip = some w.strip) →
        ∃ t v, ts = [t] ∧ t.atom? path = some v ∧ v.strip = w.strip := by
    intro l hl hatom
    rw [hl] at hts
    obtain ⟨t, rfl, ht⟩ := List.map_eq_singleton_iff.mp hts
    obtain ⟨v, hv, hstrip⟩ := Option.map_eq_some_iff.mp (hatom t ht)
    exact ⟨t, v, rfl, hv, hstrip⟩
  cases w with
  | number _ _ | char _ _ | string _ _ | ident _ _ =>
      refine hone rfl fun t ht => ?_
      rw [Token.atom?, ht]
      rfl
  | selector s span =>
      obtain ⟨letters, hletters, -, rfl⟩ := Selector.characters?_of_hasLetter h.2
      refine hone (l := .selector letters) ?_ fun _ ht => ?_
      · simp [spelling, marks, Mark.lexeme?, hletters]
      · rw [Token.atom?, ht]
        rfl
  | prim p span =>
      have hg : p.glyph?.isSome = true := h
      refine hone (l := .primitive p) ?_ fun t ht => ?_
      · simp [spelling, marks, Mark.lexeme?, hg]
      · rw [Token.atom?, ht]
        rfl
  | strand _ _ | array _ _ | func _ _ | funcArray _ _ | modified _ _ _ | missing => exact h.elim

/-- A term that is no modifier is a word by itself. -/
theorem derives_phrase {place : Position} {w : Word} (h : Derives path inside (.term w) ts)
    (hm : place = .alone → w.isModifier = false) : Derives path inside (place.phrase w) ts := by
  cases place with
  | member => exact h
  | alone =>
      obtain ⟨t, us, rfl, -⟩ := h.first_term
      exact .lone (h.modifier_term.mpr (hm rfl)) h

/-- Tokens that spell the word make it up, except for its spans. -/
def Derivable (place : Position) (w : Word) : Prop :=
  ∀ (path : Option Path) (inside : Bool) (ts : List Token), ts.map Token.lexeme = w.spelling →
    ∃ v, v.strip = w.strip ∧ Derives path inside (place.phrase v) ts

theorem derives_words {ws : List Word} (h : ∀ w ∈ ws, w.Derivable .alone)
    (hts : ts.map Token.lexeme = (marksOfAll ws).filterMap Mark.lexeme?) :
    ∃ vs, stripAll vs = stripAll ws ∧ Derives path inside (.words vs) ts := by
  induction ws generalizing ts with
  | nil =>
      obtain rfl := List.map_eq_nil_iff.mp hts
      exact ⟨[], rfl, .wordsNil .nil⟩
  | cons w ws ih =>
      rw [marksOfAll, List.filterMap_append] at hts
      obtain ⟨us, rs, rfl, hus, hrs⟩ := List.map_eq_append_iff.mp hts
      obtain ⟨v, hv, hder⟩ := h w List.mem_cons_self path inside us hus
      obtain ⟨vs, hvs, hders⟩ := ih (fun u hu => h u (List.mem_cons_of_mem _ hu)) hrs
      refine ⟨v :: vs, ?_, .wordsCons .nil hder hders⟩
      rw [stripAll, stripAll, hv, hvs]

theorem derives_members {ws : List Word} (h : ∀ w ∈ ws, w.Derivable .member)
    (hts : ts.map Token.lexeme = (marksOfMembers ws).filterMap Mark.lexeme?) :
    ∃ vs, stripAll vs = stripAll ws ∧ Derives path inside (.members vs) ts := by
  induction ws generalizing ts with
  | nil =>
      obtain rfl := List.map_eq_nil_iff.mp hts
      exact ⟨[], rfl, .membersNil⟩
  | cons w ws ih =>
      have hcons : (marksOfMembers (w :: ws)).filterMap Mark.lexeme? =
          Lexeme.underscore :: (w.spelling ++ (marksOfMembers ws).filterMap Mark.lexeme?) := by
        rw [marksOfMembers, Mark.filterMap_punctuation, List.filterMap_append]
        rfl
      rw [hcons] at hts
      obtain ⟨t, ts, rfl, ht, hts⟩ := List.map_eq_cons_iff.mp hts
      obtain ⟨us, rs, rfl, hus, hrs⟩ := List.map_eq_append_iff.mp hts
      obtain ⟨v, hv, hder⟩ := h w List.mem_cons_self path inside us hus
      obtain ⟨vs, hvs, hders⟩ := ih (fun u hu => h u (List.mem_cons_of_mem _ hu)) hrs
      refine ⟨v :: vs, ?_, .membersCons ht .nil hder hders⟩
      rw [stripAll, stripAll, hv, hvs]

theorem derives_bodies {bs : List (List Word)} (h : ∀ b ∈ bs, ∀ w ∈ b, w.Derivable .alone)
    (hts : ts.map Token.lexeme = (marksOfBodies bs).filterMap Mark.lexeme?) :
    ∃ cs, stripBodies cs = stripBodies bs ∧ Derives path inside (.bodies cs) ts := by
  induction bs generalizing ts with
  | nil =>
      obtain rfl := List.map_eq_nil_iff.mp hts
      exact ⟨[], rfl, .bodiesNil⟩
  | cons b bs ih =>
      have hcons : (marksOfBodies (b :: bs)).filterMap Mark.lexeme? =
          Lexeme.pipe :: ((marksOfAll b).filterMap Mark.lexeme? ++
            (marksOfBodies bs).filterMap Mark.lexeme?) := by
        rw [marksOfBodies, Mark.filterMap_punctuation, List.filterMap_append]
      rw [hcons] at hts
      obtain ⟨t, ts, rfl, ht, hts⟩ := List.map_eq_cons_iff.mp hts
      obtain ⟨us, rs, rfl, hus, hrs⟩ := List.map_eq_append_iff.mp hts
      obtain ⟨c, hc, hder⟩ := derives_words (h b List.mem_cons_self) hus
      obtain ⟨cs, hcs, hders⟩ := ih (fun u hu => h u (List.mem_cons_of_mem _ hu)) hrs
      refine ⟨c :: cs, ?_, .bodiesCons ht hder hders⟩
      rw [stripBodies, stripBodies, hc, hcs]

/-- Tokens that spell what stands between brackets. -/
theorem map_eq_bracketed {o c : Lexeme} {ls : List Lexeme}
    (hts : ts.map Token.lexeme = o :: (ls ++ [c])) :
    ∃ t us u, ts = t :: (us ++ [u]) ∧ t.lexeme = o ∧ us.map Token.lexeme = ls ∧
      u.lexeme = c := by
  obtain ⟨t, ts, rfl, ht, hts⟩ := List.map_eq_cons_iff.mp hts
  obtain ⟨us, vs, rfl, hus, hvs⟩ := List.map_eq_append_iff.mp hts
  obtain ⟨u, rfl, hu⟩ := List.map_eq_singleton_iff.mp hvs
  exact ⟨t, us, u, rfl, ht, hus, hu⟩

/-! ### Words by one rule -/

theorem derivable_leaf {place : Position} {w : Word} (hw : w.LeafValid)
    (hm : place = .alone → w.isModifier = false) : w.Derivable place := by
  intro path inside ts hts
  obtain ⟨t, v, rfl, hatom, hstrip⟩ := hw.atom path hts
  refine ⟨v, hstrip, derives_phrase (.atom hatom) fun hp => ?_⟩
  rw [isModifier_congr hstrip]
  exact hm hp

theorem spelling_strand (w : Word) (ws : List Word) (span : Option Span) :
    spelling (.strand (w :: ws) span) =
      w.spelling ++ (marksOfMembers ws).filterMap Mark.lexeme? := by
  rw [spelling, marks, List.filterMap_append, List.filterMap_append]
  exact congrArg _ (List.append_nil _)

theorem derivable_strand {w : Word} {ws : List Word} {span : Option Span} (hne : ws ≠ [])
    (hm : w.isModifier = false) (ih : ∀ u ∈ w :: ws, u.Derivable .member) :
    (Word.strand (w :: ws) span).Derivable .alone := by
  intro path inside ts hts
  rw [spelling_strand] at hts
  obtain ⟨us, rs, rfl, hus, hrs⟩ := List.map_eq_append_iff.mp hts
  obtain ⟨v, hv, hder⟩ := ih w List.mem_cons_self path inside us hus
  obtain ⟨vs, hvs, hders⟩ := derives_members (fun u hu => ih u (List.mem_cons_of_mem _ hu)) hrs
  obtain ⟨t, us, rfl, -⟩ := Derives.first_term hder
  have hmod : t.modifier? path = none :=
    (Derives.modifier_term hder).mpr ((isModifier_congr hv).trans hm)
  cases vs with
  | nil =>
      cases ws with
      | nil => exact absurd rfl hne
      | cons _ _ => cases hvs
  | cons v' vs =>
      refine ⟨_, ?_, .strand hmod hder hders⟩
      rw [strip, strip, stripAll, hv, hvs, stripAll]

theorem spelling_array (ws : List Word) (span : Option Span) :
    spelling (.array ws span) = Lexeme.openSquare ::
      ((marksOfAll ws).filterMap Mark.lexeme? ++ [Lexeme.closeSquare]) := by
  rw [spelling, marks, Mark.filterMap_punctuation, List.filterMap_append]
  rfl

theorem derivable_array {place : Position} {ws : List Word} {span : Option Span}
    (ih : ∀ w ∈ ws, w.Derivable .alone) : (Word.array ws span).Derivable place := by
  intro path inside ts hts
  rw [spelling_array] at hts
  obtain ⟨t, us, u, rfl, ht, hus, hu⟩ := map_eq_bracketed hts
  obtain ⟨vs, hvs, hder⟩ := derives_words ih hus
  refine ⟨_, ?_, derives_phrase (.array ht hder hu) fun _ => rfl⟩
  rw [strip, strip, hvs]

theorem spelling_func (ws : List Word) (span : Option Span) :
    spelling (.func ws span) = Lexeme.openRound ::
      ((marksOfAll ws).filterMap Mark.lexeme? ++ [Lexeme.closeRound]) := by
  rw [spelling, marks, Mark.filterMap_punctuation, List.filterMap_append]
  rfl

theorem derivable_func {place : Position} {ws : List Word} {span : Option Span}
    (ih : ∀ w ∈ ws, w.Derivable .alone) : (Word.func ws span).Derivable place := by
  intro path inside ts hts
  rw [spelling_func] at hts
  obtain ⟨t, us, u, rfl, ht, hus, hu⟩ := map_eq_bracketed hts
  obtain ⟨vs, hvs, hder⟩ := derives_words ih hus
  refine ⟨_, ?_, derives_phrase (.func ht hder hu) fun _ => rfl⟩
  rw [strip, strip, hvs]

theorem spelling_funcArray (b b' : List Word) (bs : List (List Word)) (span : Option Span) :
    spelling (.funcArray (b :: b' :: bs) span) = Lexeme.openRound ::
      (((marksOfAll b).filterMap Mark.lexeme? ++
        (marksOfBodies (b' :: bs)).filterMap Mark.lexeme?) ++ [Lexeme.closeRound]) := by
  rw [spelling, marks, Mark.filterMap_punctuation, List.filterMap_append,
    List.filterMap_append, List.append_assoc]
  rfl

theorem derivable_funcArray {place : Position} {b b' : List Word} {bs : List (List Word)}
    {span : Option Span} (ih : ∀ c ∈ b :: b' :: bs, ∀ w ∈ c, w.Derivable .alone) :
    (Word.funcArray (b :: b' :: bs) span).Derivable place := by
  intro path inside ts hts
  rw [spelling_funcArray] at hts
  obtain ⟨t, us, u, rfl, ht, hus, hu⟩ := map_eq_bracketed hts
  obtain ⟨rs, qs, rfl, hrs, hqs⟩ := List.map_eq_append_iff.mp hus
  obtain ⟨c, hc, hder⟩ := derives_words (ih b List.mem_cons_self) hrs
  obtain ⟨cs, hcs, hders⟩ := derives_bodies (fun d hd => ih d (List.mem_cons_of_mem _ hd)) hqs
  cases cs with
  | nil => cases hcs
  | cons c' cs =>
      rw [List.append_assoc]
      refine ⟨_, ?_, derives_phrase (.funcArray ht hder hders hu) fun _ => rfl⟩
      show Word.funcArray (stripAll c :: stripBodies (c' :: cs)) none = _
      rw [hc, hcs]
      rfl

theorem derivable_modified {m w : Word} {span : Option Span} (hm : m.LeafValid)
    (hmod : m.isModifier = true) (ih : w.Derivable .alone) :
    (Word.modified m w span).Derivable .alone := by
  intro path inside ts hts
  have hspell : spelling (.modified m w span) = m.spelling ++ w.spelling :=
    List.filterMap_append
  rw [hspell] at hts
  obtain ⟨us, rs, rfl, hus, hrs⟩ := List.map_eq_append_iff.mp hts
  obtain ⟨t, v, rfl, hatom, hstrip⟩ := hm.atom path hus
  obtain ⟨u, hu, hder⟩ := ih path inside rs hrs
  have hmodifier : t.modifier? path = some v :=
    Token.modifier?_of_atom? hatom ((isModifier_congr hstrip).trans hmod)
  refine ⟨_, ?_, .modified (g := []) hmodifier .nil hder⟩
  rw [strip, strip, hstrip, hu]

/-- A well-formed word is derived from any tokens that spell it. By induction on the word: at each
place the grammar of that place applies. -/
theorem Formed.derives {place : Position} {w : Word} (h : Formed place w) :
    w.Derivable place := by
  induction h with
  | leaf hw hm => exact derivable_leaf hw hm
  | strand hne hm _ ih => exact derivable_strand hne hm ih
  | array _ ih => exact derivable_array ih
  | func _ ih => exact derivable_func ih
  | @funcArray _ bs _ hlen _ ih =>
      match bs, hlen with
      | b :: b' :: bs, _ => exact derivable_funcArray ih
  | modified hm hmod _ ih => exact derivable_modified hm hmod ih

end Word

end GlyphFormat
