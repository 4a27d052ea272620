import GlyphFormat.Proofs.Grammar.Programs

/-!
# Derivation trees

`Derives` says that tokens make up a phrase, not how. Here the derivation itself is data: which rule
was taken at each place, and for which tokens. A tree holds the side conditions of its rules, so
every tree is one of the grammar; it spells its tokens (`Derivation.tokens`) and stands for words
(`Derivation.value`).

A phrase that has a tree is derived from the tokens of the tree (`Derivation.derives`), and tokens
that are derived are those of some tree (`Derives.hasTree`).
-/

namespace GlyphFormat

namespace Lexeme

/-- The lexeme is a word by itself. -/
def isAtom : Lexeme → Bool
  | .number _ | .char _ | .string _ | .ident _ | .selector _ | .primitive _ => true
  | _ => false

/-- A primitive that modifies, or the name of one. -/
def isModifier : Lexeme → Bool
  | .primitive p => p.isModifier
  | .ident n => Primitive.isModifierName n
  | _ => false

theorem startsWord_of_isAtom {l : Lexeme} (h : l.isAtom = true) : l.startsWord = true := by
  cases l <;> first | rfl | cases h

theorem isAtom_of_isModifier {l : Lexeme} (h : l.isModifier = true) : l.isAtom = true := by
  cases l <;> first | rfl | cases h

end Lexeme

namespace Token

variable {path : Option Path} {t : Token}

/-- The word of a token that is one by itself. -/
def leaf (path : Option Path) (t : Token) : Word := (t.atom? path).getD .missing

theorem atom?_eq_leaf (h : t.lexeme.isAtom = true) : t.atom? path = some (t.leaf path) := by
  unfold leaf atom?
  cases hl : t.lexeme <;> rw [hl] at h <;> first | rfl | cases h

theorem isAtom_of_atom? {w : Word} (h : t.atom? path = some w) : t.lexeme.isAtom = true := by
  unfold atom? at h
  cases hl : t.lexeme <;> rw [hl] at h <;> first | rfl | cases h

theorem modifier?_eq (path : Option Path) (t : Token) :
    t.modifier? path = if t.lexeme.isModifier = true then some (t.leaf path) else none := by
  unfold modifier? leaf atom?
  cases t.lexeme <;> rfl

theorem isModifier_of_modifier? {m : Word} (h : t.modifier? path = some m) :
    t.lexeme.isModifier = true := by
  rw [modifier?_eq] at h
  by_cases hm : t.lexeme.isModifier = true
  · exact hm
  · rw [if_neg hm] at h
    cases h

theorem modifier?_eq_none : t.modifier? path = none ↔ t.lexeme.isModifier = false := by
  rw [modifier?_eq]
  cases t.lexeme.isModifier <;> simp

end Token

/-! ## Trees of words -/

/-- What a piece of the grammar is. A term may be the one that leads its word. -/
inductive Part where
  | words
  | word
  /-- The further members of a strand. -/
  | members
  | term (leads : Bool)
  /-- The further bodies of a function. -/
  | bodies

/-- What a part stands for. -/
def Part.Value : Part → Type
  | .words | .members => List Word
  | .word | .term _ => Word
  | .bodies => List (List Word)

def Part.phrase : (part : Part) → part.Value → Phrase
  | .words, ws => .words ws
  | .word, w => .word w
  | .members, ws => .members ws
  | .term _, w => .term w
  | .bodies, bs => .bodies bs

/-- How tokens make up a part, inside brackets or outside. A modifier never leads a word: there it
takes the word behind it. -/
inductive Derivation : Part → Bool → Type
  | noWords {inside : Bool} (g : List Token) (hg : Gap inside g) : Derivation .words inside
  | moreWords {inside : Bool} (g : List Token) (hg : Gap inside g) (w : Derivation .word inside)
      (ws : Derivation .words inside) : Derivation .words inside
  | modified {inside : Bool} (t : Token) (ht : t.lexeme.isModifier = true) (g : List Token)
      (hg : Gap inside g) (w : Derivation .word inside) : Derivation .word inside
  | strand {inside : Bool} (w : Derivation (.term true) inside) (ws : Derivation .members inside) :
      Derivation .word inside
  | noMembers {inside : Bool} : Derivation .members inside
  | moreMembers {inside : Bool} (t : Token) (ht : t.lexeme = .underscore) (g : List Token)
      (hg : Gap inside g) (w : Derivation (.term false) inside) (ws : Derivation .members inside) :
      Derivation .members inside
  | atom {leads inside : Bool} (t : Token) (ht : t.lexeme.isAtom = true)
      (hm : leads = true → t.lexeme.isModifier = false) : Derivation (.term leads) inside
  | array {leads inside : Bool} (o : Token) (ho : o.lexeme = .openSquare)
      (ws : Derivation .words true) (t : Token) (ht : t.lexeme = .closeSquare) :
      Derivation (.term leads) inside
  | func {leads inside : Bool} (o : Token) (ho : o.lexeme = .openRound)
      (b : Derivation .words true) (bs : Derivation .bodies true) (t : Token)
      (ht : t.lexeme = .closeRound) : Derivation (.term leads) inside
  | noBodies {inside : Bool} : Derivation .bodies inside
  | moreBodies {inside : Bool} (t : Token) (ht : t.lexeme = .pipe) (b : Derivation .words inside)
      (bs : Derivation .bodies inside) : Derivation .bodies inside

namespace Derivation

variable {part : Part} {leads inside : Bool}

/-- The tokens of a tree, in order. -/
def tokens {part : Part} {inside : Bool} : Derivation part inside → List Token
  | .noWords g _ => g
  | .moreWords g _ w ws => g ++ (w.tokens ++ ws.tokens)
  | .modified t _ g _ w => t :: (g ++ w.tokens)
  | .strand w ws => w.tokens ++ ws.tokens
  | .noMembers => []
  | .moreMembers t _ g _ w ws => t :: (g ++ (w.tokens ++ ws.tokens))
  | .atom t _ _ => [t]
  | .array o _ ws t _ => o :: (ws.tokens ++ [t])
  | .func o _ b bs t _ => o :: (b.tokens ++ (bs.tokens ++ [t]))
  | .noBodies => []
  | .moreBodies t _ b bs => t :: (b.tokens ++ bs.tokens)

/-- A strand of one term is the term. -/
def joined (w : Word) (ws : List Word) (span : Span) : Word :=
  match ws with
  | [] => w
  | v :: vs => .strand (w :: v :: vs) span

/-- A function of one body has no alternatives. -/
def alternatives (b : List Word) (bs : List (List Word)) (span : Span) : Word :=
  match bs with
  | [] => .func b span
  | c :: cs => .funcArray (b :: c :: cs) span

/-- What a tree stands for; every node spans its own tokens. -/
def value (path : Option Path) {part : Part} {inside : Bool} :
    Derivation part inside → part.Value
  | .noWords _ _ => ([] : List Word)
  | .moreWords _ _ w ws => List.cons (w.value path) (ws.value path)
  | .modified t _ g _ w => Word.modified (t.leaf path) (w.value path)
      (Token.spanOver path (t :: (g ++ w.tokens)))
  | .strand w ws => joined (w.value path) (ws.value path)
      (Token.spanOver path (w.tokens ++ ws.tokens))
  | .noMembers => ([] : List Word)
  | .moreMembers _ _ _ _ w ws => List.cons (w.value path) (ws.value path)
  | .atom t _ _ => t.leaf path
  | .array o _ ws t _ => Word.array (ws.value path)
      (Token.spanOver path (o :: (ws.tokens ++ [t])))
  | .func o _ b bs t _ => alternatives (b.value path) (bs.value path)
      (Token.spanOver path (o :: (b.tokens ++ (bs.tokens ++ [t]))))
  | .noBodies => ([] : List (List Word))
  | .moreBodies _ _ b bs => List.cons (b.value path) (bs.value path)

/-! ## Trees and derived phrases -/

/-- A term has a first token, which begins a word and, where it leads one, is no modifier. -/
theorem first_term (d : Derivation (.term leads) inside) : ∃ t ts, d.tokens = t :: ts ∧
    t.lexeme.startsWord = true ∧ (leads = true → t.lexeme.isModifier = false) := by
  have hopen : ∀ {t : Token}, t.lexeme = .openSquare ∨ t.lexeme = .openRound →
      t.lexeme.startsWord = true ∧ t.lexeme.isModifier = false := by
    rintro t (ht | ht) <;> rw [ht] <;> exact ⟨rfl, rfl⟩
  cases d with
  | atom t ht hm => exact ⟨t, [], rfl, Lexeme.startsWord_of_isAtom ht, hm⟩
  | array o ho _ _ _ => exact ⟨o, _, rfl, (hopen (Or.inl ho)).1, fun _ => (hopen (Or.inl ho)).2⟩
  | func o ho _ _ _ _ => exact ⟨o, _, rfl, (hopen (Or.inr ho)).1, fun _ => (hopen (Or.inr ho)).2⟩

/-- What a tree stands for is derived from its tokens. -/
theorem derives (path : Option Path) (d : Derivation part inside) :
    Derives path inside (part.phrase (d.value path)) d.tokens := by
  induction d with
  | noWords g hg => exact .wordsNil hg
  | moreWords g hg w ws ihw ihws => exact .wordsCons hg ihw ihws
  | modified t ht g hg w ih =>
      refine .modified ?_ hg ih
      rw [Token.modifier?_eq, if_pos ht]
  | strand w ws ihw ihws =>
      obtain ⟨t, ts, hts, -, hm⟩ := w.first_term
      have hnone : t.modifier? path = none := Token.modifier?_eq_none.mpr (hm rfl)
      rw [hts] at ihw
      simp only [value, tokens, hts]
      cases hvs : (ws.value path : List Word) with
      | nil =>
          rw [hvs] at ihws
          generalize ws.tokens = us at ihws ⊢
          cases ihws
          rw [List.append_nil]
          exact .lone hnone ihw
      | cons v vs =>
          rw [hvs] at ihws
          exact .strand hnone ihw ihws
  | noMembers => exact .membersNil
  | moreMembers t ht g hg w ws ihw ihws => exact .membersCons ht hg ihw ihws
  | atom t ht hm => exact .atom (Token.atom?_eq_leaf ht)
  | array o ho ws t ht ih => exact .array ho ih ht
  | func o ho b bs t ht ihb ihbs =>
      simp only [value, tokens]
      cases hcs : (bs.value path : List (List Word)) with
      | nil =>
          rw [hcs] at ihbs
          generalize bs.tokens = us at ihbs ⊢
          cases ihbs
          exact .func ho ihb ht
      | cons c cs =>
          rw [hcs] at ihbs
          exact .funcArray ho ihb ihbs ht
  | noBodies => exact .bodiesNil
  | moreBodies t ht b bs ihb ihbs => exact .bodiesCons ht ihb ihbs

end Derivation

/-- There is a tree of the phrase that has these tokens. A term that leads its word must not begin
with a modifier. -/
def Phrase.HasTree (inside : Bool) (ts : List Token) : Phrase → Prop
  | .words _ => ∃ d : Derivation .words inside, d.tokens = ts
  | .word _ => ∃ d : Derivation .word inside, d.tokens = ts
  | .members _ => ∃ d : Derivation .members inside, d.tokens = ts
  | .term _ => ∀ leads : Bool, (leads = true → ∀ t ∈ ts.head?, t.lexeme.isModifier = false) →
      ∃ d : Derivation (.term leads) inside, d.tokens = ts
  | .bodies _ => ∃ d : Derivation .bodies inside, d.tokens = ts

/-- Derived tokens are those of a tree. -/
theorem Derives.hasTree {path : Option Path} {inside : Bool} {φ : Phrase} {ts : List Token}
    (h : Derives path inside φ ts) : φ.HasTree inside ts := by
  have hlead : ∀ {t : Token} {ts : List Token}, t.modifier? path = none →
      true = true → ∀ u ∈ (t :: ts).head?, u.lexeme.isModifier = false := by
    intro t ts hm _ u hu
    obtain rfl : t = u := Option.some.inj hu
    exact Token.modifier?_eq_none.mp hm
  induction h with
  | wordsNil hg => exact ⟨.noWords _ hg, rfl⟩
  | wordsCons hg _ _ ihw ihws =>
      obtain ⟨w, rfl⟩ := ihw
      obtain ⟨ws, rfl⟩ := ihws
      exact ⟨.moreWords _ hg w ws, rfl⟩
  | modified hm hg _ ih =>
      obtain ⟨w, rfl⟩ := ih
      exact ⟨.modified _ (Token.isModifier_of_modifier? hm) _ hg w, rfl⟩
  | lone hm _ ih =>
      obtain ⟨w, hw⟩ := ih true (hlead hm)
      refine ⟨.strand w .noMembers, ?_⟩
      rw [Derivation.tokens, hw, Derivation.tokens, List.append_nil]
  | strand hm _ _ ihw ihvs =>
      obtain ⟨w, hw⟩ := ihw true (hlead hm)
      obtain ⟨ws, rfl⟩ := ihvs
      exact ⟨.strand w ws, by rw [Derivation.tokens, hw]⟩
  | membersNil => exact ⟨.noMembers, rfl⟩
  | membersCons ht hg _ _ ihw ihws =>
      obtain ⟨w, rfl⟩ := ihw false nofun
      obtain ⟨ws, rfl⟩ := ihws
      exact ⟨.moreMembers _ ht _ hg w ws, rfl⟩
  | atom h =>
      exact fun leads hm => ⟨.atom _ (Token.isAtom_of_atom? h) fun hl => hm hl _ rfl, rfl⟩
  | array ho _ ht ih =>
      obtain ⟨ws, rfl⟩ := ih
      exact fun leads _ => ⟨.array _ ho ws _ ht, rfl⟩
  | func ho _ ht ih =>
      obtain ⟨b, rfl⟩ := ih
      exact fun leads _ => ⟨.func _ ho b .noBodies _ ht, rfl⟩
  | funcArray ho _ _ ht ihb ihbs =>
      obtain ⟨b, rfl⟩ := ihb
      obtain ⟨bs, rfl⟩ := ihbs
      exact fun leads _ => ⟨.func _ ho b bs _ ht, rfl⟩
  | bodiesNil => exact ⟨.noBodies, rfl⟩
  | bodiesCons ht _ _ ihb ihbs =>
      obtain ⟨b, rfl⟩ := ihb
      obtain ⟨bs, rfl⟩ := ihbs
      exact ⟨.moreBodies _ ht b bs, rfl⟩

end GlyphFormat
