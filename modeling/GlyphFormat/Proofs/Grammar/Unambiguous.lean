import GlyphFormat.Proofs.Grammar.Derivation

/-!
# Trees and their tokens

Tokens have one tree at most. For trees of words this is stated in front of more tokens, as the
parts of a tree stand in front of one another: where the tokens behind a part do not go on with it
(`Part.Ends`), both the tree and what is left are determined (`Derivation.cancel`).
-/

namespace GlyphFormat

/-- No word begins here and none goes on; where line breaks do not count, none stands here. -/
structure Lexeme.EndsWords (inside : Bool) (l : Lexeme) : Prop where
  startsWord : l.startsWord = false
  underscore : l ≠ .underscore
  newline : inside = true → l ≠ .newline

/-- A token that does not go on with the part. -/
def Part.EndsAt (inside : Bool) (t : Token) : Part → Prop
  | .words => t.lexeme.EndsWords inside
  | .word | .members => t.lexeme ≠ .underscore
  | .term _ => True
  | .bodies => t.lexeme ≠ .pipe ∧ t.lexeme.EndsWords inside

/-- The tokens do not go on with the part. -/
def Part.Ends (part : Part) (inside : Bool) (ts : List Token) : Prop :=
  ∀ t ∈ ts.head?, part.EndsAt inside t

/-- A token that no line break stands for. -/
def Counts (inside : Bool) (ts : List Token) : Prop :=
  inside = true → ∀ t ∈ ts.head?, t.lexeme ≠ .newline

theorem Gap.cancel {inside : Bool} {g g' ts ts' : List Token} (hg : Gap inside g)
    (hg' : Gap inside g') (hts : Counts inside ts) (hts' : Counts inside ts')
    (h : g ++ ts = g' ++ ts') : g = g' ∧ ts = ts' := by
  have hclash : ∀ {t : Token} {g us : List Token}, Gap inside (t :: g) →
      ¬Counts inside (t :: us) := by
    intro t g us hg hus
    obtain ⟨hinside, ht, -⟩ := gap_cons.mp hg
    exact hus hinside t rfl ht
  induction g generalizing g' with
  | nil =>
      cases g' with
      | nil => exact ⟨rfl, h⟩
      | cons t g' =>
          rw [show ts = t :: (g' ++ ts') from h] at hts
          exact absurd hts (hclash hg')
  | cons t g ih =>
      cases g' with
      | nil =>
          rw [show ts' = t :: (g ++ ts) from h.symm] at hts'
          exact absurd hts' (hclash hg)
      | cons t' g' =>
          obtain ⟨rfl, htail⟩ := List.cons.inj h
          obtain ⟨rfl, rfl⟩ := ih (gap_cons.mp hg).2.2 (gap_cons.mp hg').2.2 htail
          exact ⟨rfl, rfl⟩

theorem counts_of_startsWord {inside : Bool} {t : Token} {ts : List Token}
    (h : t.lexeme.startsWord = true) : Counts inside (t :: ts) := by
  intro _ u hu hl
  obtain rfl : t = u := Option.some.inj hu
  rw [hl] at h
  cases h

theorem Part.Ends.cons {part : Part} {inside : Bool} {t : Token} {ts : List Token}
    (h : part.EndsAt inside t) : part.Ends inside (t :: ts) := by
  intro u hu
  obtain rfl : t = u := Option.some.inj hu
  exact h

/-- What ends words begins none, so it counts. -/
theorem Part.Ends.counts {inside : Bool} {ts : List Token} (h : Part.words.Ends inside ts) :
    Counts inside ts := fun hi t ht => (h t ht).newline hi

/-- Closing brackets and bars end words. -/
theorem endsWords_of_mark {inside : Bool} {t : Token}
    (h : t.lexeme = .closeSquare ∨ t.lexeme = .closeRound ∨ t.lexeme = .pipe) :
    t.lexeme.EndsWords inside := by
  rcases h with h | h | h <;> rw [h] <;> exact ⟨rfl, nofun, fun _ => nofun⟩

namespace Derivation

variable {part : Part} {inside : Bool} {ts : List Token}

theorem first_word (d : Derivation .word inside) :
    ∃ t ts, d.tokens = t :: ts ∧ t.lexeme.startsWord = true := by
  cases d with
  | modified t ht _ _ _ =>
      exact ⟨t, _, rfl, Lexeme.startsWord_of_isAtom (Lexeme.isAtom_of_isModifier ht)⟩
  | strand w ws =>
      obtain ⟨t, ts, hts, ht, -⟩ := w.first_term
      exact ⟨t, ts ++ ws.tokens, by rw [tokens, hts]; rfl, ht⟩

theorem counts_word (d : Derivation .word inside) : Counts inside (d.tokens ++ ts) := by
  obtain ⟨t, us, hus, ht⟩ := d.first_word
  rw [hus]
  exact counts_of_startsWord ht

theorem counts_term {leads : Bool} (d : Derivation (.term leads) inside) :
    Counts inside (d.tokens ++ ts) := by
  obtain ⟨t, us, hus, ht, -⟩ := d.first_term
  rw [hus]
  exact counts_of_startsWord ht

/-- A word does not end words. -/
theorem not_ends_words (d : Derivation .word inside) :
    ¬Part.words.Ends inside (d.tokens ++ ts) := by
  obtain ⟨t, us, hus, ht⟩ := d.first_word
  rw [hus]
  exact fun h => absurd ((h t rfl).startsWord.symm.trans ht) (by decide)

/-- Further words do not go on with the word in front of them. -/
theorem ends_word (d : Derivation .words inside) (h : Part.words.Ends inside ts) :
    Part.word.Ends inside (d.tokens ++ ts) := by
  have hgap : ∀ {g us : List Token}, Gap inside g → Part.word.Ends inside us →
      Part.word.Ends inside (g ++ us) := by
    intro g us hg hus
    cases g with
    | nil => exact hus
    | cons t g => exact .cons (by rw [Part.EndsAt, hg.1 t List.mem_cons_self]; rintro ⟨⟩)
  cases d with
  | noWords g hg => exact hgap hg fun t ht => (h t ht).underscore
  | moreWords g hg w ws =>
      obtain ⟨t, us, hus, ht⟩ := w.first_word
      rw [tokens, List.append_assoc, hus]
      refine hgap hg (.cons fun hl => ?_)
      rw [hl] at ht
      cases ht

/-- Further bodies do not go on with the words in front of them. -/
theorem ends_words (d : Derivation .bodies inside) (h : Part.bodies.Ends inside ts) :
    Part.words.Ends inside (d.tokens ++ ts) := by
  cases d with
  | noBodies => exact fun t ht => (h t ht).2
  | moreBodies t ht _ _ => exact .cons (endsWords_of_mark (Or.inr (Or.inr ht)))

/-- A modifier does not lead a strand. -/
theorem modifier_ne_strand {t : Token} {w : Derivation (.term true) inside} {us vs : List Token}
    (ht : t.lexeme.isModifier = true) (h : t :: us = w.tokens ++ vs) : False := by
  obtain ⟨u, ts, hts, -, hu⟩ := w.first_term
  rw [hts] at h
  obtain ⟨rfl, -⟩ := List.cons.inj h
  exact absurd (ht.symm.trans (hu rfl)) (by decide)

/-- Where words end, none begins behind line breaks. -/
theorem gap_ne_word {g g' us : List Token} {w : Derivation .word inside} (hg : Gap inside g)
    (hg' : Gap inside g') (hts : Part.words.Ends inside ts)
    (h : g ++ ts = g' ++ (w.tokens ++ us)) : False := by
  obtain ⟨-, rfl⟩ := hg.cancel hg' hts.counts w.counts_word h
  exact w.not_ends_words hts

/-! ### Trees by one rule -/

/-- In front of tokens that do not go on with it, the part has this tree alone. -/
def Cancels (d : Derivation part inside) : Prop :=
  ∀ {d' : Derivation part inside} {ts ts' : List Token}, part.Ends inside ts →
    part.Ends inside ts' → d.tokens ++ ts = d'.tokens ++ ts' → d = d' ∧ ts = ts'

theorem cancels_noWords (g : List Token) (hg : Gap inside g) : (noWords g hg).Cancels := by
  intro d' ts ts' hts hts' h
  cases d' with
  | noWords g' hg' =>
      obtain ⟨rfl, rfl⟩ := hg.cancel hg' hts.counts hts'.counts h
      exact ⟨rfl, rfl⟩
  | moreWords g' hg' w ws =>
      simp only [tokens, List.append_assoc] at h
      exact (gap_ne_word hg hg' hts h).elim

theorem cancels_moreWords (g : List Token) (hg : Gap inside g) {w : Derivation .word inside}
    {ws : Derivation .words inside} (ihw : w.Cancels) (ihws : ws.Cancels) :
    (moreWords g hg w ws).Cancels := by
  intro d' ts ts' hts hts' h
  cases d' with
  | noWords g' hg' =>
      simp only [tokens, List.append_assoc] at h
      exact (gap_ne_word hg' hg hts' h.symm).elim
  | moreWords g' hg' w' ws' =>
      simp only [tokens, List.append_assoc] at h
      obtain ⟨rfl, hword⟩ := hg.cancel hg' w.counts_word w'.counts_word h
      obtain ⟨rfl, hwords⟩ := ihw (ws.ends_word hts) (ws'.ends_word hts') hword
      obtain ⟨rfl, rfl⟩ := ihws hts hts' hwords
      exact ⟨rfl, rfl⟩

theorem cancels_modified (t : Token) (ht : t.lexeme.isModifier = true) (g : List Token)
    (hg : Gap inside g) {w : Derivation .word inside} (ih : w.Cancels) :
    (modified t ht g hg w).Cancels := by
  intro d' ts ts' hts hts' h
  cases d' with
  | modified t' ht' g' hg' w' =>
      simp only [tokens, List.append_assoc, List.cons_append] at h
      obtain ⟨rfl, hgap⟩ := List.cons.inj h
      obtain ⟨rfl, hword⟩ := hg.cancel hg' w.counts_word w'.counts_word hgap
      obtain ⟨rfl, rfl⟩ := ih hts hts' hword
      exact ⟨rfl, rfl⟩
  | strand w' ws' =>
      simp only [tokens, List.append_assoc, List.cons_append] at h
      exact (modifier_ne_strand ht h).elim

theorem cancels_strand {w : Derivation (.term true) inside} {ws : Derivation .members inside}
    (ihw : w.Cancels) (ihws : ws.Cancels) : (strand w ws).Cancels := by
  intro d' ts ts' hts hts' h
  cases d' with
  | modified t' ht' g' hg' w' =>
      simp only [tokens, List.append_assoc, List.cons_append] at h
      exact (modifier_ne_strand ht' h.symm).elim
  | strand w' ws' =>
      simp only [tokens, List.append_assoc] at h
      obtain ⟨rfl, hmembers⟩ := ihw (fun _ _ => trivial) (fun _ _ => trivial) h
      obtain ⟨rfl, rfl⟩ := ihws hts hts' hmembers
      exact ⟨rfl, rfl⟩

theorem cancels_noMembers : (noMembers : Derivation .members inside).Cancels := by
  intro d' ts ts' hts hts' h
  cases d' with
  | noMembers => exact ⟨rfl, h⟩
  | moreMembers t ht g hg w ws =>
      obtain rfl := h
      exact absurd ht (hts t rfl)

theorem cancels_moreMembers (t : Token) (ht : t.lexeme = .underscore) (g : List Token)
    (hg : Gap inside g) {w : Derivation (.term false) inside} {ws : Derivation .members inside}
    (ihw : w.Cancels) (ihws : ws.Cancels) : (moreMembers t ht g hg w ws).Cancels := by
  intro d' ts ts' hts hts' h
  cases d' with
  | noMembers =>
      obtain rfl := h
      exact absurd ht (hts' t rfl)
  | moreMembers t' ht' g' hg' w' ws' =>
      simp only [tokens, List.append_assoc, List.cons_append] at h
      obtain ⟨rfl, hgap⟩ := List.cons.inj h
      obtain ⟨rfl, hterm⟩ := hg.cancel hg' w.counts_term w'.counts_term hgap
      obtain ⟨rfl, hmembers⟩ := ihw (fun _ _ => trivial) (fun _ _ => trivial) hterm
      obtain ⟨rfl, rfl⟩ := ihws hts hts' hmembers
      exact ⟨rfl, rfl⟩

/-- The first token of a term tells atoms, arrays and functions apart. -/
theorem cancels_atom {leads : Bool} (t : Token) (ht : t.lexeme.isAtom = true)
    (hm : leads = true → t.lexeme.isModifier = false) :
    (atom t ht hm : Derivation (.term leads) inside).Cancels := by
  intro d' ts ts' _ _ h
  cases d' with
  | atom t' ht' hm' =>
      obtain ⟨rfl, rfl⟩ := List.cons.inj h
      exact ⟨rfl, rfl⟩
  | array o ho _ _ _ | func o ho _ _ _ _ =>
      obtain ⟨rfl, -⟩ := List.cons.inj h
      rw [ho] at ht
      cases ht

theorem cancels_array {leads : Bool} (o : Token) (ho : o.lexeme = .openSquare)
    {ws : Derivation .words true} (ih : ws.Cancels) (t : Token) (ht : t.lexeme = .closeSquare) :
    (array o ho ws t ht : Derivation (.term leads) inside).Cancels := by
  have hends : ∀ {t : Token} {us : List Token}, t.lexeme = .closeSquare →
      Part.words.Ends true (t :: us) := fun ht => .cons (endsWords_of_mark (Or.inl ht))
  intro d' ts ts' _ _ h
  cases d' with
  | atom t' ht' hm' =>
      obtain ⟨rfl, -⟩ := List.cons.inj h
      rw [ho] at ht'
      cases ht'
  | array o' ho' ws' t' ht' =>
      simp only [tokens, List.append_assoc, List.cons_append, List.nil_append] at h
      obtain ⟨rfl, hwords⟩ := List.cons.inj h
      obtain ⟨rfl, hclose⟩ := ih (hends ht) (hends ht') hwords
      obtain ⟨rfl, rfl⟩ := List.cons.inj hclose
      exact ⟨rfl, rfl⟩
  | func o' ho' _ _ _ _ =>
      obtain ⟨rfl, -⟩ := List.cons.inj h
      cases ho.symm.trans ho'

theorem cancels_func {leads : Bool} (o : Token) (ho : o.lexeme = .openRound)
    {b : Derivation .words true} {bs : Derivation .bodies true} (ihb : b.Cancels)
    (ihbs : bs.Cancels) (t : Token) (ht : t.lexeme = .closeRound) :
    (func o ho b bs t ht : Derivation (.term leads) inside).Cancels := by
  have hends : ∀ {t : Token} {us : List Token}, t.lexeme = .closeRound →
      Part.bodies.Ends true (t :: us) := fun ht =>
    .cons ⟨by rw [ht]; rintro ⟨⟩, endsWords_of_mark (Or.inr (Or.inl ht))⟩
  intro d' ts ts' _ _ h
  cases d' with
  | atom t' ht' hm' =>
      obtain ⟨rfl, -⟩ := List.cons.inj h
      rw [ho] at ht'
      cases ht'
  | array o' ho' _ _ _ =>
      obtain ⟨rfl, -⟩ := List.cons.inj h
      cases ho.symm.trans ho'
  | func o' ho' b' bs' t' ht' =>
      simp only [tokens, List.append_assoc, List.cons_append, List.nil_append] at h
      obtain ⟨rfl, hbody⟩ := List.cons.inj h
      obtain ⟨rfl, hbodies⟩ := ihb (bs.ends_words (hends ht)) (bs'.ends_words (hends ht')) hbody
      obtain ⟨rfl, hclose⟩ := ihbs (hends ht) (hends ht') hbodies
      obtain ⟨rfl, rfl⟩ := List.cons.inj hclose
      exact ⟨rfl, rfl⟩

theorem cancels_noBodies : (noBodies : Derivation .bodies inside).Cancels := by
  intro d' ts ts' hts hts' h
  cases d' with
  | noBodies => exact ⟨rfl, h⟩
  | moreBodies t ht _ _ =>
      obtain rfl := h
      exact absurd ht (hts t rfl).1

theorem cancels_moreBodies (t : Token) (ht : t.lexeme = .pipe) {b : Derivation .words inside}
    {bs : Derivation .bodies inside} (ihb : b.Cancels) (ihbs : bs.Cancels) :
    (moreBodies t ht b bs).Cancels := by
  intro d' ts ts' hts hts' h
  cases d' with
  | noBodies =>
      obtain rfl := h
      exact absurd ht (hts' t rfl).1
  | moreBodies t' ht' b' bs' =>
      simp only [tokens, List.append_assoc, List.cons_append] at h
      obtain ⟨rfl, hbody⟩ := List.cons.inj h
      obtain ⟨rfl, hbodies⟩ := ihb (bs.ends_words hts) (bs'.ends_words hts') hbody
      obtain ⟨rfl, rfl⟩ := ihbs hts hts' hbodies
      exact ⟨rfl, rfl⟩

/-- Every tree is the only one of its part in front of what does not go on with it. By induction on
the tree: its first token decides which rule another one takes. -/
theorem cancel (d : Derivation part inside) : d.Cancels := by
  induction d with
  | noWords g hg => exact cancels_noWords g hg
  | moreWords g hg _ _ ihw ihws => exact cancels_moreWords g hg ihw ihws
  | modified t ht g hg _ ih => exact cancels_modified t ht g hg ih
  | strand _ _ ihw ihws => exact cancels_strand ihw ihws
  | noMembers => exact cancels_noMembers
  | moreMembers t ht g hg _ _ ihw ihws => exact cancels_moreMembers t ht g hg ihw ihws
  | atom t ht hm => exact cancels_atom t ht hm
  | array o ho _ t ht ih => exact cancels_array o ho ih t ht
  | func o ho _ _ t ht ihb ihbs => exact cancels_func o ho ihb ihbs t ht
  | noBodies => exact cancels_noBodies
  | moreBodies t ht _ _ ihb ihbs => exact cancels_moreBodies t ht ihb ihbs

end Derivation

end GlyphFormat
