import GlyphFormat.Outline
import GlyphFormat.Proofs.Writing.Lines

/-!
# Trees with outlines

A tree has an outline just when nothing in it is missing and every slot of a selector has a
character (`exists_ofItems_iff`). That is so in every tree that a source can spell
(`WellFormedItems.exists_outline`).
-/

namespace GlyphFormat

/-- A word that is there, and whose slots have characters if it is a selector. The words in it do
not matter. -/
def Word.HasNode : Word → Prop
  | .selector slots _ => ∀ slot ∈ slots, 0 ≤ slot + 0x61 ∧ slot + 0x61 < 0x110000
  | .missing => False
  | _ => True

/-- Nothing is missing in the item, and all its selectors have texts. -/
def Item.HasNodes : Item → Prop
  | .missing => False
  | i => ∀ w ∈ i.allWords, w.HasNode

namespace Outline

/-! ## Outlines of parts -/

section

variable {ε α β γ : Type} {x : Except ε α} {y : Except ε β}

theorem bind_return_eq_ok_iff {f : α → γ} {c : γ} :
    (do return f (← x)) = Except.ok c ↔ ∃ a, x = .ok a ∧ f a = c := by
  cases x <;> simp [bind, Except.bind, pure, Except.pure]

theorem bind_bind_return_eq_ok_iff {f : α → β → γ} {c : γ} :
    (do let a ← x; return f a (← y)) = Except.ok c ↔
      ∃ a b, x = .ok a ∧ y = .ok b ∧ f a b = c := by
  cases x <;> cases y <;> simp [bind, Except.bind, pure, Except.pure]

theorem exists_bind_return_iff (f : α → γ) :
    (∃ c, (do return f (← x)) = Except.ok c) ↔ ∃ a, x = .ok a := by
  simp only [bind_return_eq_ok_iff]
  exact ⟨fun ⟨_, a, ha, _⟩ => ⟨a, ha⟩, fun ⟨a, ha⟩ => ⟨_, a, ha, rfl⟩⟩

theorem exists_bind_bind_return_iff (f : α → β → γ) :
    (∃ c, (do let a ← x; return f a (← y)) = Except.ok c) ↔
      (∃ a, x = .ok a) ∧ ∃ b, y = .ok b := by
  simp only [bind_bind_return_eq_ok_iff]
  exact ⟨fun ⟨_, a, b, ha, hb, _⟩ => ⟨⟨a, ha⟩, b, hb⟩,
    fun ⟨⟨a, ha⟩, b, hb⟩ => ⟨_, a, b, ha, hb, rfl⟩⟩

end

/-! ## What has an outline -/

theorem exists_characters?_iff {s : Selector} : (∃ t, s.characters? = some t) ↔
    ∀ slot ∈ s, 0 ≤ slot + 0x61 ∧ slot + 0x61 < 0x110000 := by
  induction s with
  | nil => simp [Selector.characters?]
  | cons slot s ih =>
      have hslot : (∃ c, Selector.character? slot = some c) ↔
          0 ≤ slot + 0x61 ∧ slot + 0x61 < 0x110000 := by
        simp only [Selector.character?, CodePoint.ofNat?]
        split
        · split
          · simp; omega
          · simp; omega
        · simp; omega
      rw [List.forall_mem_cons, ← hslot, ← ih]
      simp only [Selector.characters?]
      cases Selector.character? slot <;> cases Selector.characters? s <;> simp

mutual

/-- A word has an outline just when every word in it has a node. By recursion on the word. -/
theorem exists_ofWord_iff : (w : Word) → ((∃ o, ofWord w = .ok o) ↔ ∀ v ∈ w.preorder, v.HasNode)
  | .number _ _ | .char _ _ | .string _ _ | .ident _ _ | .prim _ _ | .missing => by
      simp [ofWord, Word.preorder, Word.HasNode]
  | .selector s span => by
      have htext : (∃ o, ofWord (.selector s span) = .ok o) ↔ ∃ t, s.characters? = some t := by
        simp only [ofWord, Selector.toText?]
        cases s.characters? <;> simp
      simp [htext, exists_characters?_iff, Word.preorder, Word.HasNode]
  | .strand ws _ | .array ws _ | .func ws _ => by
      rw [ofWord, exists_bind_return_iff, exists_ofWords_iff ws, Word.preorder, List.forall_mem_cons]
      exact (and_iff_right trivial).symm
  | .funcArray bs _ => by
      rw [ofWord, exists_bind_return_iff, exists_ofBodies_iff bs, Word.preorder, List.forall_mem_cons]
      exact (and_iff_right trivial).symm
  | .modified m w _ => by
      rw [ofWord, exists_bind_bind_return_iff, exists_ofWord_iff m, exists_ofWord_iff w, Word.preorder,
        List.forall_mem_cons, List.forall_mem_append]
      exact (and_iff_right trivial).symm

theorem exists_ofWords_iff : (ws : List Word) →
    ((∃ os, ofWords ws = .ok os) ↔ ∀ v ∈ Word.preorderAll ws, v.HasNode)
  | [] => by simp [ofWords, Word.preorderAll]
  | w :: ws => by
      rw [ofWords, exists_bind_bind_return_iff, exists_ofWord_iff w, exists_ofWords_iff ws,
        Word.preorderAll, List.forall_mem_append]

theorem exists_ofBodies_iff : (bs : List (List Word)) →
    ((∃ os, ofBodies bs = .ok os) ↔ ∀ v ∈ Word.preorderBodies bs, v.HasNode)
  | [] => by simp [ofBodies, Word.preorderBodies]
  | b :: bs => by
      rw [ofBodies, exists_bind_bind_return_iff, exists_ofWords_iff b, exists_ofBodies_iff bs,
        Word.preorderBodies, List.forall_mem_append]

end

theorem exists_ofItem_iff (i : Item) : (∃ o, ofItem i = .ok o) ↔ i.HasNodes := by
  cases i with
  | words ws _ | binding _ ws _ _ => rw [ofItem, exists_bind_return_iff, exists_ofWords_iff ws]; rfl
  | comment _ _ | newlines _ => exact iff_of_true ⟨_, rfl⟩ nofun
  | missing => exact iff_of_false nofun id

theorem exists_ofItems_iff (is : List Item) :
    (∃ os, ofItems is = .ok os) ↔ ∀ i ∈ is, i.HasNodes := by
  induction is with
  | nil => simp [ofItems]
  | cons i is ih =>
      rw [ofItems, exists_bind_bind_return_iff, exists_ofItem_iff, ih, List.forall_mem_cons]

end Outline

theorem Word.LeafLexable.hasNode {w : Word} (h : w.LeafLexable) : w.HasNode := by
  cases w with
  | selector s span =>
      intro slot hslot
      obtain ⟨hfirst, hlast⟩ := h.2 slot hslot
      exact ⟨by omega, by omega⟩
  | missing => exact h
  | _ => trivial

theorem Item.WellFormed.hasNodes {i : Item} (h : i.WellFormed) : i.HasNodes := by
  cases i with
  | missing => exact h
  | _ => exact fun w hw => (h.leaves w hw).hasNode

/-- A program that a source can spell has an outline. -/
theorem WellFormedItems.exists_outline {items : List Item} (h : WellFormedItems items) :
    ∃ o, Outline.ofProgram items = .ok o := by
  rw [Outline.ofProgram, Outline.exists_bind_return_iff, Outline.exists_ofItems_iff]
  exact fun i hi => (h.each i hi).hasNodes

end GlyphFormat
