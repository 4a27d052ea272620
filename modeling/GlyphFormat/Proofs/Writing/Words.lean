import GlyphFormat.Proofs.Writing.Spacing

/-!
# Words on a line

A line grows word by word. Whatever words stand on it and whatever shape the next one has, the line
is lexed without a fault before and after the next word is written, and the tokens that come with
the word are those of its own marks (`Writing.word_extends`).
-/

namespace GlyphFormat

namespace Word

theorem LeafLexable.leaf {v : Word} (hv : v.LeafLexable) {m : Mark} (hm : v.leaf? = some m) :
    m.Lexable := by
  cases v with
  | strand _ _ | array _ _ | func _ _ | funcArray _ _ | modified _ _ _ => cases hm
  | _ =>
      obtain rfl := Option.some.inj hm
      exact hv

theorem lexable_joints : ∀ m ∈ Mark.joints, m.Lexable := by
  simp only [Mark.joints, List.forall_mem_cons]
  exact ⟨trivial, ⟨'_', rfl⟩, ⟨'[', rfl⟩, ⟨']', rfl⟩, ⟨'(', rfl⟩, ⟨')', rfl⟩, ⟨'|', rfl⟩, nofun⟩

theorem lexable_marks (w : Word) (h : ∀ v ∈ w.preorder, v.LeafLexable) :
    ∀ m ∈ w.marks, m.Lexable :=
  forall_marks lexable_joints w fun v hv _ => (h v hv).leaf

theorem lexable_marksOfAll (ws : List Word) (h : ∀ v ∈ preorderAll ws, v.LeafLexable) :
    ∀ m ∈ marksOfAll ws, m.Lexable :=
  forall_marksOfAll lexable_joints ws fun v hv _ => (h v hv).leaf

/-- The tokens of a word in document order, with the scope's answers about its names: one for every
leaf, in its canonical form, and one for every underscore, bracket and bar. -/
def lexemes {σ : Type} [Scope σ] (w : Word) (scope : σ) : List Lexeme :=
  (Mark.settleAll w.marks scope).1.filterMap Mark.lexeme?

end Word

/-- The head of a binding, without the space at its end. -/
theorem Begins.binding {name t : Text} {ls : List Lexeme} (h : Begins t ls)
    (hlast : ∀ c ∈ t.getLast?, c.isLetter = false) (hname : name.IsName) :
    Begins (t ++ (name ++ " =")) (ls ++ [.ident name, .assign]) := by
  have hjoin : ∀ c ∈ t.getLast?, ∀ d ∈ name.head?, c.joins d = false := fun c hc d hd =>
    CodePoint.joins_eq_false_of_isLetter (hlast c hc) (hname.2 d (List.mem_of_mem_head? hd))
  have hident : Begins (t ++ name) (ls ++ [.ident name]) :=
    h.lexeme (l := .ident name) hname nofun hjoin
  have hassign := hident.space.lexeme (l := .assign) trivial nofun
    (Text.apart_of_separator rfl (by decide))
  rw [List.append_assoc, List.append_assoc, List.append_assoc] at hassign
  exact hassign

theorem Layout.begins_head {name : Text} {l : Layout} {ls : List Lexeme} (h : Begins l.text ls)
    (hlast : ∀ c ∈ l.text.getLast?, c.isLetter = false) (hname : name.IsName) :
    Begins ((l.push name).push " = ").text (ls ++ [.ident name, .assign]) := by
  have hspace := (h.binding hlast hname).space
  rw [List.append_assoc, List.append_assoc] at hspace
  rw [text_push, text_push, List.append_assoc]
  exact hspace

namespace Writing

variable {σ : Type}

/-! ## The sheets of a line -/

/-- A sheet on which a line begins: an empty one, or one whose lines so far can be lexed. -/
inductive LineStart : Sheet σ → Prop
  | first {layout : Layout} {scope : σ} (h : layout.text = []) : LineStart ⟨layout, scope⟩
  | next {layout : Layout} {scope : σ} {t : Text} (ht : (tokenize t).2 = none)
      (h : layout.text = t ++ "\n") : LineStart ⟨layout, scope⟩

theorem LineStart.begins {s : Sheet σ} (h : LineStart s) : ∃ ls, Begins s.layout.text ls := by
  cases h with
  | first h => exact ⟨[], by rw [show Layout.text _ = [] from h]; exact .nil⟩
  | next ht h => exact ⟨_, by rw [show Layout.text _ = _ from h]; exact (lexes_lexemes ht).begins⟩

theorem LineStart.last {s : Sheet σ} (h : LineStart s) :
    ∀ c ∈ s.layout.text.getLast?, c.isLetter = false := by
  intro c hc
  cases h with
  | first h =>
      rw [show Layout.text _ = [] from h] at hc
      cases hc
  | next ht h =>
      rw [show Layout.text _ = _ from h] at hc
      obtain rfl : CodePoint.ofChar '\n' = c := by
        rw [show Text.ofString "\n" = [CodePoint.ofChar '\n'] from rfl,
          List.getLast?_concat] at hc
        exact Option.some.inj hc
      decide +kernel

theorem Runs.eq {w : Writing σ Unit} {s t u : Sheet σ} (ht : w.Runs s t) (hu : w.Runs s u) :
    t = u := (Prod.mk.inj (ht.symm.trans hu)).2

variable [Scope σ]

/-- A sheet on whose last line stand any words that can be lexed, behind the head of a binding or
behind nothing. -/
inductive OnLine : Sheet σ → Prop
  | start {s : Sheet σ} (h : LineStart s) : OnLine s
  | binding {s t : Sheet σ} {name : Text} (h : LineStart s) (hname : name.IsName)
      (hw : Runs (do push name; push " = ") s t) : OnLine t
  | word {s t : Sheet σ} {w : Word} (h : OnLine s) (hw : w.Lexable) (hrun : Runs (word w) s t) :
      OnLine t

/-- Writing a word that can be lexed puts the settled marks of the word down. -/
theorem runs_word {w : Word} (hw : w.Lexable) (l : Layout) (scope : σ) :
    Runs (word w) ⟨l, scope⟩ ⟨(Mark.settleAll w.marks scope).1.foldl Layout.put l,
      (Mark.settleAll w.marks scope).2⟩ := by
  rw [word_eq_marks]
  exact runs_marks (fun m hm => (w.lexable_marks hw m hm).writable) l scope

theorem begins_word {w : Word} {l : Layout} {ls : List Lexeme} (h : Begins l.text ls)
    (hw : w.Lexable) (scope : σ) :
    Begins ((Mark.settleAll w.marks scope).1.foldl Layout.put l).text
      (ls ++ w.lexemes scope) :=
  Layout.begins_putAll h (Mark.lexable_settleAll (w.lexable_marks hw) scope)

/-- What stands on a line can be gone on with. -/
theorem OnLine.begins {s : Sheet σ} (h : OnLine s) : ∃ ls, Begins s.layout.text ls := by
  induction h with
  | start h => exact h.begins
  | @binding s t name h hname hw =>
      obtain ⟨ls, hls⟩ := h.begins
      have hrun : Runs (do push name; push " = ") s
          ⟨(s.layout.push name).push " = ", s.scope⟩ :=
        (runs_push name s.layout s.scope).bind (runs_push _ _ _)
      rw [hw.eq hrun]
      exact ⟨_, Layout.begins_head hls h.last hname⟩
  | @word s t w h hw hrun ih =>
      obtain ⟨ls, hls⟩ := ih
      rw [hrun.eq (runs_word hw s.layout s.scope)]
      exact ⟨_, begins_word hls hw s.scope⟩

/-- Writing a word of any shape behind the words of a line succeeds. The text stays and grows, it
can be lexed before and after, and to the tokens before come those of the word. -/
theorem word_extends {s : Sheet σ} {w : Word} (hs : OnLine s) (hw : w.Lexable) :
    ∃ t, (word w).run s = (.ok (), t) ∧
      (∃ added, t.layout.text = s.layout.text ++ added) ∧
      (tokenize s.layout.text).2 = none ∧ (tokenize t.layout.text).2 = none ∧
      t.layout.text.lexemes = s.layout.text.lexemes ++ w.lexemes s.scope := by
  obtain ⟨ls, hls⟩ := hs.begins
  have hafter := begins_word hls hw s.scope
  refine ⟨_, runs_word hw s.layout s.scope, Layout.text_putAll _ _,
    (lexes_iff.mp hls.lexes).1, (lexes_iff.mp hafter.lexes).1, ?_⟩
  rw [hls.lexes.lexemes]
  exact hafter.lexes.lexemes

/-- Brackets, an empty strand that writes nothing, and a modifier with its operand. -/
theorem word_extends_behind_empty_strand :
    ∃ t, (word (.modified (.ident "table" none) (.ident "y" none) none)).run
        (⟨⟨[']', '['], true⟩, {}⟩ : Sheet Preset) = (.ok (), t) ∧
      (∃ added : Text, t.layout.text = Text.ofString "[]" ++ added) ∧
      (tokenize "[]").2 = none ∧ (tokenize t.layout.text).2 = none ∧
      t.layout.text.lexemes = Text.lexemes "[]" ++ [.primitive .table, .ident "y"] := by
  have harray : OnLine (⟨⟨[']', '['], false⟩, {}⟩ : Sheet Preset) :=
    .word (w := .array [] none) (.start (@LineStart.first _ {} _ rfl))
      (List.forall_mem_singleton.mpr trivial) rfl
  have hs : OnLine (⟨⟨[']', '['], true⟩, {}⟩ : Sheet Preset) :=
    .word (w := .strand [] none) harray (List.forall_mem_singleton.mpr trivial) rfl
  refine word_extends hs fun v hv => ?_
  have hv : v = .modified (.ident "table" none) (.ident "y" none) none ∨ v = .ident "table" none ∨
      v = .ident "y" none := by simpa [Word.preorder] using hv
  rcases hv with rfl | rfl | rfl
  · trivial
  · exact ⟨by decide, by decide +kernel⟩
  · exact ⟨by decide, by decide +kernel⟩

end Writing

end GlyphFormat
