import GlyphFormat.Proofs.Grammar.Reads

/-!
# Failed reads

Where each function of the grammar fails: in one of the functions that it calls, or by itself, and
then with which error. With the equivalences for successful reads this says all that a read can do,
so nothing that is said about errors opens the functions again.
-/

namespace GlyphFormat

namespace Read

variable {α : Type} {c d f : Cursor} {k : Nat} {e : ParseError} {x : α}

/-- The read fails with the error and ends at the cursor. -/
def Faults (r : Read c k α) (e : ParseError) (d : Cursor) : Prop := ∃ h, r = .fail e d h

theorem Faults.follows {r : Read c k α} (h : r.Faults e d) : d.Follows c 0 := h.1

theorem faults_fail {e' : ParseError} {h : f.Follows c 0} :
    (Read.fail e' f h : Read c k α).Faults e d ↔ e = e' ∧ d = f := by
  constructor
  · rintro ⟨h', he⟩
    cases he
    exact ⟨rfl, rfl⟩
  · rintro ⟨rfl, rfl⟩
    exact ⟨h, rfl⟩

theorem not_faults_ok {h : f.Follows c k} : ¬(Read.ok x f h).Faults e d := by
  rintro ⟨h', he⟩
  cases he

/-- A read that succeeds does not fail. -/
theorem Gives.not_faults {r : Read c k α} (h : r.Gives x f) : ¬r.Faults e d := by
  obtain ⟨_, rfl⟩ := h
  exact not_faults_ok

/-- A read succeeds or fails. -/
theorem gives_or_faults (r : Read c k α) : (∃ x d, r.Gives x d) ∨ ∃ e d, r.Faults e d := by
  cases r with
  | ok x d h => exact Or.inl ⟨x, d, h, rfl⟩
  | fail e d h => exact Or.inr ⟨e, d, h, rfl⟩

end Read

namespace Cursor

variable {c d f : Cursor} {e : ParseError}

open Read (faults_fail not_faults_ok)

/-- The read fails at once, with an error at the current token. -/
def FailsHere (c : Cursor) (e : ParseError) (f : Cursor) : Prop := e.token = c.current ∧ f = c

theorem failsHere_of_failHere {α : Type} {k : Nat} {fault : ParseFault}
    (h : (c.failHere fault : Read c k α).Faults e f) : c.FailsHere e f := by
  obtain ⟨rfl, rfl⟩ := faults_fail.mp h
  exact ⟨rfl, rfl⟩

/-! ## Layout and brackets -/

theorem faults_skipLayout (h : c.skipLayout.Faults e f) : c.depth ≠ 0 ∧
    (c.FailsHere e f ∨ (c.sees .newline = true ∧ c.advance.skipLayout.Faults e f)) := by
  rw [skipLayout] at h
  split at h
  · exact absurd h not_faults_ok
  · rename_i hdepth
    refine ⟨hdepth, ?_⟩
    split at h
    · exact Or.inl (failsHere_of_failHere h)
    · split at h
      · rename_i hs
        split at h
        · exact absurd h not_faults_ok
        · rename_i e' d hd hlayout
          obtain ⟨rfl, rfl⟩ := faults_fail.mp h
          exact Or.inr ⟨hs, hd, hlayout⟩
      · exact absurd h not_faults_ok

theorem faults_close {opening : Token} {k : Lexeme.Kind} {t : Text}
    (h : (c.close opening k t).Faults e f) :
    (e.token = opening ∨ e.token = c.current) ∧ f = c := by
  unfold close at h
  split at h
  · exact absurd h not_faults_ok
  · split at h
    · obtain ⟨rfl, rfl⟩ := faults_fail.mp h
      exact ⟨Or.inl rfl, rfl⟩
    · obtain ⟨htoken, rfl⟩ := failsHere_of_failHere h
      exact ⟨Or.inr htoken, rfl⟩

/-! ## Words -/

theorem faults_words (h : c.words.Faults e f) : c.skipLayout.Faults e f ∨
    ∃ d, c.skipLayout.Gives () d ∧
      (d.word.Faults e f ∨ ∃ w g, d.word.Gives w g ∧ g.words.Faults e f) := by
  rw [words] at h
  split at h
  · rename_i e' d hd hlayout
    obtain ⟨rfl, rfl⟩ := faults_fail.mp h
    exact Or.inl ⟨hd, hlayout⟩
  · rename_i d hd hlayout
    refine Or.inr ⟨d, ⟨hd, hlayout⟩, ?_⟩
    split at h
    · split at h
      · rename_i e' g hg hw
        obtain ⟨rfl, rfl⟩ := faults_fail.mp h
        exact Or.inl ⟨hg, hw⟩
      · rename_i w g hg hw
        refine Or.inr ⟨w, g, ⟨hg, hw⟩, ?_⟩
        split at h
        · rename_i e' i hi hws
          obtain ⟨rfl, rfl⟩ := faults_fail.mp h
          exact ⟨hi, hws⟩
        · exact absurd h not_faults_ok
    · exact absurd h not_faults_ok

theorem faults_word_of_strand (hm : c.modifier? = none) (h : c.word.Faults e f) :
    c.strand.Faults e f := by
  rw [word] at h
  split at h
  · exact h
  · rename_i m hm'
    rw [hm] at hm'
    cases hm'

theorem faults_word_of_modifier {m : Word} (hm : c.modifier? = some m) (h : c.word.Faults e f) :
    c.advance.skipLayout.Faults e f ∨ ∃ d, c.advance.skipLayout.Gives () d ∧
      (d.word.Faults e f ∨ (e.token = c.current ∧ f = d)) := by
  rw [word] at h
  split at h
  · rename_i hm'
    rw [hm] at hm'
    cases hm'
  · dsimp only at h
    split at h
    · rename_i e' d hd hlayout
      obtain ⟨rfl, rfl⟩ := faults_fail.mp h
      exact Or.inl ⟨hd, hlayout⟩
    · rename_i d hd hlayout
      refine Or.inr ⟨d, ⟨hd, hlayout⟩, ?_⟩
      split at h
      · split at h
        · rename_i e' g hg hw
          obtain ⟨rfl, rfl⟩ := faults_fail.mp h
          exact Or.inl ⟨hg, hw⟩
        · exact absurd h not_faults_ok
      · obtain ⟨rfl, rfl⟩ := faults_fail.mp h
        exact Or.inr ⟨rfl, rfl⟩

theorem faults_strand (h : c.strand.Faults e f) :
    c.term.Faults e f ∨ ∃ t d, c.term.Gives t d ∧ d.members.Faults e f := by
  rw [strand] at h
  split at h
  · rename_i e' d hd ht
    obtain ⟨rfl, rfl⟩ := faults_fail.mp h
    exact Or.inl ⟨hd, ht⟩
  · rename_i t d hd ht
    refine Or.inr ⟨t, d, ⟨hd, ht⟩, ?_⟩
    split at h
    · rename_i e' g hg hms
      obtain ⟨rfl, rfl⟩ := faults_fail.mp h
      exact ⟨hg, hms⟩
    · exact absurd h not_faults_ok
    · exact absurd h not_faults_ok

theorem faults_members (h : c.members.Faults e f) : c.sees .underscore = true ∧
    (c.advance.skipLayout.Faults e f ∨ ∃ d, c.advance.skipLayout.Gives () d ∧
      (d.term.Faults e f ∨ ∃ t g, d.term.Gives t g ∧ g.members.Faults e f)) := by
  rw [members] at h
  split at h
  · rename_i hs
    refine ⟨hs, ?_⟩
    dsimp only at h
    split at h
    · rename_i e' d hd hlayout
      obtain ⟨rfl, rfl⟩ := faults_fail.mp h
      exact Or.inl ⟨hd, hlayout⟩
    · rename_i d hd hlayout
      refine Or.inr ⟨d, ⟨hd, hlayout⟩, ?_⟩
      split at h
      · rename_i e' g hg ht
        obtain ⟨rfl, rfl⟩ := faults_fail.mp h
        exact Or.inl ⟨hg, ht⟩
      · rename_i t g hg ht
        refine Or.inr ⟨t, g, ⟨hg, ht⟩, ?_⟩
        split at h
        · rename_i e' i hi hms
          obtain ⟨rfl, rfl⟩ := faults_fail.mp h
          exact ⟨hi, hms⟩
        · exact absurd h not_faults_ok
  · exact absurd h not_faults_ok

theorem faults_term (h : c.term.Faults e f) :
    c.array.Faults e f ∨ c.func.Faults e f ∨ c.FailsHere e f := by
  rw [term] at h
  split at h
  · exact absurd h not_faults_ok
  · split at h
    · exact Or.inl h
    · split at h
      · exact Or.inr (Or.inl h)
      · exact Or.inr (Or.inr (failsHere_of_failHere h))

theorem faults_array (h : c.array.Faults e f) : c.FailsHere e f ∨ (c.sees .openSquare = true ∧
    (c.advance.opened.words.Faults e f ∨ ∃ ws d, c.advance.opened.words.Gives ws d ∧
      (d.close c.current .closeSquare "]").Faults e f)) := by
  rw [array] at h
  split at h
  · rename_i hs
    refine Or.inr ⟨hs, ?_⟩
    dsimp only at h
    split at h
    · rename_i e' d hd hws
      obtain ⟨rfl, rfl⟩ := faults_fail.mp h
      exact Or.inl ⟨hd, hws⟩
    · rename_i ws d hd hws
      refine Or.inr ⟨ws, d, ⟨hd, hws⟩, ?_⟩
      split at h
      · rename_i e' g hg hclose
        obtain ⟨rfl, rfl⟩ := faults_fail.mp h
        exact ⟨hg, hclose⟩
      · exact absurd h not_faults_ok
  · exact Or.inl (failsHere_of_failHere h)

theorem faults_func (h : c.func.Faults e f) : c.FailsHere e f ∨ (c.sees .openRound = true ∧
    (c.advance.opened.words.Faults e f ∨ ∃ b d, c.advance.opened.words.Gives b d ∧
      (d.alternatives.Faults e f ∨ ∃ bs g, d.alternatives.Gives bs g ∧
        (g.close c.current .closeRound ")").Faults e f))) := by
  rw [func] at h
  split at h
  · rename_i hs
    refine Or.inr ⟨hs, ?_⟩
    dsimp only at h
    split at h
    · rename_i e' d hd hb
      obtain ⟨rfl, rfl⟩ := faults_fail.mp h
      exact Or.inl ⟨hd, hb⟩
    · rename_i b d hd hb
      refine Or.inr ⟨b, d, ⟨hd, hb⟩, ?_⟩
      split at h
      · rename_i e' g hg hbs
        obtain ⟨rfl, rfl⟩ := faults_fail.mp h
        exact Or.inl ⟨hg, hbs⟩
      · rename_i bs g hg hbs
        refine Or.inr ⟨bs, g, ⟨hg, hbs⟩, ?_⟩
        split at h
        · rename_i e' i hi hclose
          obtain ⟨rfl, rfl⟩ := faults_fail.mp h
          exact ⟨hi, hclose⟩
        · exact absurd h not_faults_ok
  · exact Or.inl (failsHere_of_failHere h)

theorem faults_alternatives (h : c.alternatives.Faults e f) : c.sees .pipe = true ∧
    (c.advance.words.Faults e f ∨ ∃ b d, c.advance.words.Gives b d ∧
      d.alternatives.Faults e f) := by
  rw [alternatives] at h
  split at h
  · rename_i hs
    refine ⟨hs, ?_⟩
    dsimp only at h
    split at h
    · rename_i e' d hd hb
      obtain ⟨rfl, rfl⟩ := faults_fail.mp h
      exact Or.inl ⟨hd, hb⟩
    · rename_i b d hd hb
      refine Or.inr ⟨b, d, ⟨hd, hb⟩, ?_⟩
      split at h
      · rename_i e' g hg hbs
        obtain ⟨rfl, rfl⟩ := faults_fail.mp h
        exact ⟨hg, hbs⟩
      · exact absurd h not_faults_ok
  · exact absurd h not_faults_ok

/-! ## Lines -/

theorem faults_expectLineEnd (h : c.expectLineEnd.Faults e f) : c.FailsHere e f := by
  unfold expectLineEnd at h
  split at h
  · exact absurd h not_faults_ok
  · split at h
    · exact absurd h not_faults_ok
    · exact failsHere_of_failHere h

theorem faults_lineTail (h : c.lineTail.Faults e f) :
    (∃ text, c.comment? = some text ∧ c.advance.expectLineEnd.Faults e f) ∨
      c.expectLineEnd.Faults e f := by
  unfold lineTail at h
  split at h
  · rename_i text hc
    split at h
    · rename_i e' d hd hend
      obtain ⟨rfl, rfl⟩ := faults_fail.mp h
      exact Or.inl ⟨text, hc, hd, hend⟩
    · exact absurd h not_faults_ok
  · split at h
    · rename_i e' d hd hend
      obtain ⟨rfl, rfl⟩ := faults_fail.mp h
      exact Or.inr ⟨hd, hend⟩
    · exact absurd h not_faults_ok

theorem faults_statement (h : c.statement.Faults e f) :
    (∃ name, c.boundName? = some name ∧ c.advance.advance.words.Faults e f) ∨
      c.words.Faults e f := by
  unfold statement at h
  split at h
  · rename_i name hname
    split at h
    · rename_i e' d hd hws
      obtain ⟨rfl, rfl⟩ := faults_fail.mp h
      exact Or.inl ⟨name, hname, hd, hws⟩
    · exact absurd h not_faults_ok
  · split at h
    · rename_i e' d hd hws
      obtain ⟨rfl, rfl⟩ := faults_fail.mp h
      exact Or.inr ⟨hd, hws⟩
    · exact absurd h not_faults_ok

theorem faults_line (h : c.line.Faults e f) : c.lineTail.Faults e f ∨ c.statement.Faults e f ∨
    ∃ item d, c.statement.Gives item d ∧ d.lineTail.Faults e f := by
  unfold line at h
  split at h
  · exact Or.inl h
  · refine Or.inr ?_
    split at h
    · rename_i e' d hd hstatement
      obtain ⟨rfl, rfl⟩ := faults_fail.mp h
      exact Or.inl ⟨hd, hstatement⟩
    · rename_i item d hd hstatement
      refine Or.inr ⟨item, d, ⟨hd, hstatement⟩, ?_⟩
      split at h
      · rename_i e' g hg htail
        obtain ⟨rfl, rfl⟩ := faults_fail.mp h
        exact ⟨hg, htail⟩
      · exact absurd h not_faults_ok

end Cursor

end GlyphFormat
