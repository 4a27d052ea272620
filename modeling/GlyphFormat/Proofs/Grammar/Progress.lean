import GlyphFormat.Proofs.Grammar.LogicalLines
import GlyphFormat.Proofs.Token.Progress

/-!
# Progress of reading

Reading goes on over any tokens at all, in whatever order they come and whether or not the end of
input is among them. It goes in rounds, and every round takes a token: a blank line takes its line
break, and a line that is read or recovered from takes the token that it begins with, even if the
error is found there. An error ends no more than its line, since recovery comes to the next one
(`Cursor.Resumes`).

So the rounds come to an end, and what they leave is the program (`Reading.outcome_next`). Each
token pays for one item or one report at most.
-/

namespace GlyphFormat

namespace Program

/-- What one program holds and then what the other one does. -/
def append (p q : Program) : Program := ⟨p.items ++ q.items, p.diagnostics ++ q.diagnostics⟩

/-- How much a program holds: its items, but for those of blank lines, and its diagnostics. -/
def size (p : Program) : Nat := (p.items.filter (!·.isNewlines)).length + p.diagnostics.length

theorem append_assoc (p q r : Program) : (p.append q).append r = p.append (q.append r) := by
  simp only [append, List.append_assoc]

theorem size_append (p q : Program) : (p.append q).size = p.size + q.size := by
  simp only [size, append, List.filter_append, List.length_append]
  omega

end Program

namespace Cursor

variable {c d f : Cursor} {e : ParseError} {items : List Item} {started : Bool}
  {blank : Option Span}

/-! ## Tokens that are taken -/

theorem Follows.of_lt (h : d.Follows c 0) (hlt : d.remaining < c.remaining) : d.Follows c 1 := by
  obtain ⟨between, -, hrest⟩ := h
  refine ⟨between, ?_, hrest⟩
  simp only [remaining, hrest, List.length_append] at hlt
  omega

/-- Recovery from the one cursor has come to the other, at the end of input or right behind a line
break, and no bracket counts as open there. -/
structure Resumes (c d : Cursor) : Prop where
  depth : d.depth = 0
  place : d.atEnd = true ∨ ∃ ts t, c.rest = ts ++ t :: d.rest ∧ t.lexeme = .newline

theorem resumes_recover (c : Cursor) : c.Resumes c.recover := by
  have hnext := nextLine_recover c
  refine ⟨hnext.depth, hnext.ends.imp And.right ?_⟩
  rintro ⟨hs, -, hrest⟩
  obtain ⟨ts, -, hts⟩ := c.follows_toLineEnd
  have hus := rest_of_sees hs (by decide)
  exact ⟨ts, c.toLineEnd.current, by rw [hts, hus, hrest], (sees_iff rfl).mp hs⟩

theorem follows_recover (c : Cursor) : c.recover.Follows c 0 := by
  unfold recover skip
  split
  · exact (follows_advance _).after c.follows_toLineEnd
  · exact c.follows_toLineEnd

/-- The tail of a line takes a token for every item. -/
theorem length_lineTail (h : c.lineTail.Gives items d) :
    items.length + d.remaining ≤ c.remaining := by
  rcases gives_lineTail_iff.mp h with ⟨text, hc, hend, rfl⟩ | ⟨-, hend, rfl⟩
  · have hcomment := (follows_advance_of_ne_end (ne_end_of_comment? hc)).le
    have hle := hend.follows.le
    rw [List.length_singleton]
    omega
  · exact (Nat.zero_add _).trans_le hend.follows.le

theorem comment?_congr (h : d.current = c.current) : d.comment? = c.comment? := by
  rw [comment?, comment?, h]

/-- So does a line. A comment has a token of its own, and where there is none the line takes one. -/
theorem length_line (ha : c.atEnd = false) (hn : c.sees .newline = false)
    (h : c.line.Gives items d) : items.length + d.remaining ≤ c.remaining := by
  rcases gives_line_iff.mp h with ⟨-, htail⟩ | ⟨hnone, item, f, more, hstatement, htail, rfl⟩
  · exact length_lineTail htail
  have hmore := length_lineTail htail
  rw [List.length_cons]
  by_cases hcur : f.current = c.current
  · rcases gives_lineTail_iff.mp htail with ⟨text, hc, -, -⟩ | ⟨-, -, rfl⟩
    · rw [comment?_congr hcur, hnone] at hc
      cases hc
    · have hlt := line_lt h.choose_spec hn ha
      rw [List.length_nil]
      omega
  · have hlt := hstatement.follows.lt_of_current_ne ha hcur
    omega

theorem ne_nil_of_line (h : c.line.Gives items d) : items ≠ [] := by
  rcases gives_line_iff.mp h with ⟨hsome, htail⟩ | ⟨-, item, f, more, -, -, rfl⟩
  · rcases gives_lineTail_iff.mp htail with ⟨text, -, -, rfl⟩ | ⟨hnone, -, -⟩
    · exact List.cons_ne_nil _ _
    · rw [hnone] at hsome
      cases hsome
  · exact List.cons_ne_nil _ _

end Cursor

/-! ## Rounds -/

/-- Where the reading of a program has come to: the cursor, what is read so far, and the first of
the blank lines since the last line. -/
structure Reading where
  cursor : Cursor
  program : Program
  blank : Option Span

namespace Reading

open Cursor

def ofTokens (path : Option Path) (tokens : List Token) : Reading :=
  ⟨.ofTokens path tokens, .empty, none⟩

/-- There was a line before. -/
def started (r : Reading) : Bool := !r.program.items.isEmpty || !r.program.diagnostics.isEmpty

/-- One round takes a line break, or reads a line. The error of a line is reported, and the next
round begins behind the line. There is no round at the end of input. -/
def next (r : Reading) : Option Reading :=
  if r.cursor.atEnd then none
  else if r.cursor.sees .newline then
    some ⟨r.cursor.advance, r.program,
      if r.started && r.blank.isNone then some r.cursor.here else r.blank⟩
  else
    match r.cursor.line with
    | .ok items d _ => some ⟨d, r.program.append ⟨gapItems r.blank ++ items, []⟩, none⟩
    | .fail e d _ => some ⟨d.recover,
        r.program.append ⟨gapItems r.blank, [e.diagnostic r.cursor.path]⟩, none⟩

variable {r s : Reading}

/-- All that a round can do: it takes a line break, reads a line, or reports one. -/
inductive Round (r : Reading) : Reading → Prop
  | blank (ha : r.cursor.atEnd = false) (hn : r.cursor.sees .newline = true) :
      Round r ⟨r.cursor.advance, r.program,
        if r.started && r.blank.isNone then some r.cursor.here else r.blank⟩
  | line {items : List Item} {d : Cursor} (ha : r.cursor.atEnd = false)
      (hn : r.cursor.sees .newline = false) (h : r.cursor.line.Gives items d) :
      Round r ⟨d, r.program.append ⟨gapItems r.blank ++ items, []⟩, none⟩
  | fault {e : ParseError} {d : Cursor} (ha : r.cursor.atEnd = false)
      (hn : r.cursor.sees .newline = false) (h : r.cursor.line.Faults e d) :
      Round r ⟨d.recover,
        r.program.append ⟨gapItems r.blank, [e.diagnostic r.cursor.path]⟩, none⟩

theorem round_of_next (h : r.next = some s) : r.Round s := by
  unfold next at h
  split at h
  · cases h
  rename_i ha
  have ha := Bool.eq_false_iff.mpr ha
  split at h
  · rename_i hn
    obtain rfl := Option.some.inj h
    exact .blank ha hn
  rename_i hn
  have hn := Bool.eq_false_iff.mpr hn
  split at h
  · rename_i items d hd hline
    obtain rfl := Option.some.inj h
    exact .line ha hn ⟨hd, hline⟩
  · rename_i e d hd hline
    obtain rfl := Option.some.inj h
    exact .fault ha hn ⟨hd, hline⟩

theorem next_eq_none_iff : r.next = none ↔ r.cursor.atEnd = true := by
  unfold next
  split
  · exact iff_of_true rfl ‹_›
  · refine iff_of_false ?_ ‹_›
    split
    · exact nofun
    · split <;> exact nofun

/-- Every round takes a token. -/
theorem follows_next (h : r.next = some s) : s.cursor.Follows r.cursor 1 := by
  cases round_of_next h with
  | blank _ hn => exact follows_advance_of_sees hn (by decide)
  | line ha hn hline =>
      obtain ⟨hd, heq⟩ := hline
      exact hd.of_lt (line_lt heq hn ha)
  | fault ha _ hline =>
      have hd := hline.follows
      exact ((follows_recover _).after hd).of_lt (recover_lt hd ha)

/-- What a round adds is paid for by the tokens that it takes. -/
theorem size_next (h : r.next = some s) :
    s.program.size + s.cursor.remaining ≤ r.program.size + r.cursor.remaining := by
  have hle := (follows_next h).le
  cases round_of_next h with
  | blank _ _ => exact Nat.add_le_add_left (Nat.le_of_succ_le hle) _
  | @line items d ha hn hline =>
      have hlength := length_line ha hn hline
      have hadded : Program.size ⟨gapItems r.blank ++ items, []⟩ ≤ items.length := by
        simpa [Program.size, filter_gapItems] using List.length_filter_le _ items
      dsimp only
      rw [Program.size_append]
      omega
  | @fault e d _ _ _ =>
      have hadded : Program.size ⟨gapItems r.blank, [e.diagnostic r.cursor.path]⟩ = 1 := by
        simp [Program.size, filter_gapItems]
      dsimp only at hle ⊢
      rw [Program.size_append]
      omega

/-! ## The whole program -/

/-- What the reading comes to, and where it ends. -/
def outcome (r : Reading) : Program × Cursor :=
  let (p, last) := r.cursor.lines r.started r.blank
  (r.program.append p, last)

theorem started_append (p q : Program) (c : Cursor) (hq : q.items ≠ [] ∨ q.diagnostics ≠ []) :
    started ⟨c, p.append q, none⟩ = true := by
  simp only [started, Program.append]
  rcases hq with hq | hq <;> simp [hq]

/-- A round leaves open what the reading comes to. -/
theorem outcome_next (h : r.next = some s) : s.outcome = r.outcome := by
  cases round_of_next h with
  | blank ha hn => rw [outcome, outcome, lines_blank ha hn]; rfl
  | line ha hn hline =>
      have hmore := ne_nil_of_line hline
      rw [outcome, outcome, lines_of_gives ha hn hline,
        started_append _ _ _ (.inl (by simp [hmore]))]
      exact congrArg (·, _) (Program.append_assoc _ _ _)
  | fault ha hn hline =>
      rw [outcome, outcome, lines_of_faults ha hn hline,
        started_append _ _ _ (.inr (List.cons_ne_nil _ _))]
      exact congrArg (·, _) (Program.append_assoc _ _ _)

theorem outcome_of_stopped (h : r.next = none) : r.outcome = (r.program, r.cursor) := by
  rw [outcome, lines_end (next_eq_none_iff.mp h)]
  simp [Program.append, Program.empty]

theorem outcome_ofTokens (path : Option Path) (tokens : List Token) :
    (ofTokens path tokens).outcome = (Cursor.ofTokens path tokens).program := rfl

end Reading

/-- Any tokens are read to the end of input. There is a round in front of every token but the end,
and an error becomes the report of its round, so none stops the reading. Each round takes a token
and leaves open what the reading comes to, and the recovery from an error ends behind a line with no
bracket open. There are at most as many rounds as tokens, and no more items and reports. -/
theorem program_proceeds (path : Option Path) (tokens : List Token) :
    (∀ r : Reading, (r.next = none ↔ r.cursor.atEnd = true) ∧
      ∀ s, r.next = some s →
        r.Round s ∧ s.cursor.Follows r.cursor 1 ∧ s.outcome = r.outcome) ∧
    (∀ c : Cursor, c.Resumes c.recover) ∧
    (∃ n last, Rounds Reading.next n (.ofTokens path tokens) last ∧ n ≤ tokens.length ∧
      last.cursor.atEnd = true ∧
      (Cursor.ofTokens path tokens).program = (last.program, last.cursor)) ∧
    (Cursor.ofTokens path tokens).program.1.size ≤ tokens.length := by
  refine ⟨fun r => ⟨Reading.next_eq_none_iff, fun _ hnext =>
    ⟨Reading.round_of_next hnext, Reading.follows_next hnext, Reading.outcome_next hnext⟩⟩,
    Cursor.resumes_recover, ?_⟩
  have htakes : ∀ r s : Reading, r.next = some s → s.cursor.remaining < r.cursor.remaining :=
    fun _ _ hnext => (Reading.follows_next hnext).le
  obtain ⟨n, last, hrounds, hlast⟩ := Rounds.exists_last htakes (.ofTokens path tokens)
  have hn : n + last.cursor.remaining ≤ tokens.length := hrounds.add_le htakes
  have hsize : last.program.size + last.cursor.remaining ≤ tokens.length :=
    hrounds.keeps (p := fun r => r.program.size + r.cursor.remaining ≤ tokens.length)
      (fun _ _ hnext h => (Reading.size_next hnext).trans h) (Nat.zero_add _).le
  have houtcome : last.outcome = (Cursor.ofTokens path tokens).program :=
    hrounds.keeps (p := fun r => r.outcome = (Cursor.ofTokens path tokens).program)
      (fun _ _ hnext h => (Reading.outcome_next hnext).trans h)
      (Reading.outcome_ofTokens path tokens)
  rw [← houtcome, Reading.outcome_of_stopped hlast]
  exact ⟨⟨n, last, hrounds, by omega, Reading.next_eq_none_iff.mp hlast, rfl⟩,
    (Nat.le_add_right _ _).trans hsize⟩

/-- Backwards and without the end: a line, and a comment with something behind it. -/
example : (tokenize "] # x\n\n1").1.dropLast.reverse.length = 5 ∧
    (Cursor.ofTokens none (tokenize "] # x\n\n1").1.dropLast.reverse).program.1.size = 2 := by
  decide +kernel

end GlyphFormat
