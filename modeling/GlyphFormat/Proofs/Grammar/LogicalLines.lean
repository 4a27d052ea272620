import GlyphFormat.Proofs.Grammar.ProgramTree
import GlyphFormat.Proofs.Grammar.Walks
import GlyphFormat.Proofs.Tree.WellFormed

/-!
# Logical lines

A line break ends a line unless a bracket is open, so the tokens of a source fall into logical
lines. What reading reports is known line by line (`judged_parse`): a line that is blank or fits the
grammar has no diagnostic, any other one has exactly one, at one of its own tokens, and the items
are those of the lines that fit.

Which brackets count as open is decided by the running difference of opened and closed ones, and a
closing bracket that closes nothing lowers it too. So behind such a bracket an opened one does not
keep the line together (`exists_not_judged_parse`). Where every closing bracket closes one, lines
end where no bracket is open (`judged_parse_of_closesOpened`).
-/

namespace GlyphFormat

open Cursor (depthAfter)

/-! ## Cutting tokens into lines -/

/-- The tokens line by line, each line with the token that ends it. The tally counts what is
open. -/
def logicalLines (tally : Int → Token → Int) : Int → List Token → List (List Token)
  | _, [] => []
  | depth, t :: ts =>
    if t.lexeme = .newline ∧ depth ≤ 0 then [t] :: logicalLines tally 0 ts
    else
      match logicalLines tally (tally depth t) ts with
      | [] => [[t]]
      | l :: ls => (t :: l) :: ls

/-- The lines are the tokens, cut. -/
theorem flatten_logicalLines (tally : Int → Token → Int) (depth : Int) (ts : List Token) :
    (logicalLines tally depth ts).flatten = ts := by
  induction ts generalizing depth with
  | nil => rfl
  | cons t ts ih =>
      rw [logicalLines]
      split
      · rw [List.flatten_cons, ih, List.singleton_append]
      · have hrest := ih (tally depth t)
        cases hlines : logicalLines tally (tally depth t) ts with
        | nil =>
            rw [hlines, List.flatten_nil] at hrest
            rw [← hrest]
            rfl
        | cons l ls =>
            rw [hlines, List.flatten_cons] at hrest
            rw [List.flatten_cons, List.cons_append, hrest]

theorem mem_of_mem_logicalLines {tally : Int → Token → Int} {depth : Int} {ts l : List Token}
    (hl : l ∈ logicalLines tally depth ts) : ∀ t ∈ l, t ∈ ts := by
  intro t ht
  rw [← flatten_logicalLines tally depth ts]
  exact List.mem_flatten.mpr ⟨l, hl, ht⟩

/-- The brackets that are open behind a token, where one that closes nothing does not count. -/
def openAfter (depth : Int) (t : Token) : Int := max 0 (depthAfter depth t)

/-- Behind `depth` open brackets, every closing one of the line closes one: at no place were more
closed than are open. -/
def ClosesOpened (depth : Int) (l : List Token) : Prop :=
  ∀ us, us <+: l → 0 ≤ us.foldl depthAfter depth

theorem ClosesOpened.tail {depth : Int} {t : Token} {l : List Token}
    (h : ClosesOpened depth (t :: l)) : ClosesOpened (depthAfter depth t) l := fun us hus =>
  h (t :: us) (List.cons_prefix_cons.mpr ⟨rfl, hus⟩)

/-- There both counts agree. -/
theorem ClosesOpened.openAfter_eq {depth : Int} {t : Token} {l : List Token}
    (h : ClosesOpened depth (t :: l)) : openAfter depth t = depthAfter depth t :=
  Int.max_eq_right (h.tail [] List.nil_prefix)

/-- If every closing bracket closes one, both counts cut alike. By induction on the tokens: the
first line goes on behind `depth` open brackets, the others begin behind none. -/
theorem logicalLines_openAfter {depth : Int} {ts : List Token}
    (hfirst : ∀ l ∈ (logicalLines openAfter depth ts).head?, ClosesOpened depth l)
    (hrest : ∀ l ∈ (logicalLines openAfter depth ts).tail, ClosesOpened 0 l) :
    logicalLines openAfter depth ts = logicalLines depthAfter depth ts := by
  induction ts generalizing depth with
  | nil => rfl
  | cons t ts ih =>
      rw [logicalLines] at hfirst hrest
      rw [logicalLines, logicalLines]
      by_cases hstop : t.lexeme = .newline ∧ depth ≤ 0
      · rw [if_pos hstop] at hrest
        rw [if_pos hstop, if_pos hstop]
        exact congrArg ([t] :: ·) (ih (fun l hl => hrest l (List.mem_of_mem_head? hl))
          fun l hl => hrest l (List.mem_of_mem_tail hl))
      · rw [if_neg hstop] at hfirst hrest
        rw [if_neg hstop, if_neg hstop]
        cases hlines : logicalLines openAfter (openAfter depth t) ts with
        | nil =>
            rw [hlines] at hfirst
            have hcount := (hfirst [t] rfl).openAfter_eq
            rw [hcount] at hlines
            rw [← ih (by rw [hlines]; exact nofun) (by rw [hlines]; exact nofun), hlines]
        | cons l ls =>
            rw [hlines] at hfirst hrest
            have hline := hfirst (t :: l) rfl
            rw [hline.openAfter_eq] at hlines
            have hhead : ∀ l' ∈ (l :: ls).head?, ClosesOpened (depthAfter depth t) l' := by
              intro l' hl'
              obtain rfl := Option.some.inj hl'
              exact hline.tail
            rw [← ih (by rw [hlines]; exact hhead) (by rw [hlines]; exact hrest), hlines]

/-- The diagnostics and the items are those that the lines call for: none for a blank line, its
items for one that fits the grammar, and for any other one a diagnostic at one of its tokens. -/
inductive Judged (path : Option Path) :
    List (List Token) → List Diagnostic → List Item → Prop
  | done : Judged path [] [] []
  | blank {stop : Token} {ls : List (List Token)} {ds : List Diagnostic} {is : List Item}
      (h : Judged path ls ds is) : Judged path ([stop] :: ls) ds is
  | fits {stop : Token} {ts : List Token} {ls : List (List Token)} {ds : List Diagnostic}
      {items is : List Item} (hl : DerivesLine path items ts) (h : Judged path ls ds is) :
      Judged path ((ts ++ [stop]) :: ls) ds (items ++ is)
  | malformed {stop t : Token} {ts : List Token} {ls : List (List Token)} {d : Diagnostic}
      {ds : List Diagnostic} {is : List Item} (hne : ts ≠ [])
      (hl : ∀ items, ¬DerivesLine path items ts) (hphase : d.phase = .parse)
      (ht : t ∈ ts ++ [stop]) (hspan : d.span = t.span path) (h : Judged path ls ds is) :
      Judged path ((ts ++ [stop]) :: ls) (d :: ds) is

/-- There are no more diagnostics than lines. -/
theorem Judged.length_le {path : Option Path} {ls : List (List Token)} {ds : List Diagnostic}
    {is : List Item} (h : Judged path ls ds is) : ds.length ≤ ls.length := by
  induction h with
  | done => exact Nat.le_refl 0
  | blank _ ih | fits _ _ ih => exact Nat.le_succ_of_le ih
  | malformed _ _ _ _ _ _ ih => exact Nat.succ_le_succ ih

/-- Tokens that are crossed belong to the line that they lead into. -/
theorem logicalLines_of_crosses {depth depth' : Int} {ts us l : List Token}
    {ls : List (List Token)} (h : Crosses depth ts depth')
    (hus : logicalLines depthAfter depth' us = l :: ls) :
    logicalLines depthAfter depth (ts ++ us) = (ts ++ l) :: ls := by
  induction h with
  | nil => exact hus
  | cons hend hnewline _ ih =>
      have hstays : ¬(_ ∧ _) := fun hstop => absurd (hnewline hstop.1) (Int.not_lt.mpr hstop.2)
      rw [List.cons_append, logicalLines, if_neg hstays, ih hus]
      rfl

/-! ## Lines in a walk -/

theorem DerivesLine.crosses {path : Option Path} {items : List Item} {ts : List Token}
    (h : DerivesLine path items ts) : Crosses 0 ts 0 := by
  have hwords : ∀ {φ : Phrase} {ts : List Token}, Derives path false φ ts → Crosses 0 ts 0 :=
    fun hd => hd.crosses (Int.le_refl 0) nofun
  have hcomment : ∀ {t : Token} {text : Text}, t.lexeme = .comment text → Crosses 0 [t] 0 :=
    fun ht => .plain (by rw [ht]; rfl) .nil
  have hstatement : ∀ {item : Item} {ts : List Token}, DerivesStatement path item ts →
      Crosses 0 ts 0 := by
    intro item ts hs
    cases hs with
    | binding ht he hws => exact .plain (by rw [ht]; rfl) (.plain (by rw [he]; rfl) (hwords hws))
    | words _ hws => exact hwords hws
  cases h with
  | comment ht => exact hcomment ht
  | statement hs => exact hstatement hs
  | commented hs ht => exact (hstatement hs).trans (hcomment ht)

theorem LineTree.crosses? (l : Option LineTree) : Crosses 0 (tokens? l) 0 := by
  cases l with
  | none => exact .nil
  | some l => exact (l.derives none).crosses

/-- The logical lines of rows are the rows. -/
theorem Row.logicalLines_tokens (rows : List Row) (last : Option LineTree) {stop : Token}
    (hstop : stop.lexeme = .endOfInput) :
    logicalLines depthAfter 0 (rows.flatMap tokens ++ (LineTree.tokens? last ++ [stop])) =
      rows.map tokens ++ [LineTree.tokens? last ++ [stop]] := by
  induction rows with
  | nil =>
      rw [List.flatMap_nil, List.nil_append, List.map_nil, List.nil_append]
      refine logicalLines_of_crosses (LineTree.crosses? last) ?_
      rw [logicalLines, if_neg (by rw [hstop]; exact nofun)]
      rfl
  | cons r rows ih =>
      rw [List.flatMap_cons, List.append_assoc, tokens, List.append_assoc]
      refine logicalLines_of_crosses (LineTree.crosses? r.line) ?_
      rw [List.singleton_append, logicalLines, if_pos ⟨r.newline, Int.le_refl 0⟩, ih]
      rfl

theorem DerivesLine.not_newlines {path : Option Path} {items : List Item} {ts : List Token}
    (h : DerivesLine path items ts) : ∀ i ∈ items, i.isNewlines = false := by
  have hstatement : ∀ {item : Item} {ts : List Token}, DerivesStatement path item ts →
      item.isNewlines = false := fun hs => by cases hs <;> rfl
  cases h with
  | comment _ => exact List.forall_mem_singleton.mpr rfl
  | statement hs => exact List.forall_mem_singleton.mpr (hstatement hs)
  | commented hs _ =>
      exact List.forall_mem_cons.mpr ⟨hstatement hs, List.forall_mem_singleton.mpr rfl⟩

namespace Cursor

variable {c d f n : Cursor} {e : ParseError} {ts us : List Token} {started : Bool}
  {blank : Option Span}

/-! ### Lines that break off -/

theorem reaches_binding {name : Text} (h : c.boundName? = some name) :
    c.Reaches c.advance.advance := by
  obtain ⟨t, a, us, hr, ht, ha⟩ := boundName?_eq_some.mp h
  have hadvance : c.advance.rest = a :: us := by rw [advance, hr]; rfl
  refine (reaches_advance (by rw [current_of_rest hr, ht]; rfl)).trans ?_
  exact reaches_advance (by rw [current_of_rest hadvance, ha]; rfl)

theorem reaches_of_statement {item : Item} (h : c.statement.Gives item d) (hdepth : 0 ≤ c.depth) :
    c.Reaches d := by
  rcases gives_statement_iff.mp h with ⟨name, ws, hname, hws, -⟩ | ⟨ws, -, hws, -⟩
  · have ha := reaches_binding hname
    exact ha.trans (reaches_of_words hws (ha.depth hdepth))
  · exact reaches_of_words hws hdepth

theorem breaksOff_lineTail (h : c.lineTail.Faults e f) : c.BreaksOff e f := by
  rcases faults_lineTail h with ⟨text, hc, hend⟩ | hend
  · have hplain : c.current.lexeme.isPlain = true := by rw [comment?_eq_some.mp hc]; rfl
    exact (faults_expectLineEnd hend).breaksOff.behind (reaches_advance hplain)
  · exact (faults_expectLineEnd hend).breaksOff

theorem breaksOff_line (h : c.line.Faults e f) (hdepth : 0 ≤ c.depth) : c.BreaksOff e f := by
  rcases faults_line h with htail | hstatement | ⟨item, d, hstatement, htail⟩
  · exact breaksOff_lineTail htail
  · rcases faults_statement hstatement with ⟨name, hname, hws⟩ | hws
    · have ha := reaches_binding hname
      exact (breaksOff_words hws (ha.depth hdepth)).behind ha
    · exact breaksOff_words hws hdepth
  · exact (breaksOff_lineTail htail).behind (reaches_of_statement hstatement hdepth)

/-- A line ends here. -/
def EndsLine (d : Cursor) : Prop := d.atEnd = true ∨ (d.sees .newline = true ∧ d.depth ≤ 0)

/-- Recovery walks to the end of the line. -/
theorem walks_toLineEnd (c : Cursor) : ∃ ts, c.Walks ts c.toLineEnd ∧ c.toLineEnd.EndsLine := by
  fun_induction toLineEnd c with
  | case1 c ha => exact ⟨[], .refl c, Or.inl ha⟩
  | case2 c ha hs =>
      rw [Bool.and_eq_true, decide_eq_true_eq] at hs
      exact ⟨[], .refl c, Or.inr hs⟩
  | case3 c ha hs ih =>
      obtain ⟨ts, hts, hend⟩ := ih
      have hstep : c.Walks [c.current]
          { c.advance with depth := depthAfter c.depth c.current } := by
        refine walks_step (fun hl => ha (sees_eq hl _)) fun hl => Int.not_le.mp fun hle => hs ?_
        rw [Bool.and_eq_true, decide_eq_true_eq]
        exact ⟨sees_eq hl _, hle⟩
      exact ⟨_, hstep.trans hts, hend⟩

/-! ### From line to line -/

/-- Where the next line begins: behind the line break, or still at the end of input. -/
structure NextLine (d n : Cursor) : Prop where
  path : n.path = d.path
  depth : n.depth = 0
  ends : (d.atEnd = true ∧ n.atEnd = true) ∨
    (d.sees .newline = true ∧ d.depth ≤ 0 ∧ n.rest = d.advance.rest)

theorem nextLine_of_expectLineEnd (h : d.expectLineEnd.Gives () n) (hdepth : d.depth = 0) :
    d.NextLine n := by
  rcases gives_expectLineEnd_iff.mp h with ⟨hs, rfl⟩ | ⟨ha, rfl⟩
  · exact ⟨rfl, hdepth, Or.inr ⟨hs, Int.le_of_eq hdepth, rfl⟩⟩
  · exact ⟨rfl, hdepth, Or.inl ⟨ha, ha⟩⟩

theorem nextLine_recover (d : Cursor) : d.toLineEnd.NextLine d.recover := by
  obtain ⟨ts, -, hend⟩ := walks_toLineEnd d
  unfold recover skip
  rcases hend with ha | ⟨hs, hle⟩
  · have hn : ¬({ d.toLineEnd with depth := 0 } : Cursor).sees .newline = true := fun hs => by
      have := (of_decide_eq_true hs).symm.trans (of_decide_eq_true ha)
      cases this
    rw [if_neg hn]
    exact ⟨rfl, rfl, Or.inl ⟨ha, ha⟩⟩
  · rw [if_pos (show ({ d.toLineEnd with depth := 0 } : Cursor).sees .newline = true from hs)]
    exact ⟨rfl, rfl, Or.inr ⟨hs, hle, rfl⟩⟩

theorem rest_eq_cons (h : c.rest ≠ []) : ∃ us, c.rest = c.current :: us := by
  cases hr : c.rest with
  | nil => exact absurd hr h
  | cons t us => exact ⟨us, by rw [current_of_rest hr]⟩

theorem current_congr (h : c.rest = d.rest) (hd : d.rest ≠ []) : c.current = d.current := by
  obtain ⟨us, hus⟩ := rest_eq_cons hd
  exact current_of_rest (h.trans hus)

/-- The first token of a walk, or the one in front of which it ends. -/
theorem Walks.current_mem (h : c.Walks ts d) (hd : d.rest ≠ []) :
    c.current ∈ ts ++ [d.current] := by
  cases ts with
  | nil =>
      rw [current_congr h.rest hd]
      exact List.mem_cons_self
  | cons t ts =>
      rw [current_of_rest h.rest]
      exact List.mem_cons_self

/-- A walk to the end of a line makes up the line. -/
theorem logicalLines_of_walk (h : c.Walks ts d) (hend : EndsInput c.rest) (hn : d.NextLine n) :
    d.rest ≠ [] ∧
      ((n.atEnd = true ∧ logicalLines depthAfter c.depth c.rest = [ts ++ [d.current]]) ∨
        (EndsInput n.rest ∧
          logicalLines depthAfter c.depth c.rest =
            (ts ++ [d.current]) :: logicalLines depthAfter 0 n.rest)) := by
  have hrest : EndsInput d.rest := by
    have := hend
    rw [h.rest] at this
    exact this.behind h.crosses.ne_end
  rcases hn.ends with ⟨ha, han⟩ | ⟨hs, hle, hrest'⟩
  · obtain ⟨t, ht, hl⟩ := hrest.of_atEnd (atEnd_iff.mp ha)
    have hstop : logicalLines depthAfter d.depth d.rest = [[d.current]] := by
      rw [current_of_rest ht, ht, logicalLines, if_neg (by rw [hl]; exact nofun)]
      rfl
    refine ⟨by rw [ht]; simp, Or.inl ⟨han, ?_⟩⟩
    rw [h.rest, logicalLines_of_crosses h.crosses hstop]
  · have hus := rest_of_sees hs (by decide)
    have hl := (sees_iff rfl).mp hs
    rw [← hrest'] at hus
    have hstop : logicalLines depthAfter d.depth d.rest =
        [d.current] :: logicalLines depthAfter 0 n.rest := by
      rw [hus, logicalLines, if_pos ⟨hl, hle⟩]
    refine ⟨by rw [hus]; simp, Or.inr ⟨?_, ?_⟩⟩
    · rw [hus] at hrest
      exact hrest.behind_newline hl
    · rw [h.rest, logicalLines_of_crosses h.crosses hstop]

/-- From the start of a line its end is some tokens away. -/
theorem Walks.ne_nil (h : c.Walks ts d) (hc : c.StartsLine) (hne : d.rest ≠ [])
    (hd : d.EndsLine) : ts ≠ [] := by
  rintro rfl
  have hcur := current_congr h.rest hne
  rcases hd with ha | ⟨hs, -⟩
  · have := hc.atEnd
    rw [atEnd, sees, hcur] at this
    exact absurd (this.symm.trans ha) (by decide)
  · have := hc.newline
    rw [sees, hcur] at this
    exact absurd (this.symm.trans hs) (by decide)

/-- What does not fit is not derived from the tokens up to the end of the line. -/
theorem Walks.not_derivesLine (h : c.Walks ts d) (hne : d.rest ≠ []) (hd : d.EndsLine)
    (hdepth : c.depth = 0) (hline : c.line.Faults e f) (items : List Item) :
    ¬DerivesLine c.path items ts := by
  intro hder
  obtain ⟨htakes, hrest⟩ := takes_past h.rest
  have hcur := current_congr hrest hne
  have hexpect : ∃ n, (c.past ts.length).expectLineEnd.Gives () n := by
    rcases hd with ha | ⟨hs, -⟩
    · refine ⟨_, gives_expectLineEnd_iff.mpr (Or.inr ⟨?_, rfl⟩)⟩
      rwa [atEnd, sees, hcur]
    · refine ⟨_, gives_expectLineEnd_iff.mpr (Or.inl ⟨?_, rfl⟩)⟩
      rwa [sees, hcur]
  obtain ⟨n, hn⟩ := hexpect
  exact (gives_line hder htakes rfl hdepth hn).not_faults hline

theorem filter_gapItems (blank : Option Span) :
    (gapItems blank).filter (!·.isNewlines) = [] := by cases blank <;> rfl

/-- Only blank lines leave an item that is no line's own. -/
theorem filter_withItems (blank : Option Span) (items : List Item) (p : Program)
    (hitems : ∀ i ∈ items, i.isNewlines = false) :
    (p.withItems (gapItems blank ++ items)).items.filter (!·.isNewlines) =
      items ++ p.items.filter (!·.isNewlines) := by
  have hkept : items.filter (!·.isNewlines) = items :=
    List.filter_eq_self.mpr fun i hi => by rw [hitems i hi]; rfl
  show (gapItems blank ++ items ++ p.items).filter _ = _
  rw [List.filter_append, List.filter_append, filter_gapItems, hkept, List.nil_append]

/-- Whether a line fits or not, the rest of the program begins where a walk along it ends. -/
theorem exists_judged_behind (hwalk : c.Walks ts d) (hnext : d.NextLine n) (hdepth : c.depth = 0)
    (hend : EndsInput c.rest)
    (hrest : n.depth = 0 → EndsInput n.rest →
      Judged n.path (logicalLines depthAfter 0 n.rest) (n.lines true none).1.diagnostics
        ((n.lines true none).1.items.filter (!·.isNewlines))) :
    d.rest ≠ [] ∧ ∃ ls, logicalLines depthAfter 0 c.rest = (ts ++ [d.current]) :: ls ∧
      Judged c.path ls (n.lines true none).1.diagnostics
        ((n.lines true none).1.items.filter (!·.isNewlines)) := by
  obtain ⟨hne, h⟩ := logicalLines_of_walk hwalk hend hnext
  rw [hdepth] at h
  refine ⟨hne, ?_⟩
  rcases h with ⟨han, hcut⟩ | ⟨hends, hcut⟩
  · refine ⟨[], hcut, ?_⟩
    rw [lines_end han]
    exact .done
  · refine ⟨_, hcut, ?_⟩
    rw [← hwalk.path, ← hnext.path]
    exact hrest hnext.depth hends

/-- What is read from the start of a line on is what the lines call for. By induction from line to
line: where the next line begins, it is read as if nothing had been read before. -/
theorem judged_lines {started : Bool} {blank : Option Span} (hdepth : c.depth = 0)
    (hend : EndsInput c.rest) :
    Judged c.path (logicalLines depthAfter 0 c.rest) (c.lines started blank).1.diagnostics
      ((c.lines started blank).1.items.filter (!·.isNewlines)) := by
  induction c using line_induction generalizing started blank with
  | ended c ha =>
      obtain ⟨t, ht, hl⟩ := hend.of_atEnd (atEnd_iff.mp ha)
      rw [lines_end ha, ht, logicalLines, if_neg (by rw [hl]; exact nofun)]
      exact .blank .done
  | blank c ha hn ih =>
      have hus := rest_of_sees hn (by decide)
      have hl := (sees_iff rfl).mp hn
      rw [hus] at hend
      rw [lines_blank ha hn, hus, logicalLines, if_pos ⟨hl, Int.le_refl 0⟩]
      exact .blank (ih hdepth (hend.behind_newline hl))
  | line c items n ha hn hline ih =>
      obtain ⟨ts, d, htakes, hder, hexpect⟩ := derives_line hline ⟨hn, ha, hdepth⟩
      have hcrosses : Crosses c.depth ts d.depth := by
        rw [htakes.depth, hdepth]
        exact hder.crosses
      have hnext := nextLine_of_expectLineEnd hexpect (htakes.depth.trans hdepth)
      obtain ⟨-, ls, hcut, hrest⟩ :=
        exists_judged_behind ⟨htakes.rest, htakes.path, hcrosses⟩ hnext hdepth hend ih
      rw [lines_line ha hn hline, hcut, filter_withItems _ _ _ hder.not_newlines]
      exact .fits hder hrest
  | error c e f ha hn hline ih =>
      obtain ⟨us, hus, -, htoken⟩ := breaksOff_line hline (Int.le_of_eq hdepth.symm)
      obtain ⟨vs, hvs, hline'⟩ := walks_toLineEnd f
      have hwalk := hus.trans hvs
      obtain ⟨hne, ls, hcut, hrest⟩ :=
        exists_judged_behind hwalk (nextLine_recover f) hdepth hend ih
      have hgap := filter_withItems blank [] ((f.recover.lines true none).1.withDiagnostic
        (e.diagnostic c.path)) fun i hi => absurd hi List.not_mem_nil
      rw [List.append_nil, List.nil_append] at hgap
      rw [lines_error ha hn hline, hcut, hgap]
      refine .malformed (t := e.token) ?_ ?_ rfl ?_ rfl hrest
      · exact hwalk.ne_nil ⟨hn, ha, hdepth⟩ hne hline'
      · exact hwalk.not_derivesLine hne hline' hdepth hline
      · rw [List.append_assoc]
        refine htoken.elim (List.mem_append_left _) fun htoken => List.mem_append_right _ ?_
        rw [htoken]
        exact hvs.current_mem hne

end Cursor

/-! ## Sources -/

/-- Reading a source that is scanned without a fault judges it line by line. -/
theorem judged_parse {s : Text} {path : Option Path} (h : (tokenize s).2 = none) :
    Judged path (logicalLines depthAfter 0 (tokenize s).1) (parse s path).diagnostics
      ((parse s path).items.filter (!·.isNewlines)) := by
  rw [parse_of_tokens h]
  exact Cursor.judged_lines (c := Cursor.ofTokens path (tokenize s).1) rfl (endsInput_tokenize h)

/-- A bracket that is closed without being open, one that stays open, and a line that fits. -/
theorem judged_parse_stray : (tokenize "1 ] [\n2 ]\n3").2 = none ∧
    Judged none (logicalLines depthAfter 0 (tokenize "1 ] [\n2 ]\n3").1)
      (parse "1 ] [\n2 ]\n3" none).diagnostics
      ((parse "1 ] [\n2 ]\n3" none).items.filter (!·.isNewlines)) := by
  have hlex : (tokenize "1 ] [\n2 ]\n3").2 = none := by decide +kernel
  exact ⟨hlex, judged_parse hlex⟩

/-- If every closing bracket closes one, the lines are those that the open brackets make, and
reading judges these. -/
theorem judged_parse_of_closesOpened {s : Text} {path : Option Path} (h : (tokenize s).2 = none)
    (hclosed : ∀ l ∈ logicalLines openAfter 0 (tokenize s).1, ClosesOpened 0 l) :
    Judged path (logicalLines openAfter 0 (tokenize s).1) (parse s path).diagnostics
      ((parse s path).items.filter (!·.isNewlines)) := by
  have hlines := logicalLines_openAfter (fun l hl => hclosed l (List.mem_of_mem_head? hl))
    fun l hl => hclosed l (List.mem_of_mem_tail hl)
  rw [hlines, parse_of_tokens h]
  exact Cursor.judged_lines (c := Cursor.ofTokens path (tokenize s).1) rfl (endsInput_tokenize h)

/-- Where a closing bracket that closes nothing does not count, lines are longer than what is read
as one: here two diagnostics fall on one line. -/
theorem exists_not_judged_parse : ¬∀ (s : Text) (path : Option Path), (tokenize s).2 = none →
    Judged path (logicalLines openAfter 0 (tokenize s).1) (parse s path).diagnostics
      ((parse s path).items.filter (!·.isNewlines)) := by
  intro h
  have hjudged := h "1 ] [\n2 ]" none (by decide +kernel)
  have hlines : (logicalLines openAfter 0 (tokenize "1 ] [\n2 ]").1).length = 1 := by decide +kernel
  have hdiags : (parse "1 ] [\n2 ]" none).diagnostics.length = 2 := by decide +kernel
  have hle := hjudged.length_le
  omega

end GlyphFormat
