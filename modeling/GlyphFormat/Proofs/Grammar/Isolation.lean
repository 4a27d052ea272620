import GlyphFormat.Proofs.Grammar.Mirrors
import GlyphFormat.Proofs.Grammar.Rebreaks

/-!
# Lines apart

A line that closes as many brackets as it opens leaves nothing behind, whether it fits the grammar
or not: what stands below it is read as if it stood alone (`parse_apart`). Only the blank lines at
the front of that part know of it, since between two lines they leave an item.
-/

namespace GlyphFormat

open Cursor (depthAfter)

variable {n : Nat}

/-- The diagnostic, that many lines further down. -/
def Diagnostic.down (n : Nat) (d : Diagnostic) : Diagnostic := { d with span := d.span.down n }

theorem Diagnostic.down_zero (d : Diagnostic) : d.down 0 = d := rfl

namespace Program

/-- The program, that many lines further down. -/
def down (n : Nat) (p : Program) : Program :=
  ⟨p.items.map (Item.down n), p.diagnostics.map (Diagnostic.down n)⟩

/-- The program behind a line that leaves these items and diagnostics. -/
def behind (items : List Item) (ds : List Diagnostic) (p : Program) : Program :=
  ⟨items ++ p.items, ds ++ p.diagnostics⟩

theorem down_behind (items : List Item) (ds : List Diagnostic) (p : Program) :
    (p.behind items ds).down n =
      (p.down n).behind (items.map (Item.down n)) (ds.map (Diagnostic.down n)) := by
  rw [behind, down, List.map_append, List.map_append]
  rfl

end Program

theorem gapItems_down (blank : Option Span) :
    gapItems (blank.map (Span.down n)) = (gapItems blank).map (Item.down n) := by
  cases blank <;> rfl

/-! ## The same lines elsewhere -/

/-- What is behind a line that stands further down too: nothing, or the same tokens there. -/
def SameBelow (n : Nat) (ts us : List Token) : Prop :=
  (ts ≠ [] → EndsInput ts) ∧ us = ts.map (Token.down n)

/-- The same tokens further down begin with the same line, and the same is behind it. -/
theorem SameLine.of_endsInput {depth : Int} {ts : List Token} (h : EndsInput ts) :
    SameLine n (SameBelow n) depth ts (ts.map (Token.down n)) := by
  induction ts generalizing depth with
  | nil =>
      obtain ⟨us, t, hnil, -⟩ := h
      simp at hnil
  | cons t ts ih =>
      by_cases hend : t.lexeme = .endOfInput
      · exact .input hend ⟨fun hne => absurd rfl hne, rfl⟩
      by_cases hstop : t.lexeme = .newline ∧ depth ≤ 0
      · exact .stop hstop.1 hstop.2 ⟨fun _ => h.behind_newline hstop.1, rfl⟩
      · refine .cons hend (fun hl => Int.not_le.mp fun hle => hstop ⟨hl, hle⟩) (ih ?_)
        exact @EndsInput.behind [t] ts h (List.forall_mem_singleton.mpr hend)

/-- Tokens that hold no line break and leave no bracket open are a line in front of one. -/
theorem SameLine.of_closed {R : List Token → List Token → Prop} {depth : Int}
    {ts us vs : List Token} {stop : Token}
    (hts : ∀ t ∈ ts, t.lexeme ≠ .newline ∧ t.lexeme ≠ .endOfInput)
    (hdepth : depth + Lexeme.balance (ts.map Token.lexeme) ≤ 0) (hstop : stop.lexeme = .newline)
    (h : R us vs) : SameLine 0 R depth (ts ++ stop :: us) (ts ++ stop :: vs) := by
  induction ts generalizing depth with
  | nil => exact .stop hstop (by rwa [List.map_nil, Lexeme.balance, Int.add_zero] at hdepth) h
  | cons t ts ih =>
      obtain ⟨⟨hnewline, hend⟩, hts⟩ := List.forall_mem_cons.mp hts
      refine .cons hend (fun hl => absurd hl hnewline) (ih hts ?_)
      rw [List.map_cons, Lexeme.balance, ← Int.add_assoc] at hdepth
      rwa [Cursor.depthAfter_eq]

/-! ## Tokens that hold a line -/

/-- Some line of the tokens is not blank. -/
def HoldsLine (ts : List Token) : Prop :=
  ∃ t ∈ ts, t.lexeme ≠ .newline ∧ t.lexeme ≠ .endOfInput

instance (ts : List Token) : Decidable (HoldsLine ts) :=
  inferInstanceAs (Decidable (∃ t ∈ ts, _))

theorem holdsLine_newline {t : Token} {ts : List Token} (ht : t.lexeme = .newline) :
    HoldsLine (t :: ts) ↔ HoldsLine ts := by
  constructor
  · rintro ⟨u, hu, hne⟩
    rcases List.mem_cons.mp hu with rfl | hu
    · exact absurd ht hne.1
    · exact ⟨u, hu, hne⟩
  · exact fun ⟨u, hu, hne⟩ => ⟨u, List.mem_cons_of_mem t hu, hne⟩

namespace Cursor

variable {c c' d : Cursor} {started : Bool} {blank : Option Span} {items : List Item}
  {e : ParseError} {R : List Token → List Token → Prop}

open Mirrors (Onward)

theorem path_of_line_gives (h : c.line.Gives items d) (hc : c.StartsLine) : d.path = c.path := by
  obtain ⟨ts, z, htakes, -, hend⟩ := derives_line h hc
  rw [(nextLine_of_expectLineEnd hend (htakes.depth.trans hc.depth)).path, htakes.path]

theorem path_of_line_faults (h : c.line.Faults e d) (hdepth : c.depth = 0) :
    d.recover.path = c.path := by
  obtain ⟨ts, hts, -⟩ := breaksOff_line h (Int.le_of_eq hdepth.symm)
  obtain ⟨us, hus, -⟩ := walks_toLineEnd d
  rw [(nextLine_recover d).path, hus.path, hts.path]

/-- What the first line leaves, here and further down, and where the next line begins. -/
structure FirstLine (n : Nat) (R : List Token → List Token → Prop) (c c' : Cursor)
    (items : List Item) (ds : List Diagnostic) (d d' : Cursor) : Prop where
  onward : Onward R d d'
  path : d.path = c.path
  lt : d.remaining < c.remaining
  here : ∀ started blank, (c.lines started blank).1 =
    (d.lines true none).1.behind (gapItems blank ++ items) ds
  there : ∀ started blank, (c'.lines started blank).1 =
    (d'.lines true none).1.behind (gapItems blank ++ items.map (Item.down n))
      (ds.map (Diagnostic.down n))

theorem firstLine_of_gives (h : c.Mirrors n R c') (hc : c.StartsLine)
    (hline : c.line.Gives items d) : ∃ d', FirstLine n R c c' items [] d d' := by
  obtain ⟨d', hline', honward⟩ := h.line_gives hc hline
  refine ⟨d', honward, path_of_line_gives hline hc,
    line_lt hline.choose_spec hc.newline hc.atEnd, fun _ _ => ?_, fun _ _ => ?_⟩
  · rw [lines_line hc.atEnd hc.newline hline]
    rfl
  · rw [lines_line (h.atEnd.trans hc.atEnd) ((h.sees _).trans hc.newline) hline']
    rfl

theorem firstLine_of_faults (h : c.Mirrors n R c') (hc : c.StartsLine)
    (hline : c.line.Faults e d) :
    ∃ d', FirstLine n R c c' [] [e.diagnostic c.path] d.recover d' := by
  obtain ⟨f, hline', honward⟩ := h.line_faults hc.depth hline
  refine ⟨f.recover, honward, path_of_line_faults hline hc.depth,
    recover_lt hline.follows hc.atEnd, fun _ _ => ?_, fun _ _ => ?_⟩
  · rw [lines_error hc.atEnd hc.newline hline, List.append_nil]
    rfl
  · rw [lines_error (h.atEnd.trans hc.atEnd) ((h.sees _).trans hc.newline) hline', List.map_nil,
      List.append_nil, h.path]
    rfl

/-- The whole program is the same further down if what is behind its first line is. -/
theorem FirstLine.lines_down {ds : List Diagnostic}
    (hfirst : FirstLine n (SameBelow n) c c' items ds d d')
    (hbehind : EndsInput d.rest → d'.rest = d.rest.map (Token.down n) →
      (d'.lines true none).1 = (d.lines true none).1.down n)
    (started : Bool) (blank : Option Span) :
    (c'.lines started (blank.map (Span.down n))).1 = (c.lines started blank).1.down n := by
  rw [hfirst.here, hfirst.there, Program.down_behind, List.map_append, gapItems_down]
  refine congrArg (Program.behind _ _) ?_
  rcases hfirst.onward.rest with ⟨had, had', -⟩ | ⟨hd, hd'⟩
  · rw [lines_end had, lines_end had']
    rfl
  · by_cases hne : d.rest = []
    · have hatEnd : ∀ {b : Cursor}, b.rest = [] → b.atEnd = true := fun hb => by
        rw [atEnd, sees, current, hb]
        rfl
      rw [lines_end (hatEnd hne), lines_end (hatEnd (by rw [hd', hne]; rfl))]
      rfl
    · exact hbehind (hd hne) hd'

theorem mirrors_of_endsInput (hpath : c'.path = c.path) (hdepth : c.depth = 0)
    (hdepth' : c'.depth = 0) (hend : EndsInput c.rest)
    (hrest : c'.rest = c.rest.map (Token.down n)) : c.Mirrors n (SameBelow n) c' :=
  ⟨hpath, hdepth'.trans hdepth.symm, by rw [hrest]; exact .of_endsInput hend⟩

/-- The same tokens further down are read as the same program further down. By induction from line
to line. -/
theorem lines_down (hpath : c'.path = c.path) (hdepth : c.depth = 0) (hdepth' : c'.depth = 0)
    (hend : EndsInput c.rest) (hrest : c'.rest = c.rest.map (Token.down n)) :
    (c'.lines started (blank.map (Span.down n))).1 = (c.lines started blank).1.down n := by
  induction c using line_induction generalizing c' started blank with
  | ended c ha =>
      have hmirrors := mirrors_of_endsInput hpath hdepth hdepth' hend hrest
      rw [lines_end ha, lines_end (hmirrors.atEnd.trans ha)]
      rfl
  | blank c ha hn ih =>
      have hmirrors := mirrors_of_endsInput hpath hdepth hdepth' hend hrest
      have hus := rest_of_sees hn (by decide)
      have hblank : (if started && (blank.map (Span.down n)).isNone then some c'.here
          else blank.map (Span.down n)) =
          (if started && blank.isNone then some c.here else blank).map (Span.down n) := by
        rw [Option.isNone_map, here, hmirrors.current, hpath, Token.span_down]
        split <;> rfl
      have hrest' : c'.advance.rest = c.advance.rest.map (Token.down n) := by
        rw [advance, hrest, hus]
        rfl
      rw [hus] at hend
      rw [lines_blank ha hn, lines_blank (hmirrors.atEnd.trans ha) ((hmirrors.sees _).trans hn),
        hblank]
      exact ih hpath hdepth hdepth' (hend.behind_newline ((sees_iff rfl).mp hn)) hrest'
  | line c items d ha hn hline ih =>
      have hmirrors := mirrors_of_endsInput hpath hdepth hdepth' hend hrest
      obtain ⟨d', hfirst⟩ := firstLine_of_gives hmirrors ⟨hn, ha, hdepth⟩ hline
      obtain ⟨hd, hd'⟩ := hfirst.onward.depth
      exact hfirst.lines_down (@ih d' true none hfirst.onward.path hd hd') started blank
  | error c e d ha hn hline ih =>
      have hmirrors := mirrors_of_endsInput hpath hdepth hdepth' hend hrest
      obtain ⟨d', hfirst⟩ := firstLine_of_faults hmirrors ⟨hn, ha, hdepth⟩ hline
      obtain ⟨hd, hd'⟩ := hfirst.onward.depth
      exact hfirst.lines_down (@ih d' true none hfirst.onward.path hd hd') started blank

/-! ## Blank lines in front -/

/-- A line that is not blank knows of what was read before it by the blank lines in front only. -/
theorem lines_behind_gap (ha : c.atEnd = false) (hn : c.sees .newline = false) (started : Bool)
    (blank : Option Span) :
    (c.lines started blank).1 = (c.lines false none).1.behind (gapItems blank) [] := by
  rcases Read.gives_or_faults c.line with ⟨items, d, hline⟩ | ⟨e, f, hline⟩
  · rw [lines_line ha hn hline, lines_line ha hn hline, Program.withItems, List.append_assoc]
    rfl
  · rw [lines_error ha hn hline, lines_error ha hn hline]
    rfl

theorem holdsLine_of_startsLine (hend : EndsInput c.rest) (ha : c.atEnd = false)
    (hn : c.sees .newline = false) : HoldsLine c.rest := by
  obtain ⟨us, hus⟩ := rest_eq_cons (c := c) fun hnil => by
    obtain ⟨us, t, heq, -⟩ := hend
    rw [hnil] at heq
    simp at heq
  refine ⟨c.current, by rw [hus]; exact List.mem_cons_self, fun hl => ?_, fun hl => ?_⟩
  · exact absurd (hn.symm.trans (sees_eq hl _)) (by decide)
  · exact absurd (ha.symm.trans (sees_eq hl _)) (by decide)

theorem not_holdsLine_of_atEnd (hend : EndsInput c.rest) (ha : c.atEnd = true) :
    ¬HoldsLine c.rest := by
  obtain ⟨t, ht, hl⟩ := hend.of_atEnd (atEnd_iff.mp ha)
  rw [ht]
  rintro ⟨u, hu, hne⟩
  obtain rfl := List.mem_singleton.mp hu
  exact hne.2 hl

/-- Where a line break stands in front, what is behind it holds a line if and only if all does. -/
theorem holdsLine_advance (hend : EndsInput c.rest) (hn : c.sees .newline = true) :
    EndsInput c.advance.rest ∧ (HoldsLine c.rest ↔ HoldsLine c.advance.rest) := by
  have hus := rest_of_sees hn (by decide)
  have hl := (sees_iff rfl).mp hn
  rw [hus] at hend ⊢
  exact ⟨hend.behind_newline hl, holdsLine_newline hl⟩

/-- A blank line that was read before leaves an item where another line follows. -/
theorem lines_after_blank {span : Span} (hend : EndsInput c.rest) :
    (c.lines true (some span)).1 = (c.lines false none).1.behind
      (if HoldsLine c.rest then [.newlines (some span)] else []) [] := by
  induction c using line_induction with
  | ended c ha =>
      rw [lines_end ha, lines_end ha, if_neg (not_holdsLine_of_atEnd hend ha)]
      rfl
  | blank c ha hn ih =>
      obtain ⟨hrest, hholds⟩ := holdsLine_advance hend hn
      rw [lines_blank ha hn, lines_blank ha hn]
      simp only [hholds]
      exact ih hrest
  | line c _ _ ha hn _ _ | error c _ _ ha hn _ _ =>
      rw [if_pos (holdsLine_of_startsLine hend ha hn)]
      exact lines_behind_gap ha hn true (some span)

/-- Where a line was read before, the blank lines in front leave an item. -/
theorem lines_started (hend : EndsInput c.rest) :
    (c.lines true none).1 = (c.lines false none).1.behind
      (if c.sees .newline = true ∧ HoldsLine c.rest then [.newlines (some c.here)] else []) [] := by
  by_cases ha : c.atEnd = true
  · rw [lines_end ha, lines_end ha, if_neg fun h => not_holdsLine_of_atEnd hend ha h.2]
    rfl
  have ha := Bool.eq_false_iff.mpr ha
  by_cases hn : c.sees .newline = true
  · obtain ⟨hrest, hholds⟩ := holdsLine_advance hend hn
    rw [lines_blank ha hn, lines_blank ha hn]
    simp only [hn, true_and, hholds]
    exact lines_after_blank hrest
  · rw [if_neg fun h => hn h.1]
    exact lines_behind_gap ha (Bool.eq_false_iff.mpr hn) true none

/-! ## A line that leaves no bracket open -/

/-- What is behind the line's end is read as if no line but a complete one had been read before. The
line leaves what it leaves in front of the end of input. -/
theorem exists_lines_behind {ts vs : List Token} {stop last : Token} (hne : ts ≠ [])
    (hts : ∀ t ∈ ts, t.lexeme ≠ .newline ∧ t.lexeme ≠ .endOfInput)
    (hsum : Lexeme.balance (ts.map Token.lexeme) ≤ 0) (hstop : stop.lexeme = .newline)
    (hlast : last.lexeme = .endOfInput) (hc : c.rest = ts ++ stop :: vs)
    (hc' : c'.rest = ts ++ stop :: [last]) (hpath : c'.path = c.path) (hdepth : c.depth = 0)
    (hdepth' : c'.depth = 0) :
    ∃ items ds, ∃ d : Cursor, (c'.lines false none).1 = ⟨items, ds⟩ ∧
      (c.lines false none).1 = (d.lines true none).1.behind items ds ∧
      d.rest = vs ∧ d.path = c.path ∧ d.depth = 0 := by
  have hmirrors : c.Mirrors 0 (fun us us' => us = vs ∧ us' = [last]) c' := by
    refine ⟨hpath, hdepth'.trans hdepth.symm, ?_⟩
    rw [hc, hc', hdepth]
    exact .of_closed hts (by rwa [Int.zero_add]) hstop ⟨rfl, rfl⟩
  have hstarts : c.StartsLine := by
    obtain ⟨t, us, rfl⟩ := List.exists_cons_of_ne_nil hne
    obtain ⟨hnewline, hend⟩ := hts t List.mem_cons_self
    have hcur : c.current = t := current_of_rest hc
    refine ⟨Bool.eq_false_iff.mpr fun hs => hnewline ?_,
      Bool.eq_false_iff.mpr fun hs => hend ?_, hdepth⟩
    · rw [← hcur]
      exact (sees_iff rfl).mp hs
    · rw [← hcur]
      exact (sees_iff rfl).mp hs
  obtain ⟨items, ds, d, d', hfirst⟩ : ∃ items ds d d', FirstLine 0 _ c c' items ds d d' := by
    rcases Read.gives_or_faults c.line with ⟨items, d, hline⟩ | ⟨e, f, hline⟩
    · exact ⟨_, _, _, firstLine_of_gives hmirrors hstarts hline⟩
    · exact ⟨_, _, _, firstLine_of_faults hmirrors hstarts hline⟩
  obtain ⟨hd, hd'⟩ : d.rest = vs ∧ d'.rest = [last] := by
    rcases hfirst.onward.rest with ⟨-, -, -, hnil⟩ | h
    · exact absurd hnil (List.cons_ne_nil _ _).symm
    · exact h
  have hatEnd : d'.atEnd = true := (sees_iff rfl).mpr (by rw [current_of_rest hd', hlast])
  refine ⟨items, ds, d, ?_, hfirst.here false none, hd, hfirst.path, hfirst.onward.depth.1⟩
  rw [hfirst.there, lines_end hatEnd, List.map_id'' Item.down_zero,
    List.map_id'' Diagnostic.down_zero]
  show (⟨items ++ [], ds ++ []⟩ : Program) = _
  rw [List.append_nil, List.append_nil]

end Cursor

/-! ## Sources -/

/-- The blank lines at the front of a text, as the item that they leave behind another line: none
unless a line follows that is not blank. -/
def leadingGap (path : Option Path) (b : Text) : List Item :=
  if b.lexemes.head? = some .newline ∧ ∃ l ∈ b.lexemes, l ≠ .newline then
    [.newlines ((tokenize b).1.head?.map (Token.span path))]
  else []

theorem lines_started_ofTokens {b : Text} {path : Option Path} (h : (tokenize b).2 = none) :
    ((Cursor.ofTokens path (tokenize b).1).lines true none).1 =
      (parse b path).behind (leadingGap path b) [] := by
  obtain ⟨us, stop, htokens, hstop, hus⟩ := endsInput_tokenize h
  have hlexemes : us.map Token.lexeme = b.lexemes := by
    have hall := (lexes_iff.mp (lexes_lexemes h)).2
    rw [htokens, List.map_append] at hall
    exact (List.append_inj' hall rfl).1
  have hholds : HoldsLine (tokenize b).1 ↔ ∃ l ∈ b.lexemes, l ≠ .newline := by
    rw [← hlexemes, htokens]
    constructor
    · rintro ⟨t, ht, hne⟩
      rcases List.mem_append.mp ht with ht | ht
      · exact ⟨t.lexeme, List.mem_map_of_mem ht, hne.1⟩
      · rw [List.mem_singleton.mp ht] at hne
        exact absurd hstop hne.2
    · rintro ⟨l, hl, hne⟩
      obtain ⟨t, ht, rfl⟩ := List.mem_map.mp hl
      exact ⟨t, List.mem_append_left _ ht, hne, hus t ht⟩
  have hsees : (Cursor.ofTokens path (tokenize b).1).sees .newline = true ↔
      b.lexemes.head? = some .newline := by
    rw [Cursor.sees_iff (l := .newline) rfl, ← hlexemes, htokens]
    cases us with
    | nil =>
        show stop.lexeme = .newline ↔ _
        rw [hstop]
        simp
    | cons u us =>
        show u.lexeme = .newline ↔ _
        simp
  have hhere : some (Cursor.ofTokens path (tokenize b).1).here =
      (tokenize b).1.head?.map (Token.span path) := by
    rw [htokens]
    cases us <;> rfl
  rw [Cursor.lines_started (endsInput_tokenize h), parse_of_tokens h, leadingGap, hhere]
  simp only [hsees, show HoldsLine (Cursor.ofTokens path (tokenize b).1).rest ↔ _ from hholds]

/-- The program of a source is that of its first line and, behind it, that of the rest, as long as
that line closes as many brackets as it opens. -/
theorem exists_parse_line {m b : Text} {ls : List Lexeme} (path : Option Path) (hls : Lexes m ls)
    (hb : (tokenize b).2 = none) (hnot : .newline ∉ ls)
    (hbrackets : Lexeme.balance ls ≤ 0) :
    ∃ items ds, parse (m ++ [CodePoint.ofChar '\n']) path = ⟨items, ds⟩ ∧
      parse (m ++ CodePoint.ofChar '\n' :: b) path =
        (((parse b path).behind (if ls = [] then [] else leadingGap path b) []).down 1).behind
          items ds := by
  have hlex := (lexes_iff.mp (hls.line (lexes_lexemes hb))).1
  have hone := (lexes_iff.mp (hls.line .done)).1
  have hempty : (tokenize []).1 = [⟨.endOfInput, ⟨1, 1⟩, ⟨1, 1⟩⟩] :=
    congrArg Prod.fst (Scanner.tokens_of_end (s := Scanner.ofText []) rfl)
  obtain ⟨ts, q, hm, hq, htokens⟩ := tokenize_line hls b
  obtain ⟨ts', q', hm', -, htokens'⟩ := tokenize_line hls []
  rw [hm] at hm'
  obtain ⟨rfl, hq'⟩ := List.append_inj' hm' rfl
  obtain rfl : q = q' := (Token.mk.inj (List.singleton_inj.mp hq')).2.1
  rw [List.count_eq_zero_of_not_mem hnot] at hq
  rw [hq] at htokens htokens'
  have hts : ts.map Token.lexeme = ls := by
    have hall := (lexes_iff.mp hls).2
    rw [hm, List.map_append] at hall
    exact (List.append_inj' hall rfl).1
  rw [parse_of_tokens hone, parse_of_tokens hlex, htokens, htokens', hempty]
  by_cases hblank : ls = []
  · -- Nothing was read before the line break, so the rest begins like a source.
    have hstart : ∀ {c : Cursor} {t : Token} {us : List Token}, c.rest = t :: us →
        t.lexeme = .newline → (c.lines false none).1 = (c.advance.lines false none).1 := by
      intro c t us hc ht
      have hl : c.current.lexeme = .newline := by rw [Cursor.current_of_rest hc, ht]
      rw [Cursor.lines_blank (Cursor.sees_eq hl _) (Cursor.sees_eq hl _)]
      rfl
    obtain rfl : ts = [] := List.map_eq_nil_iff.mp (hts.trans hblank)
    refine ⟨[], [], ?_, ?_⟩
    · rw [hstart rfl rfl, Cursor.lines_end rfl]
      rfl
    · rw [hstart rfl rfl, if_pos hblank, parse_of_tokens hb]
      exact @Cursor.lines_down 1 (.ofTokens path (tokenize b).1) _ false none rfl rfl rfl
        (endsInput_tokenize hb) rfl
  · have hline : ∀ t ∈ ts, t.lexeme ≠ .newline ∧ t.lexeme ≠ .endOfInput := by
      intro t ht
      have hmem : t.lexeme ∈ ls := by rw [← hts]; exact List.mem_map_of_mem ht
      refine ⟨fun hl => hnot (hl ▸ hmem), fun hl => ?_⟩
      have hvalid := hls.valid _ hmem
      rw [hl] at hvalid
      exact hvalid
    rw [← hts] at hbrackets
    obtain ⟨items, ds, d, hfirst, hboth, hd, hpath, hdepth⟩ := @Cursor.exists_lines_behind
      (.ofTokens path (ts ++ ⟨.newline, q, ⟨1, q.column + 1⟩⟩ ::
        (tokenize b).1.map (Token.down 1)))
      (.ofTokens path (ts ++ ⟨.newline, q, ⟨1, q.column + 1⟩⟩ ::
        [⟨.endOfInput, ⟨2, 1⟩, ⟨2, 1⟩⟩])) _ _ _ _
      (fun hnil => hblank (by rw [← hts, hnil]; rfl)) hline hbrackets rfl rfl rfl rfl rfl rfl rfl
    refine ⟨items, ds, hfirst, hboth.trans (congrArg (Program.behind items ds) ?_)⟩
    rw [if_neg hblank, ← lines_started_ofTokens hb]
    exact @Cursor.lines_down 1 (.ofTokens path (tokenize b).1) d true none hpath rfl hdepth
      (endsInput_tokenize hb) hd

/-- Behind a line that closes as many brackets as it opens, the rest of a source is read as if it
stood alone: what it reports and gives is what it reports and gives by itself, one line further
down. Between the items of both stands one for the blank lines at the front of the rest. -/
theorem parse_apart {m b : Text} (path : Option Path) (hline : ∀ c ∈ m, c.isLineBreak = false)
    (hbrackets : Lexeme.balance m.lexemes ≤ 0)
    (hlex : (tokenize (m ++ CodePoint.ofChar '\n' :: b)).2 = none) :
    (parse (m ++ CodePoint.ofChar '\n' :: b) path).diagnostics =
        (parse (m ++ [CodePoint.ofChar '\n']) path).diagnostics ++
          (parse b path).diagnostics.map (Diagnostic.down 1) ∧
      (parse (m ++ CodePoint.ofChar '\n' :: b) path).items =
        (parse (m ++ [CodePoint.ofChar '\n']) path).items ++
          ((if m.lexemes = [] then [] else leadingGap path b) ++
            (parse b path).items).map (Item.down 1) := by
  obtain ⟨ls, ms, hls, hms, -, hnot⟩ := (lexes_lexemes hlex).cut_line hline
  rw [hls.lexemes] at hbrackets ⊢
  obtain ⟨items, ds, hone, hboth⟩ :=
    exists_parse_line path hls (lexes_iff.mp hms).1 hnot hbrackets
  rw [hone, hboth]
  exact ⟨rfl, rfl⟩

/-- A line with brackets the wrong way round, in front of blank lines, a binding and one more line
that does not fit. -/
theorem parse_apart_stray :
    (∀ c ∈ ("2 ] [" : Text), c.isLineBreak = false) ∧
      Lexeme.balance (Text.lexemes "2 ] [") ≤ 0 ∧
      (tokenize (("2 ] [" : Text) ++ CodePoint.ofChar '\n' :: "\n\nx = 1\n)")).2 = none ∧
      (parse (("2 ] [" : Text) ++ CodePoint.ofChar '\n' :: "\n\nx = 1\n)") none).diagnostics =
        (parse (("2 ] [" : Text) ++ [CodePoint.ofChar '\n']) none).diagnostics ++
          (parse "\n\nx = 1\n)" none).diagnostics.map (Diagnostic.down 1) ∧
      (parse (("2 ] [" : Text) ++ CodePoint.ofChar '\n' :: "\n\nx = 1\n)") none).items =
        (parse (("2 ] [" : Text) ++ [CodePoint.ofChar '\n']) none).items ++
          ((if Text.lexemes "2 ] [" = [] then [] else leadingGap none "\n\nx = 1\n)") ++
            (parse "\n\nx = 1\n)" none).items).map (Item.down 1) := by
  have hline : ∀ c ∈ ("2 ] [" : Text), c.isLineBreak = false := by decide +kernel
  have hbrackets : Lexeme.balance (Text.lexemes "2 ] [") ≤ 0 := by decide +kernel
  have hlex :
      (tokenize (("2 ] [" : Text) ++ CodePoint.ofChar '\n' :: "\n\nx = 1\n)")).2 = none := by
    decide +kernel
  exact ⟨hline, hbrackets, hlex, parse_apart none hline hbrackets hlex⟩

end GlyphFormat
