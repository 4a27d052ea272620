import GlyphFormat.Proofs.Formatter.Resolution
import GlyphFormat.Proofs.Grammar.Isolation
import GlyphFormat.Proofs.Token.Coverage

/-!
# One phase at a time

Formatting a source gives its canonical text or else a list of diagnostics, all of one phase: the
fault that stopped the scan, or one diagnostic for each line that does not fit the grammar, or what
is wrong with the names. There is no third way. A program that was read without a report can be
written, since its items are well formed, and no scan looks for a number where no digit stands.

Every diagnostic starts at a place of the source (`HasPlace`), be it the end of its last line:
faults and tokens stand behind some front part of the source, and the place behind such a part is
one.
-/

namespace GlyphFormat

open Cursor (depthAfter)

/-! ## Places of a source -/

/-- The place is one of the text: it is on one of its lines, at a code point or at the end. Line
feeds divide a text into lines. -/
def Text.HasPlace (s : Text) (p : Position) : Prop :=
  1 ≤ p.line ∧ ∃ line, (s.splitOn '\n')[p.line - 1]? = some line ∧
    1 ≤ p.column ∧ p.column ≤ line.length + 1

/-- Behind a front part of a text, `k` lines further down. On the first line the columns go on from
the start. -/
theorem Text.line_past (a b : Text) (p : Position) :
    ∃ k line, (splitOn '\n' (a ++ b))[k]? = some line ∧ (p.past a).line = p.line + k ∧
      (k = 0 ∧ (p.past a).column = p.column + a.length ∧ a.length ≤ line.length ∨
        0 < k ∧ 1 ≤ (p.past a).column ∧ (p.past a).column ≤ line.length + 1) := by
  induction a generalizing p with
  | nil =>
      obtain ⟨line, lines, hlines⟩ := List.exists_cons_of_ne_nil (splitOn_ne_nil '\n' b)
      exact ⟨0, line, by rw [List.nil_append, hlines]; rfl, rfl,
        .inl ⟨rfl, rfl, Nat.zero_le _⟩⟩
  | cons c a ih =>
      obtain ⟨k, line, hline, hplace, hcolumn⟩ := ih (p.next c)
      have hpast : p.past (c :: a) = (p.next c).past a := rfl
      rw [hpast]
      by_cases hc : c = '\n'
      · have hnext : p.next c = ⟨p.line + 1, 1⟩ := if_pos hc
        have hlines : splitOn '\n' (c :: a ++ b) = [] :: splitOn '\n' (a ++ b) := by
          rw [List.cons_append, splitOn, if_pos hc]
        rw [hnext] at hplace hcolumn ⊢
        refine ⟨k + 1, line, by rw [hlines]; exact hline, by rw [hplace]; simp only; omega,
          .inr ⟨Nat.succ_pos k, ?_⟩⟩
        simp only at hcolumn
        omega
      · have hnext : p.next c = ⟨p.line, p.column + 1⟩ := if_neg hc
        obtain ⟨piece, pieces, hpieces⟩ :=
          List.exists_cons_of_ne_nil (splitOn_ne_nil '\n' (a ++ b))
        have hlines : splitOn '\n' (c :: a ++ b) = (c :: piece) :: pieces := by
          rw [List.cons_append, splitOn, if_neg hc, hpieces]
        rw [hnext] at hplace hcolumn ⊢
        rw [hpieces] at hline
        simp only at hcolumn hplace
        rcases hcolumn with ⟨rfl, hcolumn, hlength⟩ | ⟨hk, hcolumn⟩
        · obtain rfl : piece = line := Option.some.inj hline
          refine ⟨0, c :: piece, by rw [hlines]; rfl, hplace, .inl ⟨rfl, ?_⟩⟩
          simp only [List.length_cons]
          omega
        · obtain ⟨j, rfl⟩ : ∃ j, k = j + 1 := ⟨k - 1, by omega⟩
          exact ⟨j + 1, line, by rw [hlines]; exact hline, hplace, .inr ⟨hk, hcolumn⟩⟩

/-- Every front part of a text ends at a place of it. -/
theorem Text.hasPlace_place (a b : Text) : (a ++ b).HasPlace a.place := by
  obtain ⟨k, line, hline, hplace, hcolumn⟩ := line_past a b ⟨1, 1⟩
  rw [Position.past_start] at hplace hcolumn
  simp only at hplace hcolumn
  refine ⟨by omega, line, ?_, by omega, by omega⟩
  rw [hplace, Nat.add_sub_cancel_left]
  exact hline

/-! ## Malformed lines -/

/-- Some line of the source is neither blank nor fits the grammar. -/
def Text.Malformed (s : Text) (path : Option Path) : Prop :=
  ∃ ts stop, ts ++ [stop] ∈ s.logicalLines ∧ ts ≠ [] ∧ ∀ items, ¬DerivesLine path items ts

/-- A diagnostic of the grammar stands at a token of a line. -/
theorem Judged.of_mem {path : Option Path} {ls : List (List Token)} {ds : List Diagnostic}
    {is : List Item} (h : Judged path ls ds is) :
    ∀ d ∈ ds, d.phase = .parse ∧ ∃ l ∈ ls, ∃ t ∈ l, d.span = t.span path := by
  induction h with
  | done => exact nofun
  | blank _ ih | fits _ _ ih =>
      intro d hd
      obtain ⟨hphase, l, hl, ht⟩ := ih d hd
      exact ⟨hphase, l, List.mem_cons_of_mem _ hl, ht⟩
  | malformed _ _ hphase ht hspan _ ih =>
      intro d hd
      rcases List.mem_cons.mp hd with rfl | hd
      · exact ⟨hphase, _, List.mem_cons_self, _, ht, hspan⟩
      · obtain ⟨hphase, l, hl, ht⟩ := ih d hd
        exact ⟨hphase, l, List.mem_cons_of_mem _ hl, ht⟩

/-- The grammar reports something just when a line is malformed. -/
theorem Judged.ne_nil_iff {path : Option Path} {ls : List (List Token)} {ds : List Diagnostic}
    {is : List Item} (h : Judged path ls ds is) : ds ≠ [] ↔
      ∃ ts stop, ts ++ [stop] ∈ ls ∧ ts ≠ [] ∧ ∀ items, ¬DerivesLine path items ts := by
  induction h with
  | done => exact ⟨fun h => absurd rfl h, fun ⟨_, _, hl, _⟩ => nomatch hl⟩
  | blank _ ih =>
      refine ih.trans ⟨fun ⟨ts, stop, hl, h⟩ => ⟨ts, stop, List.mem_cons_of_mem _ hl, h⟩, ?_⟩
      rintro ⟨ts, stop, hl, hne, h⟩
      rcases List.mem_cons.mp hl with hl | hl
      · exact absurd (List.append_inj_left' (hl.trans (List.nil_append _).symm) rfl) hne
      · exact ⟨ts, stop, hl, hne, h⟩
  | fits hline _ ih =>
      refine ih.trans ⟨fun ⟨ts, stop, hl, h⟩ => ⟨ts, stop, List.mem_cons_of_mem _ hl, h⟩, ?_⟩
      rintro ⟨ts, stop, hl, hne, h⟩
      rcases List.mem_cons.mp hl with hl | hl
      · exact absurd hline (List.append_inj_left' hl rfl ▸ h _)
      · exact ⟨ts, stop, hl, hne, h⟩
  | malformed hne hline _ _ _ _ _ =>
      exact iff_of_true nofun ⟨_, _, List.mem_cons_self, hne, hline⟩

variable {s : Text} {path : Option Path}

/-- What reading a source reports. -/
theorem parse_reports (path : Option Path) (hlex : (tokenize s).2 = none) :
    ((parse s path).diagnostics ≠ [] ↔ s.Malformed path) ∧
      ∀ d ∈ (parse s path).diagnostics, d.phase = .parse ∧ d.span.path = path ∧
        s.HasPlace d.span.start := by
  have hjudged : Judged path s.logicalLines (parse s path).diagnostics
      ((parse s path).items.filter (!·.isNewlines)) := by
    rw [parse_of_tokens hlex]
    exact Cursor.judged_lines (c := .ofTokens path (tokenize s).1) rfl (endsInput_tokenize hlex)
  refine ⟨hjudged.ne_nil_iff, fun d hd => ?_⟩
  obtain ⟨hphase, l, hl, t, ht, hspan⟩ := hjudged.of_mem d hd
  obtain ⟨a, b, rfl, hstart⟩ := start_placed (mem_of_mem_logicalLines hl t ht)
  rw [hspan]
  refine ⟨hphase, rfl, ?_⟩
  rw [Token.span, hstart]
  exact Text.hasPlace_place a b

/-- What name resolution reports stands at a token too. -/
theorem Text.NameFault.reports {t : Token} {d : Diagnostic} (h : s.NameFault path t d) :
    d.phase = .resolve ∧ d.span.path = path ∧ s.HasPlace d.span.start := by
  obtain ⟨before, line, after, hlines, hfault⟩ := h
  have hmem : ∀ u ∈ line, u ∈ (tokenize s).1 :=
    mem_of_mem_logicalLines (hlines ▸ List.mem_append_right _ List.mem_cons_self)
  have hplace : ∀ u ∈ line, s.HasPlace u.start := fun u hu => by
    obtain ⟨a, b, rfl, hstart⟩ := start_placed (hmem u hu)
    rw [hstart]
    exact hasPlace_place a b
  cases hfault with
  | unknown hline _ _ _ _ => exact ⟨rfl, rfl, hplace t (by rw [hline]; simp)⟩
  | noValue hline _ _ _ => exact ⟨rfl, rfl, hplace t (by rw [hline]; simp)⟩

/-- What reading a source reports is all that is reported about it. -/
theorem formatSource_of_reported (h : (parse s path).diagnostics ≠ []) :
    formatSource s path = .error (.reported (parse s path).diagnostics) := by
  rw [formatSource, format]
  cases hds : (parse s path).diagnostics with
  | nil => exact absurd hds h
  | cons d ds => rfl

/-- Formatting a source is all or nothing. Either no phase has anything to report and there is a
canonical text, or the first phase that has something reports it alone: each of its diagnostics
carries the path and starts at a place of the source. -/
theorem formatSource_phases (s : Text) (path : Option Path) :
    (∃ t, formatSource s path = .ok t ∧ (tokenize s).2 = none ∧ ¬s.Malformed path ∧
      ∀ t d, ¬s.NameFault path t d) ∨
    ∃ ds, formatSource s path = .error (.reported ds) ∧ ds ≠ [] ∧
      (∀ d ∈ ds, d.span.path = path ∧ s.HasPlace d.span.start) ∧
      ((∃ e d, (tokenize s).2 = some e ∧ e.fault ≠ .noDigits ∧ ds = [d] ∧ d.phase = .lex) ∨
        ((tokenize s).2 = none ∧ s.Malformed path ∧ ds = (parse s path).diagnostics ∧
          ∀ d ∈ ds, d.phase = .parse) ∨
        ((tokenize s).2 = none ∧ ¬s.Malformed path ∧ (∀ d ∈ ds, d.phase = .resolve) ∧
          ∀ d, d ∈ ds ↔ ∃ t, s.NameFault path t d)) := by
  cases hlex : (tokenize s).2 with
  | some e =>
      obtain ⟨⟨a, b, hs, hplace⟩, hdigits⟩ := fault_placed hlex
      have hparse : (parse s path).diagnostics = [e.diagnostic path] := by rw [parse_of_fault hlex]
      have hformat := formatSource_of_reported (hparse ▸ List.cons_ne_nil _ _)
      rw [hparse] at hformat
      refine .inr ⟨_, hformat, nofun, List.forall_mem_singleton.mpr ⟨rfl, ?_⟩,
        .inl ⟨e, _, rfl, hdigits, rfl, rfl⟩⟩
      show s.HasPlace e.position
      rw [hplace, hs]
      exact Text.hasPlace_place a b
  | none =>
      obtain ⟨hmalformed, hreports⟩ := parse_reports path hlex
      by_cases hdiag : (parse s path).diagnostics = []
      · have hfits : ¬s.Malformed path := fun h => hmalformed.mpr h hdiag
        obtain ⟨hmem, -⟩ := nameFaults_items hdiag
        have hformat := formatSource_eq hdiag
        by_cases hfaults : faultsBehind [] (parse s path).items = []
        · rw [if_pos hfaults] at hformat
          refine .inl ⟨_, hformat, rfl, hfits, fun t d h => ?_⟩
          exact absurd ((hmem d).mpr ⟨t, h⟩) (hfaults ▸ List.not_mem_nil)
        · rw [if_neg hfaults] at hformat
          have hresolve : ∀ d ∈ faultsBehind [] (parse s path).items,
              d.phase = .resolve ∧ d.span.path = path ∧ s.HasPlace d.span.start := fun d hd => by
            obtain ⟨t, ht⟩ := (hmem d).mp hd
            exact ht.reports
          exact .inr ⟨_, hformat, hfaults, fun d hd => (hresolve d hd).2,
            .inr (.inr ⟨rfl, hfits, fun d hd => (hresolve d hd).1, hmem⟩)⟩
      · exact .inr ⟨_, formatSource_of_reported hdiag, hdiag, fun d hd => (hreports d hd).2,
          .inr (.inl ⟨rfl, hmalformed.mp hdiag, rfl, fun d hd => (hreports d hd).1⟩)⟩

end GlyphFormat
