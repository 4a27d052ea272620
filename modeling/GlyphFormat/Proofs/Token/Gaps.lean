import GlyphFormat.Proofs.Token.Coverage
import GlyphFormat.Proofs.Token.Joining
import Mathlib.Data.List.Basic

/-!
# Gaps between tokens

A text is tight if no lexeme of it stands behind more than one space, and no space is left at its
end. Between adjacent tokens of a tight text there is nothing or one space (`Text.Tight.between`).
Tight texts are put together like texts that are gone on with: what comes next may be anything that
the last character does not join (`TightBefore`).
-/

namespace GlyphFormat

/-! ## Tight texts -/

/-- The text is cut to its end into pieces that stand behind one space at most. -/
def Text.Tight (t : Text) : Prop :=
  ∃ ps, Cut ps t [] ∧ ∀ p ∈ ps, p.gap = [] ∨ p.gap = " "

theorem Lexeme.written_of_scan {u rest : Text} {l : Lexeme}
    (h : Lexeme.scan (u ++ rest) = .found u.length l) :
    Lexeme.Written u l ∧ l.Apart u rest := by
  obtain ⟨u', rest', heq, hlength, hwritten, hapart⟩ := Lexeme.exists_written h
  obtain ⟨rfl, rfl⟩ := List.append_inj heq hlength
  exact ⟨hwritten, hapart⟩

theorem Text.Tight.lexeme {g u rest : Text} {l : Lexeme} (hgap : g = [] ∨ g = " ")
    (hscan : Lexeme.scan (u ++ rest) = .found u.length l) (h : rest.Tight) :
    Tight (g ++ (u ++ rest)) := by
  obtain ⟨ps, hcut, hgaps⟩ := h
  obtain ⟨hwritten, hapart⟩ := Lexeme.written_of_scan hscan
  have hspace : ∀ c ∈ g, Scanner.isSpace c = true := by
    rcases hgap with rfl | rfl
    · exact nofun
    · exact List.forall_mem_singleton.mpr rfl
  exact ⟨⟨g, u, l⟩ :: ps, .cons (p := ⟨g, u, l⟩) hspace hwritten hapart hcut,
    List.forall_mem_cons.mpr ⟨hgap, hgaps⟩⟩

/-- The text is tight as far as it goes: so it is in front of every tight text that its last
character does not join. -/
def TightBefore (t : Text) : Prop :=
  ∀ rest, (∀ c ∈ t.getLast?, ∀ d ∈ rest.head?, c.joins d = false) → rest.Tight → (t ++ rest).Tight

namespace TightBefore

variable {t : Text}

theorem nil : TightBefore [] := fun _ _ h => h

theorem tight (h : TightBefore t) : t.Tight := by
  have htight := h [] (fun _ _ _ hd => absurd hd (by simp)) ⟨[], .nil [], nofun⟩
  rwa [List.append_nil] at htight

/-- Room and a lexeme behind it. -/
theorem lexeme {g : Text} {l : Lexeme} (h : TightBefore t) (hgap : g = [] ∨ g = " ")
    (hl : l.Valid) (hinline : l.IsInline)
    (hjoin : ∀ c ∈ (t ++ g).getLast?, ∀ d ∈ l.text.head?, c.joins d = false) :
    TightBefore (t ++ g ++ l.text) := by
  intro rest hrest htight
  have hne := Lexeme.text_ne_nil hl hinline
  rw [List.getLast?_append_of_ne_nil _ hne] at hrest
  rw [List.append_assoc, List.append_assoc]
  refine h _ ?_ (.lexeme hgap (Lexeme.scan_inline hl hinline hrest) htight)
  rcases hgap with rfl | rfl
  · rw [List.append_nil] at hjoin
    rw [List.nil_append, List.head?_append_of_ne_nil _ hne]
    exact hjoin
  · exact Text.apart_of_separator rfl (by decide)

/-- A lexeme that takes the rest of its line, and the end of the line. -/
theorem restOfLine {u : Text} {l : Lexeme} (h : TightBefore t)
    (hscan : ∀ rest, Lexeme.scan (u ++ CodePoint.ofChar '\n' :: rest) = .found u.length l)
    (hjoin : ∀ c ∈ t.getLast?, ∀ d ∈ u.head?, c.joins d = false) (hne : u ≠ []) :
    TightBefore (t ++ u ++ [CodePoint.ofChar '\n']) := by
  intro rest _ htight
  have hline : Text.Tight (CodePoint.ofChar '\n' :: rest) :=
    .lexeme (g := []) (u := [CodePoint.ofChar '\n']) (.inl rfl) rfl htight
  rw [List.append_assoc, List.append_assoc]
  refine h _ ?_ (.lexeme (g := []) (.inl rfl) (hscan rest) hline)
  rw [List.head?_append_of_ne_nil _ hne]
  exact hjoin

theorem newline (h : TightBefore t) : TightBefore (t ++ [CodePoint.ofChar '\n']) := by
  have hline := h.lexeme (g := []) (l := .newline) (.inl rfl) trivial nofun
    (Text.apart_of_separator rfl (by decide))
  rwa [List.append_nil] at hline

/-- Lines may be followed by any line. -/
theorem append {u : Text} (h : TightBefore t) (ht : ∀ c ∈ t.getLast?, c = '\n')
    (hu : TightBefore u) : TightBefore (t ++ u) := by
  intro rest hrest htight
  rw [List.append_assoc]
  refine h _ (fun c hc d _ => ?_) (hu rest (fun c hc => hrest c ?_) htight)
  · rw [ht c hc]
    exact CodePoint.joins_eq_false (by decide +kernel) (by decide)
  · rw [List.getLast?_append, hc]
    rfl

end TightBefore

/-! ## Between two tokens -/

/-- A part of a text is found between a place that all in front of the part lies before, and the
place behind the part. -/
theorem Text.slice_eq_between {a u b : Text} {start stop : Position}
    (hbefore : ∀ d ∈ a.placed ⟨1, 1⟩, d.1 < start) (hstart : start ≤ a.place)
    (hstop : stop = (a ++ u).place) : (a ++ (u ++ b)).slice start stop = u := by
  have hplace : stop = Position.past a.place u := by
    rw [hstop, ← Position.past_start, Position.past_append, Position.past_start]
  have hfront : (a.placed ⟨1, 1⟩).filter (fun d => start ≤ d.1 ∧ d.1 < stop) = [] := by
    refine List.filter_eq_nil_iff.mpr fun d hd hin => ?_
    exact absurd ((of_decide_eq_true hin).1.trans_lt (hbefore d hd)) (lt_irrefl _)
  have hrest : (b.placed stop).filter (fun d => start ≤ d.1 ∧ d.1 < stop) = [] := by
    refine List.filter_eq_nil_iff.mpr fun d hd hin => ?_
    exact absurd ((of_decide_eq_true hin).2.trans_le (placed_bounds hd).1) (lt_irrefl _)
  have hinside : (u.placed a.place).filter (fun d => start ≤ d.1 ∧ d.1 < stop) =
      u.placed a.place := by
    refine List.filter_eq_self.mpr fun d hd => decide_eq_true ?_
    obtain ⟨hlo, hhi⟩ := placed_bounds hd
    exact ⟨hstart.trans hlo, hplace ▸ hhi⟩
  rw [slice, placed_append, placed_append, Position.past_start, ← hplace, List.filter_append,
    List.filter_append, hfront, hinside, hrest, List.nil_append, List.append_nil, map_placed]

/-- Behind a piece: its token stops no later than the text of the piece, and behind all of it. -/
theorem Piece.stop_bounds {a : Text} {p : Piece} (hbody : p.lexeme.Written p.body) {stop : Position}
    (hstop : stop = ⟨(a ++ p.gap).place.line, (a ++ p.gap).place.column + p.body.length⟩) :
    (∀ d ∈ (a ++ p.gap ++ p.body).placed ⟨1, 1⟩, d.1 < stop) ∧
      stop ≤ (a ++ p.gap ++ p.body).place := by
  have hpast := Lexeme.past_of_scan hbody.scan (a ++ p.gap).place
  have hplaced := Lexeme.placed_of_scan hbody.scan (a ++ p.gap).place
  rw [List.take_length, ← hstop] at hplaced
  rw [List.take_length] at hpast
  constructor
  · intro d hd
    rw [Text.placed_append, Position.past_start] at hd
    rcases List.mem_append.mp hd with hd | hd
    · have hlt := (Text.placed_bounds hd).2
      rw [Position.past_start] at hlt
      refine hlt.trans_le ?_
      rw [hstop]
      exact .inr ⟨rfl, Nat.le_add_right _ _⟩
    · exact hplaced d hd
  · rw [← Position.past_start (a ++ p.gap ++ p.body), Position.past_append, Position.past_start,
      hpast, hstop]
    split
    · exact .inl (Nat.lt_succ_self _)
    · exact le_refl _

/-- Between the tokens of two adjacent pieces stands the gap of the second one. By induction on the
row of pieces, behind the text of those before. -/
theorem Cut.between {ps : List Piece} {r : Text} (h : Cut ps r []) (a : Text) {eof : Token}
    (heof : eof.start = (a ++ r).place) {before after : List Token} {x y : Token}
    (hts : Piece.tokens a ps ++ [eof] = before ++ x :: y :: after) :
    (a ++ r).slice x.stop y.start = [] ∨
      ∃ p ∈ ps, (a ++ r).slice x.stop y.start = p.gap := by
  induction ps generalizing a r before with
  | nil =>
      have hlen := congrArg List.length hts
      simp [Piece.tokens] at hlen
      omega
  | cons p ps ih =>
      cases h with
      | @cons _ _ s _ _ hbody _ h =>
          cases before with
          | cons x' before =>
              obtain ⟨-, htail⟩ := List.cons.inj hts
              have hassoc : a ++ (p.gap ++ (p.body ++ s)) = a ++ p.gap ++ p.body ++ s := by
                simp only [List.append_assoc]
              rw [hassoc] at heof ⊢
              refine (ih h _ heof htail).imp_right ?_
              rintro ⟨q, hq, hslice⟩
              exact ⟨q, List.mem_cons_of_mem _ hq, hslice⟩
          | nil =>
              obtain ⟨rfl, htail⟩ := List.cons.inj hts
              obtain ⟨hfront, hstop⟩ := Piece.stop_bounds hbody rfl
              cases ps with
              | nil =>
                  obtain ⟨rfl, -⟩ := List.cons.inj htail
                  cases h
                  have hslice := Text.slice_eq_between (u := []) (b := []) hfront hstop rfl
                  left
                  rw [heof]
                  simpa only [List.append_assoc, List.append_nil] using hslice
              | cons q ps =>
                  obtain ⟨rfl, -⟩ := List.cons.inj htail
                  cases h with
                  | @cons _ _ s _ _ _ _ h =>
                      have hslice := Text.slice_eq_between (u := q.gap) (b := q.body ++ s) hfront
                        hstop rfl
                      refine .inr ⟨q, by simp, ?_⟩
                      simpa only [List.append_assoc] using hslice

/-- A tight text is scanned without a fault, and between two adjacent tokens of it, the end of input
among them, there is nothing or one space. -/
theorem Text.Tight.between {t : Text} (h : t.Tight) : (tokenize t).2 = none ∧
    ∀ before x y after, (tokenize t).1 = before ++ x :: y :: after →
      t.slice x.stop y.start = [] ∨ t.slice x.stop y.start = " " := by
  obtain ⟨ps, hcut, hgaps⟩ := h
  have hlexes := hcut.lexes nofun
  obtain ⟨hlex, -⟩ := lexes_iff.mp hlexes
  refine ⟨hlex, fun before x y after hts => ?_⟩
  obtain ⟨qs, w, r, hqs, hw, ⟨-, rfl, htokens⟩ | ⟨e, he, -⟩⟩ := tokenize_cut t
  · rw [List.append_nil] at hqs
    obtain rfl := hcut.unique hqs nofun hw
    rw [htokens] at hts
    rcases hcut.between [] rfl hts with hslice | ⟨p, hp, hslice⟩
    · exact .inl hslice
    · rw [List.nil_append] at hslice
      rw [hslice]
      exact hgaps p hp
  · rw [hlex] at he
    cases he

end GlyphFormat
