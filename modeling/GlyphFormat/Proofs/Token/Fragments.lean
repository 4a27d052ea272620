import GlyphFormat.Proofs.Token.Coverage

/-!
# Fragments of a source

Tokens in a row mark a fragment of their source, from the start of the first to the stop of the
last. Taken out of the source, the fragment spells the same lexemes (`lexes_slice`). For a lexeme
ends in front of one code point, and that is the same one as before for all lexemes but the last,
behind which nothing is left.
-/

namespace GlyphFormat

open Scanner (isSpace)

namespace Cut

variable {p : Piece} {ps qs : List Piece} {s t rest : Text}

theorem append_inv (h : Cut (ps ++ qs) s rest) : ∃ t, Cut ps s t ∧ Cut qs t rest := by
  induction ps generalizing s with
  | nil => exact ⟨s, .nil s, h⟩
  | cons p ps ih =>
      cases h with
      | cons hgap hbody hapart hmore =>
          obtain ⟨t, hps, hqs⟩ := ih hmore
          exact ⟨t, .cons hgap hbody hapart hps, hqs⟩

/-- Without what follows them the pieces stay apart. -/
theorem alone (h : Cut ps s rest) : Cut ps (Piece.textOf ps) [] := by
  induction h with
  | nil => exact .nil []
  | @cons p ps s rest hgap hbody hapart hmore ih =>
      rw [Piece.textOf_cons]
      refine .cons hgap hbody ?_ ih
      have hpoint := (ih.lexes nofun).head_ne_point
      cases hs : Piece.textOf ps with
      | nil => exact Lexeme.apart_nil _ _
      | cons c u =>
          have heq := hmore.eq
          rw [hs] at heq hpoint
          refine Lexeme.stops_iff_apart.mp
            ((Lexeme.stops_iff_apart.mpr hapart).of_head hpoint (Or.inl ?_))
          rw [heq]
          rfl

/-- The first piece needs no blanks in front of it. -/
theorem dropGap (h : Cut (p :: ps) (p.gap ++ (p.body ++ t)) rest) :
    Cut ({ p with gap := [] } :: ps) (p.body ++ t) rest := by
  generalize hs : p.gap ++ (p.body ++ t) = s at h
  cases h with
  | cons _ hbody hapart hmore =>
      obtain rfl := List.append_cancel_left (List.append_cancel_left hs)
      exact .cons (p := { p with gap := [] }) nofun hbody hapart hmore

end Cut

namespace Piece

variable {a : Text} {ps qs : List Piece}

theorem tokens_append (a : Text) (ps qs : List Piece) :
    tokens a (ps ++ qs) = tokens a ps ++ tokens (a ++ textOf ps) qs := by
  induction ps generalizing a with
  | nil => rw [textOf, List.flatMap_nil, List.append_nil]; rfl
  | cons p ps ih =>
      rw [List.cons_append, tokens, tokens, ih, textOf_cons, List.append_assoc a,
        List.append_assoc a, List.append_assoc p.gap]
      rfl

theorem map_lexeme_tokens (a : Text) (ps : List Piece) :
    (tokens a ps).map Token.lexeme = ps.map lexeme := by
  induction ps generalizing a with
  | nil => rfl
  | cons p ps ih => exact congrArg (p.lexeme :: ·) (ih _)

theorem split_tokens {ts us : List Token} (h : tokens a ps = ts ++ us) :
    ∃ qs rs, ps = qs ++ rs ∧ tokens a qs = ts ∧ tokens (a ++ textOf qs) rs = us := by
  induction ts generalizing a ps with
  | nil => exact ⟨[], ps, rfl, rfl, by rwa [textOf, List.flatMap_nil, List.append_nil]⟩
  | cons t ts ih =>
      cases ps with
      | nil => cases h
      | cons p ps =>
          obtain ⟨ht, htail⟩ := List.cons.inj h
          obtain ⟨qs, rs, rfl, hqs, hrs⟩ := ih htail
          refine ⟨p :: qs, rs, rfl, by rw [tokens, hqs, ht], ?_⟩
          rwa [textOf_cons, ← List.append_assoc, ← List.append_assoc]

/-- The last token stops where the text of the pieces does, unless it is a line break. -/
theorem stop_last (hps : ∀ p ∈ ps, p.lexeme.Written p.body) {t : Token}
    (ht : (tokens a ps).getLast? = some t) (hnewline : t.lexeme ≠ .newline) :
    t.stop = (a ++ textOf ps).place := by
  rcases List.eq_nil_or_concat ps with rfl | ⟨qs, q, rfl⟩
  · cases ht
  rw [List.concat_eq_append] at hps ht ⊢
  rw [tokens_append, List.getLast?_append] at ht
  generalize hstart : (a ++ textOf qs ++ q.gap).place = start
  obtain rfl : (⟨q.lexeme, start, ⟨start.line, start.column + q.body.length⟩⟩ : Token) = t := by
    rw [← hstart]
    exact Option.some.inj ht
  have hscan := (hps q (by simp)).scan
  have hpast := Lexeme.past_of_scan hscan start
  rw [if_neg hnewline, List.take_length] at hpast
  have htext : a ++ textOf (qs ++ [q]) = a ++ textOf qs ++ q.gap ++ q.body := by
    rw [textOf_append, textOf_cons]
    simp [textOf]
  rw [htext, ← Position.past_start, Position.past_append, Position.past_start, hstart, hpast]

end Piece

/-- The part of a source from the first of some tokens in a row to the last spells their lexemes. -/
theorem lexes_slice {s : Text} {before ts after : List Token} {first last : Token}
    (hlex : (tokenize s).2 = none) (htokens : (tokenize s).1 = before ++ (ts ++ after))
    (hfirst : ts.head? = some first) (hlast : ts.getLast? = some last)
    (hend : last.lexeme ≠ .endOfInput) (hnewline : last.lexeme ≠ .newline) :
    Lexes (s.slice first.start last.stop) (ts.map Token.lexeme) := by
  obtain ⟨ps, w, r, hcut, -, ⟨-, -, hps⟩ | ⟨e, he, -⟩⟩ := tokenize_cut s
  swap
  · rw [he] at hlex
    cases hlex
  rw [hps] at htokens
  have hpieces : ∃ us, Piece.tokens [] ps = before ++ (ts ++ us) := by
    rcases List.eq_nil_or_concat after with rfl | ⟨us, u, rfl⟩
    · have hlasts := congrArg List.getLast? htokens
      rw [List.append_nil, List.getLast?_append, List.getLast?_append, hlast] at hlasts
      exact absurd (congrArg Token.lexeme (Option.some.inj hlasts)).symm hend
    · rw [List.concat_eq_append, ← List.append_assoc, ← List.append_assoc] at htokens
      exact ⟨us, by rw [(List.append_inj' htokens rfl).1, List.append_assoc]⟩
  obtain ⟨us, hus⟩ := hpieces
  obtain ⟨ps₁, more, rfl, -, hmore⟩ := Piece.split_tokens hus
  obtain ⟨ps₂, ps₃, rfl, rfl, -⟩ := Piece.split_tokens hmore
  rw [List.nil_append] at hfirst hlast ⊢
  obtain ⟨t, hcut₁, hcut₂⟩ := hcut.append_inv
  obtain ⟨v, hcut₂, -⟩ := hcut₂.append_inv
  have hstop := Piece.stop_last (fun p hp => (hcut₂.mem p hp).2) hlast hnewline
  cases ps₂ with
  | nil => cases hfirst
  | cons p ps =>
      obtain rfl := Option.some.inj hfirst
      have hcut := hcut₂.alone
      rw [Piece.textOf_cons] at hcut
      have hlexes := hcut.dropGap.lexes nofun
      have htext : s = (Piece.textOf ps₁ ++ p.gap) ++
          ((p.body ++ Piece.textOf ps) ++ v) := by
        rw [hcut₁.eq, hcut₂.eq, Piece.textOf_cons]
        simp only [List.append_assoc]
      rw [Piece.textOf_cons, ← List.append_assoc, ← Position.past_start, Position.past_append,
        Position.past_start] at hstop
      rw [Piece.map_lexeme_tokens]
      have hslice : s.slice (Piece.textOf ps₁ ++ p.gap).place last.stop =
          p.body ++ Piece.textOf ps := by
        rw [htext, hstop]
        exact Text.slice_eq (Position.past_start _).symm (fun d hd => (Text.placed_bounds hd).2)
          (le_refl _)
      exact hslice ▸ hlexes

end GlyphFormat
