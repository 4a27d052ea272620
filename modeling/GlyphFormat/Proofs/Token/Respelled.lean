import GlyphFormat.Proofs.Token.Breaks

/-!
# Glyphs and names

A primitive is written with its glyph or called by its name. `Respelled` says that a text is another
one in which at any places a name gave way to its glyph or a glyph to its name. A name that an
earlier line binds does not stand for its primitive any more, so such names neither come nor go, and
the name that a line binds stays as it is.

Both texts then spell the same lexemes, up to names for primitives (`Respelled.lexes`): a glyph
joins nothing beside it, and a name gets spaces around it.
-/

namespace GlyphFormat

open Scanner (isSpace)

/-- A binding of the name stands among the lexemes, and behind it a line break outside brackets. -/
def Lexeme.BoundIn (done : List Lexeme) (name : Text) : Prop :=
  ∃ ks ls ms, done = ks ++ .ident name :: .assign :: ls ++ .newline :: ms ∧
    balance (ks ++ .ident name :: .assign :: ls) ≤ 0

theorem Lexeme.BoundIn.append {done : List Lexeme} {name : Text} (h : BoundIn done name)
    (more : List Lexeme) : BoundIn (done ++ more) name := by
  obtain ⟨ks, ls, ms, rfl, hdepth⟩ := h
  exact ⟨ks, ls, ms ++ more, by simp, hdepth⟩

theorem Lexeme.BoundIn.mem {done : List Lexeme} {name : Text} (h : BoundIn done name) :
    .ident name ∈ done ∧ .newline ∈ done := by
  obtain ⟨ks, ls, ms, rfl, -⟩ := h
  exact ⟨by simp, by simp⟩

/-- The second text is the first one with some names of primitives replaced by their glyphs and some
glyphs by their names. The lexemes stand in front of both. -/
inductive Respelled : List Lexeme → Text → Text → Prop
  | ended {done : List Lexeme} : Respelled done [] []
  | space {done : List Lexeme} {c : CodePoint} {s t : Text} (hc : isSpace c = true)
      (h : Respelled done s t) : Respelled done (c :: s) (c :: t)
  | kept {done : List Lexeme} {s t : Text} {n : Nat} {l : Lexeme}
      (hscan : Lexeme.scan s = .found n l) (h : Respelled (done ++ [l]) (s.drop n) t) :
      Respelled done s (s.take n ++ t)
  /-- The name is not the one that its line binds. -/
  | glyph {done : List Lexeme} {s t : Text} {n : Nat} {name : Text} {p : Primitive} {g : CodePoint}
      (hscan : Lexeme.scan s = .found n (.ident name)) (hname : Primitive.ofName? name = some p)
      (hglyph : p.glyph? = some g) (hbound : ¬Lexeme.BoundIn done name)
      (hown : (Text.lexemes (s.drop n)).head? ≠ some .assign)
      (h : Respelled (done ++ [.ident name]) (s.drop n) t) : Respelled done s (g :: t)
  | name {done : List Lexeme} {s t : Text} {n : Nat} {p : Primitive}
      (hscan : Lexeme.scan s = .found n (.primitive p)) (hbound : ¬Lexeme.BoundIn done p.name)
      (h : Respelled (done ++ [.primitive p]) (s.drop n) t) :
      Respelled done s (CodePoint.ofChar ' ' :: (p.name ++ CodePoint.ofChar ' ' :: t))

/-- The second lexemes are the first ones with some names of primitives replaced by the primitives
and some primitives by their names. -/
inductive Lexeme.Respelled : List Lexeme → List Lexeme → List Lexeme → Prop
  | nil {done : List Lexeme} : Respelled done [] []
  | kept {done : List Lexeme} {l : Lexeme} {ls ms : List Lexeme}
      (h : Respelled (done ++ [l]) ls ms) : Respelled done (l :: ls) (l :: ms)
  | glyph {done : List Lexeme} {name : Text} {p : Primitive} {ls ms : List Lexeme}
      (hname : Primitive.ofName? name = some p) (hglyph : p.glyph?.isSome = true)
      (hbound : ¬BoundIn done name) (hown : ls.head? ≠ some .assign)
      (h : Respelled (done ++ [.ident name]) ls ms) :
      Respelled done (.ident name :: ls) (.primitive p :: ms)
  | name {done : List Lexeme} {p : Primitive} {ls ms : List Lexeme}
      (hglyph : p.glyph?.isSome = true) (hbound : ¬BoundIn done p.name)
      (h : Respelled (done ++ [.primitive p]) ls ms) :
      Respelled done (.primitive p :: ls) (.ident p.name :: ms)

namespace Lexeme

variable {s : Text} {n : Nat} {l : Lexeme} {c : CodePoint}

/-- A glyph continues comments only. -/
theorem absorbs_glyph {p : Primitive} {g : CodePoint} (hg : p.glyph? = some g)
    (hl : l.kind ≠ .comment) : l.absorbs g = false := by
  obtain ⟨hletter, halphanumeric, -⟩ := Primitive.glyph_classes hg
  cases l with
  | comment _ => exact absurd rfl hl
  | number _ =>
      refine Bool.or_eq_false_iff.mpr ⟨Bool.eq_false_iff.mpr fun hd => ?_, ?_⟩
      · rw [CodePoint.isAlphanumeric_of_isDigit hd] at halphanumeric
        cases halphanumeric
      · exact decide_eq_false (Primitive.glyph_ne_point hg)
  | ident _ => exact hletter
  | selector _ =>
      refine Bool.eq_false_iff.mpr fun hs => ?_
      rw [CodePoint.isLetter_of_isSmallLetter hs] at hletter
      cases hletter
  | _ => rfl

end Lexeme

namespace Respelled

variable {done ls : List Lexeme} {s t : Text}

/-- What a respelled text begins with is what it began with, or it is a glyph or a space in the
place of a lexeme on the line. -/
theorem head (h : Respelled done s t) : t.head? = s.head? ∨
    (Text.first s).isLineBreak = false ∧ s ≠ [] ∧
      ∀ l : Lexeme, l.kind ≠ .comment → ∀ c ∈ t.head?, l.absorbs c = false := by
  have hne : ∀ {s : Text} {n : Nat} {l : Lexeme}, Lexeme.scan s = .found n l → s ≠ [] := by
    rintro s n l hscan rfl
    cases hscan
  cases h with
  | ended | space _ _ => exact Or.inl rfl
  | @kept _ _ t n l hscan h =>
      obtain ⟨u, v, hs, rfl⟩ := Lexeme.exists_split hscan
      obtain ⟨c, u, rfl⟩ := List.exists_cons_of_ne_nil hs.nonempty
      rw [hs.eq, List.take_left]
      exact Or.inl rfl
  | glyph hscan _ hglyph _ _ _ =>
      refine Or.inr ⟨Lexeme.isLineBreak_first_of_scan hscan nofun, hne hscan, fun l hl c hc => ?_⟩
      obtain rfl := Option.some.inj hc
      exact Lexeme.absorbs_glyph hglyph hl
  | name hscan _ _ =>
      refine Or.inr ⟨Lexeme.isLineBreak_first_of_scan hscan nofun, hne hscan, fun l hl c hc => ?_⟩
      obtain rfl := Option.some.inj hc
      exact Lexeme.absorbs_space hl rfl

/-- In front of a respelled text the same lexeme is found. -/
theorem scan_kept {n : Nat} {l : Lexeme} {ms : List Lexeme} (hscan : Lexeme.scan s = .found n l)
    (h : Respelled done (s.drop n) t) (ht : Lexes t ms) :
    Lexeme.scan (s.take n ++ t) = .found n l ∧ (s.take n ++ t).drop n = t ∧
      Text.first (s.take n ++ t) = Text.first s := by
  obtain ⟨u, v, hs, rfl⟩ := Lexeme.exists_split hscan
  rw [hs.eq, List.drop_left] at h
  have hstops : l.Stops u t := by
    refine hs.stops.of_head ht.head_ne_point (h.head.imp_right fun ⟨hbreak, hne, hjoin⟩ => ?_)
    -- A comment stops at line breaks only, and there no primitive stands.
    refine hjoin l fun hl => ?_
    obtain ⟨c, v, rfl⟩ := List.exists_cons_of_ne_nil hne
    cases l with
    | comment a =>
        have hc : (!c.isLineBreak) = false := hs.stops c rfl
        rw [show c.isLineBreak = false from hbreak] at hc
        cases hc
    | _ => cases hl
  rw [hs.eq, List.take_left, List.drop_left]
  refine ⟨hs.scanned t hstops, rfl, ?_⟩
  obtain ⟨c, u, rfl⟩ := List.exists_cons_of_ne_nil hs.nonempty
  rfl

/-- A respelled text spells the lexemes with primitives for names and names for primitives. -/
theorem lexes (h : Respelled done s t) (hs : Lexes s ls) :
    ∃ ms, Lexes t ms ∧ Lexeme.Respelled done ls ms := by
  have hinv : ∀ {s : Text} {n : Nat} {l : Lexeme} {ls : List Lexeme}, Lexes s ls →
      Lexeme.scan s = .found n l → isSpace (Text.first s) = false ∧
        ∃ ks, ls = l :: ks ∧ Lexes (s.drop n) ks := by
    intro s n l ls hs hscan
    have hfirst := Lexeme.isSpace_first_of_scan hscan
    obtain ⟨n', l', ks, hscan', rfl, hks⟩ := hs.inv (by rintro rfl; cases hscan) hfirst
    cases hscan.symm.trans hscan'
    exact ⟨hfirst, ks, rfl, hks⟩
  induction h generalizing ls with
  | ended =>
      obtain rfl := hs.eq_nil
      exact ⟨[], .done, .nil⟩
  | space hc h ih =>
      cases hs with
      | space _ hs =>
          obtain ⟨ms, hms, hre⟩ := ih hs
          exact ⟨ms, .space hc hms, hre⟩
      | lexeme hfirst _ _ => exact absurd (hfirst.symm.trans hc) (by decide)
  | kept hscan h ih =>
      obtain ⟨hfirst, ks, rfl, hks⟩ := hinv hs hscan
      obtain ⟨ms, hms, hre⟩ := ih hks
      obtain ⟨hscan', hdrop, hfirst'⟩ := scan_kept hscan h hms
      exact ⟨_, .lexeme (hfirst' ▸ hfirst) hscan' (hdrop.symm ▸ hms), .kept hre⟩
  | @glyph _ _ t _ _ p g hscan hname hglyph hbound hown _ ih =>
      obtain ⟨-, ks, rfl, hks⟩ := hinv hs hscan
      obtain ⟨ms, hms, hre⟩ := ih hks
      rw [hks.lexemes] at hown
      have hscan' : Lexeme.scan (g :: t) = .found 1 (.primitive p) := by
        rw [Lexeme.scan, Lexeme.first_cons, Lexeme.Opening.of_glyph hglyph]
      refine ⟨_, .lexeme (Lexeme.isSpace_first_of_scan hscan') hscan' hms, ?_⟩
      exact .glyph hname (by rw [hglyph]; rfl) hbound hown hre
  | @name _ _ t _ p hscan hbound _ ih =>
      obtain ⟨-, ks, rfl, hks⟩ := hinv hs hscan
      obtain ⟨ms, hms, hre⟩ := ih hks
      have hends : (Lexeme.ident p.name).Ends (CodePoint.ofChar ' ' :: t) := fun c hc => by
        obtain rfl := Option.some.inj hc
        exact Lexeme.absorbs_space (fun h => by cases h) rfl
      have hscan' := Lexeme.scan_ident p.name_isLetter hends
      have hlexes : Lexes (p.name ++ CodePoint.ofChar ' ' :: t) (.ident p.name :: ms) := by
        refine .lexeme (Lexeme.isSpace_first_of_scan hscan') hscan' ?_
        rw [List.drop_left]
        exact .space rfl hms
      exact ⟨_, .space rfl hlexes, .name (hs.valid _ List.mem_cons_self) hbound hre⟩

end Respelled

end GlyphFormat
