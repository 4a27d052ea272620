import GlyphFormat.Proofs.Formatter.Idempotence
import GlyphFormat.Proofs.Grammar.Relaid

/-!
# Layout and canonical texts

The canonical text of a source does not depend on its layout (`formatSource_relaid`): neither where
blanks stand between tokens, nor how long a run of blank lines is, nor what blank lines there are at
its ends, nor whether carriage returns stand in front of the line feeds. A source that has no
canonical text has none in another layout either.

An edit of the layout leaves the items of a program as they are, up to spans and the blanks of a
last comment, and a canonical text shows neither.
-/

namespace GlyphFormat

theorem SameItems.sound {is js : List Item} (h : SameItems is js) (his : SoundItems [] is) :
    SoundItems [] js := by
  have hlike := AllLike.of_strip h []
  exact soundItems_trimLast.mp (hlike.sound rfl (soundItems_trimLast.mpr his))

theorem SameItems.canonicalText {is js : List Item} (h : SameItems is js) :
    canonicalText boundBefore js = canonicalText boundBefore is := by
  rw [← canonicalText_trimLast, (AllLike.of_strip h []).canonicalText, canonicalText_trimLast]

/-- A source whose lexemes retell those of another has its canonical text. -/
theorem formatSource_of_retells {s s' t : Text} {path : Option Path} {ls ms : List Lexeme}
    (hs : Lexes s ls) (hs' : Lexes s' ms) (h : Retells path ls ms)
    (hformat : formatSource s path = .ok t) : formatSource s' path = .ok t := by
  obtain ⟨hdiag, hsound, rfl⟩ := formatSource_eq_ok_iff.mp hformat
  obtain ⟨hlex, p, hp⟩ := exists_tree hdiag
  obtain ⟨hlex', hms⟩ := lexes_iff.mp hs'
  rw [p.parse_eq hlex hp] at hsound ⊢
  obtain ⟨q, hq, hsame⟩ := h p (by rw [ProgramTree.lexemes, hp, (lexes_iff.mp hs).2])
  obtain ⟨r, hr, hstrip⟩ := q.replace path (hms.trans hq.symm)
  have hitems : SameItems (q.items path) (r.items path) := .of_strip hstrip
  rw [formatSource_eq_ok_iff, r.parse_eq hlex' hr]
  exact ⟨rfl, hitems.sound (hsame.sound hsound),
    (hitems.canonicalText.trans hsame.canonicalText).symm⟩

/-- The layout of a source decides neither whether it has a canonical text nor which. -/
theorem formatSource_relaid {s s' : Text} (h : Relaid s s') (path : Option Path) (t : Text) :
    formatSource s' path = .ok t ↔ formatSource s path = .ok t := by
  induction h with
  | refl => rfl
  | tail _ hedit ih =>
      obtain ⟨ls, ms, hls, hms, hlexemes⟩ := hedit.lexes
      obtain ⟨hto, hfrom⟩ := retells_of_layoutEdit path hlexemes
      rw [← ih]
      exact ⟨formatSource_of_retells hms hls hfrom, formatSource_of_retells hls hms hto⟩

/-- A blank, a carriage return, a line break at either end and one more of a run. -/
theorem formatSource_relaid_shadowing :
    Relaid "add=add\nadd(dup|pop)\n# a \n" "\nadd =add\r\nadd(dup|pop)\n# a \n\n\r\n" ∧
      formatSource "\nadd =add\r\nadd(dup|pop)\n# a \n\n\r\n" none =
        .ok "add = +\nadd(⋅|;)\n# a\n" := by
  have htail : Lexes "add(dup|pop)\n# a \n"
      ([.ident "add", .openRound, .ident "dup", .pipe, .ident "pop", .closeRound, .newline,
        .comment "a "] ++ [.newline]) :=
    .lexeme (n := 3) rfl rfl <| .lexeme (n := 1) rfl rfl <| .lexeme (n := 3) rfl rfl <|
    .lexeme (n := 1) rfl rfl <| .lexeme (n := 3) rfl rfl <| .lexeme (n := 1) rfl rfl <|
    .lexeme (n := 1) rfl rfl <| .lexeme (n := 4) rfl rfl <| .lexeme (n := 1) rfl rfl .done
  have hvalue : Lexes "=add\nadd(dup|pop)\n# a \n"
      [.assign, .ident "add", .newline, .ident "add", .openRound, .ident "dup", .pipe,
        .ident "pop", .closeRound, .newline, .comment "a ", .newline] :=
    .lexeme (n := 1) rfl rfl <| .lexeme (n := 3) rfl rfl <| .lexeme (n := 1) rfl rfl htail
  have hline : Lexes "add =add" [.ident "add", .assign, .ident "add"] :=
    .lexeme (n := 3) rfl rfl <| .space rfl <| .lexeme (n := 1) rfl rfl <|
    .lexeme (n := 3) rfl rfl .done
  have hblank : LayoutEdit "add=add\nadd(dup|pop)\n# a \n" "add =add\nadd(dup|pop)\n# a \n" :=
    .blanks (u := "add") (w := " ") (.lexeme (n := 3) rfl rfl .done) hvalue
      (.lexeme (n := 3) rfl rfl hvalue) (by decide) (Or.inr fun l hl => by cases hl; decide)
  have hreturn : LayoutEdit "add =add\nadd(dup|pop)\n# a \n" "add =add\r\nadd(dup|pop)\n# a \n" :=
    .carriageReturn hline htail
  have hwhole : Lexes "add =add\r\nadd(dup|pop)\n# a \n"
      ([.ident "add", .assign, .ident "add", .newline, .ident "add", .openRound, .ident "dup",
        .pipe, .ident "pop", .closeRound, .newline, .comment "a "] ++ [.newline]) :=
    hline.append_lineBreak htail (w := "\r\n") (by decide)
  have hlast : LayoutEdit "add =add\r\nadd(dup|pop)\n# a \n"
      "add =add\r\nadd(dup|pop)\n# a \n\r\n" :=
    .last hwhole (by decide)
  have hlonger : LayoutEdit "add =add\r\nadd(dup|pop)\n# a \n\r\n"
      "add =add\r\nadd(dup|pop)\n# a \n\n\r\n" :=
    .longer (u := "add =add\r\nadd(dup|pop)\n# a \n") (v := "\r\n") (w := "\n")
      hwhole (.lexeme (n := 2) rfl rfl .done) (by decide)
  have hfirst : LayoutEdit "add =add\r\nadd(dup|pop)\n# a \n\n\r\n"
      "\nadd =add\r\nadd(dup|pop)\n# a \n\n\r\n" :=
    .first (w := "\n") (hwhole.append_lineBreak (w := "\n")
      (.lexeme (n := 2) rfl rfl .done) (by decide)) (by decide)
  have hrelaid : Relaid "add=add\nadd(dup|pop)\n# a \n"
      "\nadd =add\r\nadd(dup|pop)\n# a \n\n\r\n" :=
    ((((Relation.ReflTransGen.single hblank).tail hreturn).tail hlast).tail hlonger).tail hfirst
  exact ⟨hrelaid, (formatSource_relaid hrelaid none _).mpr (formatSource_shadowing none)⟩

end GlyphFormat
