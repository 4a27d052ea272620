import GlyphFormat.Proofs.Formatter.Sources
import GlyphFormat.Proofs.Grammar.Names
import GlyphFormat.Proofs.Token.Places

/-!
# What name resolution reports about a source

Whether a source that fits the grammar has a canonical text depends on the names in it, and what is
reported otherwise is known from its tokens alone (`formatSource_nameFaults`): one diagnostic for
every use of a name that stands for nothing, however deep it is nested, and one for every binding
without a value, in the order of the source. A name begins to count on the line behind its binding.
-/

namespace GlyphFormat

open Cursor (depthAfter)

/-- The tokens of a source line by line. -/
def Text.logicalLines (s : Text) : List (List Token) :=
  GlyphFormat.logicalLines depthAfter 0 (tokenize s).1

/-- What is wrong with the names of a source, and at which token. -/
def Text.NameFault (s : Text) (path : Option Path) (t : Token) (d : Diagnostic) : Prop :=
  ∃ before line after, s.logicalLines = before ++ line :: after ∧
    GlyphFormat.NameFault path before line t d

variable {s : Text} {path : Option Path}

/-- What is reported about the items of a source is what is wrong with its names, in order. -/
theorem nameFaults_items (hdiag : (parse s path).diagnostics = []) :
    (∀ d, d ∈ faultsBehind [] (parse s path).items ↔ ∃ t, s.NameFault path t d) ∧
      (faultsBehind [] (parse s path).items).Pairwise fun d d' => d.span.start < d'.span.start := by
  obtain ⟨hlex, p, hp⟩ := exists_tree hdiag
  have hlines : s.logicalLines =
      p.rows.map Row.tokens ++ [LineTree.tokens? p.last ++ [p.stop]] := by
    rw [Text.logicalLines, ← hp]
    exact Row.logicalLines_tokens p.rows p.last p.atEnd
  have hnone : SameBindings [] [] := fun n => iff_of_false nofun nofun
  rw [p.parse_eq hlex hp]
  constructor
  · intro d
    refine (Row.mem_faults p.rows p.last false hnone (Or.inr p.atEnd)).trans ⟨?_, ?_⟩
    · rintro ⟨before, line, after, hline, t, hfault⟩
      exact ⟨t, before, line, after, hlines.trans hline, hfault⟩
    · rintro ⟨t, before, line, after, hline, hfault⟩
      exact ⟨before, line, after, hlines.symm.trans hline, t, hfault⟩
  · have hstarts : ((faultsBehind [] (p.items path)).map (·.span.start)).Sublist
        (p.tokens.map Token.start) :=
      Row.starts_faults p.rows p.last false (Or.inr p.atEnd)
    have happart : (p.tokens.map Token.start).Pairwise (· < ·) := by
      rw [hp, List.pairwise_map]
      exact (tokens_apart s).imp And.left
    exact List.pairwise_map.mp (happart.sublist hstarts)

/-- A source that fits the grammar has no canonical text exactly when something is wrong with its
names. Then each fault is reported once, in the order of the source: the tokens stand at different
places, each fault is reported where its token starts, and the span of a name marks the name. -/
theorem formatSource_nameFaults (hdiag : (parse s path).diagnostics = []) :
    ((∃ f, formatSource s path = .error f) ↔ ∃ t d, s.NameFault path t d) ∧
      (∀ f, formatSource s path = .error f → ∃ ds, f = .reported ds ∧
        (∀ d, d ∈ ds ↔ ∃ t, s.NameFault path t d) ∧
        ds.Pairwise fun d d' => d.span.start < d'.span.start) ∧
      ((tokenize s).1.Pairwise fun t u => t.start < u.start) ∧
      ∀ t ∈ (tokenize s).1, ∀ name, t.lexeme = .ident name → s.slice t.start t.stop = name := by
  obtain ⟨hmem, horder⟩ := nameFaults_items hdiag
  have hformat := formatSource_eq hdiag
  refine ⟨⟨?_, ?_⟩, ?_, (tokens_apart s).imp And.left, fun t ht name => slice_ident ht⟩
  · rintro ⟨f, hf⟩
    rw [hformat] at hf
    split at hf
    · cases hf
    · rename_i hne
      obtain ⟨d, hd⟩ := List.exists_mem_of_ne_nil _ hne
      obtain ⟨t, hfault⟩ := (hmem d).mp hd
      exact ⟨t, d, hfault⟩
  · rintro ⟨t, d, hfault⟩
    rw [hformat, if_neg (List.ne_nil_of_mem ((hmem d).mpr ⟨t, hfault⟩))]
    exact ⟨_, rfl⟩
  · intro f hf
    rw [hformat] at hf
    split at hf
    · cases hf
    · exact ⟨_, (Except.error.inj hf).symm, hmem, horder⟩

/-- A binding that calls its own name, names in a function and a strand, and a binding without a
value behind which a comment stands. -/
theorem formatSource_nameFaults_nested :
    (parse "x=x\n(x|[y 1_x])\nz= # z\nz" none).diagnostics = [] ∧
      ∃ ds, formatSource "x=x\n(x|[y 1_x])\nz= # z\nz" none = .error (.reported ds) ∧
        ds = [⟨"Unknown identifier 'x'", ⟨none, ⟨1, 3⟩, ⟨1, 4⟩⟩, .resolve⟩,
          ⟨"Unknown identifier 'y'", ⟨none, ⟨2, 5⟩, ⟨2, 6⟩⟩, .resolve⟩,
          ⟨"Binding 'z' has no value", ⟨none, ⟨3, 1⟩, ⟨3, 3⟩⟩, .resolve⟩] ∧
        (∀ d, d ∈ ds ↔ ∃ t, Text.NameFault "x=x\n(x|[y 1_x])\nz= # z\nz" none t d) ∧
        Text.slice "x=x\n(x|[y 1_x])\nz= # z\nz" ⟨2, 5⟩ ⟨2, 6⟩ = "y" := by
  have hdiag : (parse "x=x\n(x|[y 1_x])\nz= # z\nz" none).diagnostics = [] := by decide +kernel
  have hfaults : faultsBehind [] (parse "x=x\n(x|[y 1_x])\nz= # z\nz" none).items =
      [⟨"Unknown identifier 'x'", ⟨none, ⟨1, 3⟩, ⟨1, 4⟩⟩, .resolve⟩,
        ⟨"Unknown identifier 'y'", ⟨none, ⟨2, 5⟩, ⟨2, 6⟩⟩, .resolve⟩,
        ⟨"Binding 'z' has no value", ⟨none, ⟨3, 1⟩, ⟨3, 3⟩⟩, .resolve⟩] := by decide +kernel
  have hformat := formatSource_eq hdiag
  rw [hfaults, if_neg nofun] at hformat
  obtain ⟨-, hreported, -, hslice⟩ := formatSource_nameFaults hdiag
  obtain ⟨ds, hds, hmem, -⟩ := hreported _ hformat
  obtain rfl := FormatFailure.reported.inj hds
  refine ⟨hdiag, _, hformat, rfl, hmem, ?_⟩
  exact hslice ⟨.ident "y", ⟨2, 5⟩, ⟨2, 6⟩⟩ (by decide +kernel) "y" rfl

end GlyphFormat
