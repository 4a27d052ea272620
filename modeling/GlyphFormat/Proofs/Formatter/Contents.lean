import GlyphFormat.Proofs.Formatter.Comments
import GlyphFormat.Proofs.Formatter.Idempotence
import GlyphFormat.Proofs.Formatter.Phases
import GlyphFormat.Proofs.Grammar.Rebreaks
import GlyphFormat.Proofs.Writing.Printed

/-!
# Formatted contents

A file holds octets, and formatting it goes through text: the octets are read as UTF-8 and the
canonical text is written as UTF-8 (`Octets.formatted`). Nothing is lost on the way. The label of a
source does not matter to its canonical text (`formatSource_label`), and the canonical text of what
was read holds no surrogate (`isScalar_formatSource`), so it is read back as it was written. What is
formatted stays as it is when it is formatted again (`Octets.formatted_formatted`).
-/

namespace GlyphFormat

/-! ## Labels -/

theorem Token.strip_leaf_label (path path' : Option Path) (t : Token) :
    (t.leaf path').strip = (t.leaf path).strip := by
  unfold leaf atom?
  cases t.lexeme <;> rfl

/-- A label stands in spans and nowhere else. -/
theorem Derivation.strip_value (path path' : Option Path) {part : Part} {inside : Bool}
    (d : Derivation part inside) : part.strip (d.value path') = part.strip (d.value path) := by
  induction d with
  | noWords _ _ | noMembers | noBodies => rfl
  | moreWords _ _ w ws ihw ihws => exact List.cons_eq_cons.mpr ⟨ihw, ihws⟩
  | modified t _ g _ w ih =>
      show Word.modified (t.leaf path').strip (Word.strip _) none = .modified _ (Word.strip _) none
      rw [Token.strip_leaf_label path path']
      exact congrArg (Word.modified _ · none) ih
  | strand w ws ihw ihws => exact strip_joined ihw ihws _ _
  | moreMembers _ _ _ _ w ws ihw ihws => exact List.cons_eq_cons.mpr ⟨ihw, ihws⟩
  | atom t _ _ => exact Token.strip_leaf_label path path' t
  | array _ _ ws _ _ ih => exact congrArg (Word.array · none) ih
  | func _ _ b bs _ _ ihb ihbs => exact strip_alternatives ihb ihbs _ _
  | moreBodies _ _ b bs ihb ihbs => exact List.cons_eq_cons.mpr ⟨ihb, ihbs⟩

variable {s t : Text} {path : Option Path}

theorem StatementTree.strip_item (path path' : Option Path) (s : StatementTree) :
    (s.item path').strip = (s.item path).strip := by
  cases s with
  | binding _ _ name _ _ ws =>
      exact congrArg (Item.binding name · none none) (ws.strip_value path path')
  | words w ws =>
      exact congrArg (Item.words · none)
        (List.cons_eq_cons.mpr ⟨w.strip_value path path', ws.strip_value path path'⟩)

theorem LineTree.map_strip_items (path path' : Option Path) (l : LineTree) :
    (l.items path').map Item.strip = (l.items path).map Item.strip := by
  cases l with
  | comment t text ht => rfl
  | statement s => exact congrArg (List.cons · []) (s.strip_item path path')
  | commented s t text ht =>
      exact congrArg (List.cons · [.comment text none]) (s.strip_item path path')

theorem Row.map_strip_items (path path' : Option Path) (behindLine : Bool) (rows : List Row)
    (last : Option LineTree) : (items path' behindLine rows last).map Item.strip =
      (items path behindLine rows last).map Item.strip := by
  induction rows generalizing behindLine with
  | nil =>
      cases last with
      | none => rfl
      | some l => exact l.map_strip_items path path'
  | cons r rows ih =>
      obtain ⟨line, stop, hstop⟩ := r
      cases line with
      | some l =>
          rw [items, items, List.map_append, List.map_append, l.map_strip_items path path', ih]
      | none =>
          rw [items, items, List.map_append, List.map_append, ih]
          split <;> rfl

/-- The label decides neither whether a source has a canonical text nor which. -/
theorem formatSource_label (h : formatSource s path = .ok t) (path' : Option Path) :
    formatSource s path' = .ok t := by
  obtain ⟨hdiag, hsound, rfl⟩ := formatSource_eq_ok_iff.mp h
  obtain ⟨hlex, p, hp⟩ := exists_tree hdiag
  rw [p.parse_eq hlex hp] at hsound ⊢
  refine formatSource_eq_ok ?_ hsound
  rw [p.parse_eq hlex hp]
  exact ⟨rfl, Row.map_strip_items path path' false p.rows p.last⟩

/-! ## Texts without surrogates -/

namespace CodePoint

variable {c : CodePoint}

theorem isSurrogate_ofChar (a : Char) : (ofChar a).isSurrogate = false := by
  have hvalid : a.val.toNat.isValidChar := a.valid
  simp only [Nat.isValidChar] at hvalid
  refine isSurrogate_eq_false_iff.mpr ?_
  show a.val.toNat < _ ∨ _ < a.val.toNat
  omega

end CodePoint

namespace Text

theorem isScalar_ofString (s : String) : (ofString s).IsScalar := by
  intro c hc
  obtain ⟨a, -, rfl⟩ := List.mem_map.mp hc
  exact CodePoint.isSurrogate_ofChar a

theorem IsScalar.append (hs : s.IsScalar) (ht : t.IsScalar) : IsScalar (s ++ t) :=
  List.forall_mem_append.mpr ⟨hs, ht⟩

end Text

namespace Layout

variable {l : Layout}

theorem isScalar_lines (bound : List Item → Text → Bool) (done : List Item) {is : List Item}
    (hl : l.text.IsScalar) (his : ∀ i ∈ is, i.WellFormed)
    (hcomments : ∀ t ∈ is.filterMap Item.comment?, t.IsScalar) :
    (l.lines bound done is).text.IsScalar := by
  induction is generalizing l done with
  | nil => exact hl
  | cons i is ih =>
      obtain ⟨hi, his⟩ := List.forall_mem_cons.mp his
      -- of all that is written, a comment alone is taken from the source as it stands
      have hline : (l.line (bound done) i).text.IsScalar := by
        refine forall_line (fun c hc => (CodePoint.isPrintable_apart hc).2) hl hi ?_
        rintro t span rfl
        exact hcomments t (List.mem_filterMap.mpr ⟨_, List.mem_cons_self, rfl⟩)
      refine ih _ (forall_push hline (Text.isScalar_ofString _)) his fun t ht => hcomments t ?_
      obtain ⟨j, hj, hjt⟩ := List.mem_filterMap.mp ht
      exact List.mem_filterMap.mpr ⟨j, List.mem_cons_of_mem _ hj, hjt⟩

end Layout

/-- The text of a comment stands in the source. -/
theorem Lexes.mem_of_mem_comment {ls : List Lexeme} (h : Lexes s ls) :
    ∀ u, .comment u ∈ ls → ∀ c ∈ u, c ∈ s := by
  induction h with
  | done => exact fun u hu => absurd hu List.not_mem_nil
  | space _ _ ih => exact fun u hu c hc => List.mem_cons_of_mem _ (ih u hu c hc)
  | @lexeme s n l ls _ hscan _ ih =>
      intro u hu c hc
      rcases List.mem_cons.mp hu with rfl | hu
      · obtain ⟨v, w, rfl, -, hwritten, -⟩ := Lexeme.exists_written hscan
        cases hwritten with
        | mark h => exact absurd h (by simp [Lexeme.marks])
        | comment _ =>
            exact List.mem_append_left _ (List.mem_cons_of_mem _ (Text.mem_of_mem_ofComment hc))
      · exact List.mem_of_mem_drop (ih u hu c hc)

/-- The canonical text of a source without surrogates has none. -/
theorem isScalar_formatSource (h : formatSource s path = .ok t) (hs : s.IsScalar) :
    t.IsScalar := by
  obtain ⟨hdiag, -, rfl⟩ := formatSource_eq_ok_iff.mp h
  have hcomments : ∀ u ∈ (parse s path).items.filterMap Item.comment?, u.IsScalar := by
    intro u hu c hc
    rw [← (comments_of_parse hdiag).1] at hu
    obtain ⟨l, hl, hlu⟩ := List.mem_filterMap.mp hu
    have hlexes := lexes_lexemes (exists_tree hdiag).1
    cases l with
    | comment v =>
        obtain rfl : v = u := Option.some.inj hlu
        exact hs c (hlexes.mem_of_mem_comment v hl c hc)
    | _ => cases hlu
  have hlines := Layout.isScalar_lines (l := {}) boundBefore []
    (fun c hc => absurd hc List.not_mem_nil) (wellFormed_of_parse hdiag).each hcomments
  exact Text.IsScalar.append (fun c hc => hlines c (Text.mem_of_mem_trimRight hc))
    (Text.isScalar_ofString _)

/-! ## Contents of files -/

/-- The canonical text of sound items is a source with that canonical text. -/
theorem formatSource_canonicalText {items : List Item} (hitems : WellFormedItems items)
    (hsound : SoundItems [] items) (path : Option Path) :
    formatSource (canonicalText boundBefore items) path =
      .ok (canonicalText boundBefore items) := by
  have hlike := AllLike.canonical [] items
  rw [formatSource_eq_ok (parse_canonicalText boundBefore hitems path)
      (soundItems_trimLast.mpr (hlike.sound rfl hsound)),
    canonicalText_trimLast, hlike.canonicalText]

theorem formatSource_again (h : formatSource s path = .ok t) (path' : Option Path) :
    formatSource t path' = .ok t := by
  obtain ⟨hdiag, hsound, rfl⟩ := formatSource_eq_ok_iff.mp h
  exact formatSource_canonicalText (wellFormed_of_parse hdiag) hsound path'

/-- What has no canonical text is reported. -/
theorem reported_of_formatSource {e : FormatFailure} (h : formatSource s path = .error e) :
    ∃ ds, e = .reported ds := by
  by_cases hdiag : (parse s path).diagnostics = []
  · rw [formatSource_eq hdiag] at h
    split at h
    · cases h
    · exact ⟨_, (Except.error.inj h).symm⟩
  · rw [formatSource_of_reported hdiag] at h
    exact ⟨_, (Except.error.inj h).symm⟩

/-- The octets of the canonical text, where the octets are those of a source that has one. -/
def Octets.formatted (o : Octets) : Octets :=
  match Utf8.decode o with
  | .error _ => o
  | .ok s =>
    match formatSource s none with
    | .ok t => Utf8.encode t
    | .error _ => o

namespace Octets

variable {o : Octets}

theorem formatted_of_decode (ho : Utf8.decode o = .ok s) (h : formatSource s path = .ok t) :
    o.formatted = Utf8.encode t := by
  simp only [formatted, ho, formatSource_label h none]

theorem formatted_of_error {e : FormatFailure} (ho : Utf8.decode o = .ok s)
    (h : formatSource s path = .error e) : o.formatted = o := by
  simp only [formatted, ho]
  cases hnone : formatSource s none with
  | error _ => rfl
  | ok t =>
      have := formatSource_label hnone path
      rw [h] at this
      cases this

theorem formatted_of_undecodable {f : Utf8.Fault} (ho : Utf8.decode o = .error f) :
    o.formatted = o := by
  simp only [formatted, ho]

/-- What was read and formatted is written so that it is read back. -/
theorem decode_encode_formatSource (ho : Utf8.decode o = .ok s) (h : formatSource s path = .ok t) :
    Utf8.decode (Utf8.encode t) = .ok t :=
  Utf8.decode_encode (isScalar_formatSource h (Utf8.encode_of_decode ho).1)

/-- Formatting contents twice is formatting them once. -/
theorem formatted_formatted (o : Octets) : o.formatted.formatted = o.formatted := by
  cases ho : Utf8.decode o with
  | error f => rw [formatted_of_undecodable ho, formatted_of_undecodable ho]
  | ok s =>
      cases h : formatSource s none with
      | error e => rw [formatted_of_error ho h, formatted_of_error ho h]
      | ok t =>
          rw [formatted_of_decode ho h, formatted_of_decode (decode_encode_formatSource ho h)
            (formatSource_again h none)]

end Octets

end GlyphFormat
