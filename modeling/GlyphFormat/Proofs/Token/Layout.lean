import Mathlib.Logic.Relation
import GlyphFormat.Proofs.Text.Trim
import GlyphFormat.Proofs.Token.Breaks

/-!
# Edits of the layout

A text may be laid out in other ways. `LayoutEdit` is one edit of its layout and `Relaid` any number
of them: blanks at the ends and between lexemes, but not behind a comment, longer runs of line
breaks, line breaks at the ends, and carriage returns.

Of all that, few edits are seen in the lexemes: a run of line breaks grows, a line break comes first
or last, or blanks are added to a comment at the end (`LayoutEdit.lexes`).
-/

namespace GlyphFormat

open Scanner (isSpace)

/-- The line breaks, alone and behind a carriage return. -/
def Text.lineBreaks : List Text := ["\n", "\r\n"]

theorem Text.mem_lineBreaks {w : Text} : w ∈ lineBreaks ↔ w = "\n" ∨ w = "\r\n" := by
  simp [lineBreaks]

/-- One edit of the layout. The place of the edit is between lexemes: in front of it and behind it
the text spells lexemes by itself. -/
inductive LayoutEdit : Text → Text → Prop
  | blanks {u v w : Text} {ls ms : List Lexeme} (hu : Lexes u ls) (hv : Lexes v ms)
      (h : Lexes (u ++ v) (ls ++ ms)) (hw : ∀ c ∈ w, isSpace c = true)
      (hcomment : v = [] ∨ ∀ l ∈ ls.getLast?, l.kind ≠ .comment) :
      LayoutEdit (u ++ v) (u ++ (w ++ v))
  | longer {u v w : Text} {ls ms : List Lexeme} (hu : Lexes u (ls ++ [.newline]))
      (hv : Lexes v (.newline :: ms)) (hw : w ∈ Text.lineBreaks) :
      LayoutEdit (u ++ v) (u ++ (w ++ v))
  | first {v w : Text} {ms : List Lexeme} (hv : Lexes v ms) (hw : w ∈ Text.lineBreaks) :
      LayoutEdit v (w ++ v)
  | last {u w : Text} {ls : List Lexeme} (hu : Lexes u ls) (hw : w ∈ Text.lineBreaks) :
      LayoutEdit u (u ++ w)
  | carriageReturn {u v : Text} {ls ms : List Lexeme} (hu : Lexes u ls) (hv : Lexes v ms) :
      LayoutEdit (u ++ (CodePoint.ofChar '\n' :: v))
        (u ++ (CodePoint.ofChar '\r' :: CodePoint.ofChar '\n' :: v))

/-- The second text is the first one laid out in another way. -/
def Relaid : Text → Text → Prop := Relation.ReflTransGen LayoutEdit

/-- An edit of the layout, as far as it is seen in the lexemes. -/
inductive Lexeme.LayoutEdit : List Lexeme → List Lexeme → Prop
  | same (ls : List Lexeme) : LayoutEdit ls ls
  | longer (ls ms : List Lexeme) :
      LayoutEdit (ls ++ .newline :: .newline :: ms) (ls ++ .newline :: .newline :: .newline :: ms)
  | first (ls : List Lexeme) : LayoutEdit ls (.newline :: ls)
  | last (ls : List Lexeme) : LayoutEdit ls (ls ++ [.newline])
  | comment (ls : List Lexeme) {a b : Text} (h : a.trimRight = b.trimRight) :
      LayoutEdit (ls ++ [.comment a]) (ls ++ [.comment b])

namespace Lexes

variable {u v w : Text} {ls ms : List Lexeme}

theorem spaces (hv : Lexes v ms) (hw : ∀ c ∈ w, isSpace c = true) : Lexes (w ++ v) ms := by
  induction w with
  | nil => exact hv
  | cons c w ih =>
      obtain ⟨hc, hw⟩ := List.forall_mem_cons.mp hw
      exact .space hc (ih hw)

theorem lineBreak (hv : Lexes v ms) (hw : w ∈ Text.lineBreaks) :
    Lexes (w ++ v) (.newline :: ms) := by
  rcases Text.mem_lineBreaks.mp hw with rfl | rfl
  · exact .lexeme (n := 1) rfl rfl hv
  · exact .lexeme (n := 2) rfl rfl hv

/-- A text may be followed by any text that begins with a line break. -/
theorem append_lineBreak (hu : Lexes u ls) (hv : Lexes v ms) (hw : w ∈ Text.lineBreaks) :
    Lexes (u ++ (w ++ v)) (ls ++ .newline :: ms) := by
  refine hu.append (hv.lineBreak hw) fun l _ c hc => l.absorbs_lineBreak ?_
  rcases Text.mem_lineBreaks.mp hw with rfl | rfl <;>
    · obtain rfl := Option.some.inj hc
      rfl

end Lexes

/-! ## A comment at the end -/

theorem Text.trimRight_append_spaces {w : Text} (t : Text) (hw : ∀ c ∈ w, isSpace c = true) :
    (t ++ w).trimRight = t.trimRight := by
  refine Text.trimRight_append_of_eq_nil ?_
  have hblank : ∀ c ∈ w.reverse, c.isBlank = true := by
    intro c hc
    rcases Bool.or_eq_true_iff.mp (hw c (List.mem_reverse.mp hc)) with h | h <;>
      · rw [of_decide_eq_true h]
        decide
  rw [Text.trimRight, Text.dropRightWhile, ← List.append_nil w.reverse,
    List.dropWhile_append_of_pos hblank]
  rfl

theorem Scanner.isLineBreak_of_isSpace {c : CodePoint} (hc : isSpace c = true) :
    c.isLineBreak = false := by
  rcases Bool.or_eq_true_iff.mp hc with hc | hc <;>
    · rw [of_decide_eq_true hc]
      decide

/-- The text of a comment, of what stands behind its mark. -/
def Text.ofComment (r : Text) : Text := if Text.first r = ' ' then r.tail else r

theorem Text.mem_of_mem_ofComment {r : Text} {c : CodePoint} (h : c ∈ r.ofComment) : c ∈ r := by
  unfold ofComment at h
  split at h
  · exact List.mem_of_mem_tail h
  · exact h

theorem Text.trimRight_ofComment {r w : Text} (hw : ∀ c ∈ w, isSpace c = true) :
    (r ++ w).ofComment.trimRight = r.ofComment.trimRight := by
  cases r with
  | nil =>
      have htail : ∀ c ∈ w.ofComment, isSpace c = true := fun c hc =>
        hw c (mem_of_mem_ofComment hc)
      exact trimRight_append_spaces [] htail
  | cons c r =>
      unfold ofComment
      rw [List.cons_append, Lexeme.first_cons, Lexeme.first_cons]
      split
      · exact trimRight_append_spaces r hw
      · exact trimRight_append_spaces (c :: r) hw

theorem Lexeme.scan_comment_to_end {c : CodePoint} {r : Text} (hc : Opening.of c = .comment)
    (hr : ∀ d ∈ r, d.isLineBreak = false) :
    scan (c :: r) = .found (r.length + 1) (.comment r.ofComment) := by
  have hrun : r.takeWhile (!·.isLineBreak) = r := by
    have h := @Text.takeWhile_run (!·.isLineBreak) r [] (fun d hd => congrArg (!·) (hr d hd)) nofun
    rwa [List.append_nil] at h
  rw [scan, first_cons, hc]
  simp only [afterOne, List.tail_cons, scanComment, hrun, Nat.add_comm r.length]
  rfl

/-- A comment that is the last lexeme runs to the end. -/
theorem Lexes.of_last_comment {s a : Text} {n : Nat}
    (hscan : Lexeme.scan s = .found n (.comment a)) (h : Lexes (s.drop n) []) :
    ∃ c r, s = c :: r ∧ Lexeme.Opening.of c = .comment ∧ ∀ d ∈ r, d.isLineBreak = false := by
  have hopening := (Lexeme.opening_of_scan (s := s) (by rw [hscan]; rfl)).2.1 rfl
  cases s with
  | nil => cases hscan
  | cons c r =>
      refine ⟨c, r, rfl, hopening, ?_⟩
      rw [Lexeme.first_cons] at hopening
      have hn : n = (r.takeWhile (!·.isLineBreak)).length + 1 := by
        rw [Lexeme.scan, Lexeme.first_cons, hopening] at hscan
        have htaken : 1 + (r.takeWhile (!·.isLineBreak)).length = n := congrArg Scan.taken hscan
        rw [← htaken, Nat.add_comm]
      rw [hn, List.drop_succ_cons, Text.drop_takeWhile] at h
      have hnil : r.dropWhile (!·.isLineBreak) = [] := by
        cases hd : r.dropWhile (!·.isLineBreak) with
        | nil => rfl
        | cons e d =>
            have he := Text.head?_dropWhile (s := r) (by rw [hd]; rfl)
            rw [hd] at h
            cases h with
            | space hc _ => rw [Scanner.isLineBreak_of_isSpace hc] at he; cases he
      intro d hd
      rw [← List.takeWhile_append_dropWhile (p := (!·.isLineBreak)) (l := r), hnil,
        List.append_nil] at hd
      simpa using Text.mem_takeWhile hd

/-- Blanks behind a last comment become part of it. -/
theorem Lexes.comment_blanks {u w a : Text} {ks : List Lexeme} (hu : Lexes u ks)
    (hw : ∀ c ∈ w, isSpace c = true) {ls : List Lexeme} (hks : ks = ls ++ [.comment a]) :
    ∃ b, Lexes (u ++ w) (ls ++ [.comment b]) ∧ a.trimRight = b.trimRight := by
  induction hu generalizing ls with
  | done => simp at hks
  | space hc _ ih =>
      obtain ⟨b, hb, htrim⟩ := ih hks
      exact ⟨b, .space hc hb, htrim⟩
  | @lexeme s n l ks hfirst hscan h ih =>
      cases ls with
      | nil =>
          obtain ⟨rfl, rfl⟩ := List.cons.inj hks
          obtain ⟨c, r, rfl, hc, hr⟩ := Lexes.of_last_comment hscan h
          have hrw : ∀ d ∈ r ++ w, d.isLineBreak = false :=
            List.forall_mem_append.mpr ⟨hr, fun d hd => Scanner.isLineBreak_of_isSpace (hw d hd)⟩
          have ha : a = Text.ofComment r := by
            rw [Lexeme.scan_comment_to_end hc hr] at hscan
            cases hscan
            rfl
          have hscan' := Lexeme.scan_comment_to_end hc hrw
          refine ⟨Text.ofComment (r ++ w), .lexeme hfirst hscan' ?_, ?_⟩
          · show Lexes ((r ++ w).drop (r ++ w).length) []
            rw [List.drop_length]
            exact .done
          · rw [ha, Text.trimRight_ofComment hw]
      | cons k ls =>
          obtain ⟨rfl, rfl⟩ := List.cons.inj hks
          obtain ⟨b, hb, htrim⟩ := ih rfl
          have hpoint : ∀ c ∈ w.head?, c ≠ '.' := by
            rintro c hc rfl
            exact absurd (hw _ (List.mem_of_mem_head? hc)) (by decide)
          obtain ⟨hscan', hdrop, hfirst'⟩ := h.scan_append hscan hpoint fun hnil => by simp at hnil
          exact ⟨b, .lexeme (hfirst' ▸ hfirst) hscan' (hdrop ▸ hb), htrim⟩

/-! ## Edits of lexemes -/

/-- What an edit of the layout does to the lexemes. -/
theorem LayoutEdit.lexes {s t : Text} (h : LayoutEdit s t) :
    ∃ ls ms, Lexes s ls ∧ Lexes t ms ∧ Lexeme.LayoutEdit ls ms := by
  cases h with
  | @blanks u v w ls ms hu hv h hw hcomment =>
      by_cases hjoin : ∀ l ∈ ls.getLast?, l.kind ≠ .comment
      · refine ⟨_, _, h, ?_, .same _⟩
        cases w with
        | nil => exact h
        | cons c w =>
            refine hu.append (hv.spaces hw) fun l hl d hd => ?_
            obtain rfl : c = d := Option.some.inj hd
            exact Lexeme.absorbs_space (hjoin l hl) (hw c List.mem_cons_self)
      · obtain rfl := hcomment.resolve_right hjoin
        obtain ⟨l, hl, hkind⟩ : ∃ l ∈ ls.getLast?, l.kind = .comment := by simpa using hjoin
        obtain ⟨ks, rfl⟩ := List.getLast?_eq_some_iff.mp hl
        cases l with
        | comment a =>
            obtain ⟨b, hb, htrim⟩ := hu.comment_blanks hw rfl
            rw [List.append_nil, List.append_nil]
            exact ⟨_, _, hu, hb, .comment ks htrim⟩
        | _ => cases hkind
  | @longer u v w ls ms hu hv hw =>
      have hbreak : ∀ l ∈ (ls ++ [Lexeme.newline]).getLast?, ∀ c ∈ v.head?,
          l.absorbs c = false := by
        intro l hl c _
        rw [List.getLast?_concat] at hl
        exact Option.some.inj hl ▸ rfl
      have hs := hu.append hv hbreak
      have ht := hu.append_lineBreak hv hw
      rw [List.append_assoc] at hs ht
      exact ⟨_, _, hs, ht, .longer ls ms⟩
  | first hv hw => exact ⟨_, _, hv, hv.lineBreak hw, .first _⟩
  | @last u w ls hu hw =>
      have h := hu.append_lineBreak .done hw
      rw [List.append_nil] at h
      exact ⟨_, _, hu, h, .last ls⟩
  | carriageReturn hu hv =>
      exact ⟨_, _, hu.append_lineBreak hv (Text.mem_lineBreaks.mpr (Or.inl rfl)),
        hu.append_lineBreak hv (Text.mem_lineBreaks.mpr (Or.inr rfl)), .same _⟩

end GlyphFormat
