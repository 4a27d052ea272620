import GlyphFormat.Proofs.Text.Classes
import Mathlib.Data.List.TakeWhile

/-!
# Blanks at the end of a text

`Text.trimRight` takes the blanks at the end of a text and nothing else, so what stands before a
text that is not all blanks does not matter to it.
-/

namespace GlyphFormat.Text

variable {s t : Text}

theorem trimRight_append (s t : Text) :
    (s ++ t).trimRight = if t.trimRight = [] then s.trimRight else s ++ t.trimRight := by
  unfold trimRight dropRightWhile
  rw [List.reverse_append, List.dropWhile_append]
  cases h : t.reverse.dropWhile CodePoint.isBlank with
  | nil => rfl
  | cons c u => simp

theorem trimRight_append_of_ne_nil (h : t.trimRight ≠ []) :
    (s ++ t).trimRight = s ++ t.trimRight := by
  rw [trimRight_append, if_neg h]

theorem trimRight_append_of_eq_nil (h : t.trimRight = []) : (s ++ t).trimRight = s.trimRight := by
  rw [trimRight_append, if_pos h]

/-- A text that does not end in a blank stays. -/
theorem trimRight_eq_self (h : ∀ c ∈ t.getLast?, c.isBlank = false) : t.trimRight = t := by
  cases hr : t.reverse with
  | nil =>
      obtain rfl := List.reverse_eq_nil_iff.mp hr
      rfl
  | cons c u =>
      have hc : c.isBlank = false := h c (by rw [← List.head?_reverse, hr]; rfl)
      rw [trimRight, dropRightWhile, hr,
        List.dropWhile_cons_of_neg (by rw [hc]; exact Bool.false_ne_true), ← hr,
        List.reverse_reverse]

theorem isBlank_trimRight (t : Text) : ∀ c ∈ t.trimRight.getLast?, c.isBlank = false := by
  intro c hc
  rw [trimRight, dropRightWhile, List.getLast?_reverse] at hc
  exact Bool.eq_false_iff.mpr fun hb => by
    have := List.head?_dropWhile_not CodePoint.isBlank t.reverse
    rw [show _ = some c from hc] at this
    simp [hb] at this

theorem trimRight_trimRight (t : Text) : t.trimRight.trimRight = t.trimRight :=
  trimRight_eq_self (isBlank_trimRight t)

theorem trimRight_eq_nil_iff : t.trimRight = [] ↔ ∀ c ∈ t, c.isBlank = true := by
  rw [trimRight, dropRightWhile, List.reverse_eq_nil_iff, List.dropWhile_eq_nil_iff]
  exact forall_congr' fun c => by rw [List.mem_reverse]

theorem mem_of_mem_trimRight {c : CodePoint} (h : c ∈ t.trimRight) : c ∈ t := by
  have := (List.dropWhile_sublist CodePoint.isBlank).mem (List.mem_reverse.mp h)
  exact List.mem_reverse.mp this

/-- Blanks at the end of what comes last are as good as gone. -/
theorem trimRight_append_trimRight (s t : Text) :
    (s ++ t.trimRight).trimRight = (s ++ t).trimRight := by
  rw [trimRight_append, trimRight_append s t, trimRight_trimRight]

end GlyphFormat.Text
