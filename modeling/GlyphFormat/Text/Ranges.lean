/-!
# Sets of numbers as ascending ranges

A class of code points is stored as a list of closed ranges in ascending order. Membership stops
at the first range that begins behind the number.
-/

namespace GlyphFormat

/-- Closed ranges `(first, last)`, ascending and apart. -/
abbrev Ranges := List (Nat × Nat)

namespace Ranges

def contains : Ranges → Nat → Bool
  | [], _ => false
  | (lo, hi) :: rest, n => if n < lo then false else n ≤ hi || contains rest n

/-- Each range is in order and ends before the next one begins. -/
def Ascending : Ranges → Prop
  | [] => True
  | [(lo, hi)] => lo ≤ hi
  | (lo, hi) :: (lo', hi') :: rest => lo ≤ hi ∧ hi < lo' ∧ Ascending ((lo', hi') :: rest)

instance decidableAscending : (r : Ranges) → Decidable (Ascending r)
  | [] => .isTrue trivial
  | [(lo, hi)] => inferInstanceAs (Decidable (lo ≤ hi))
  | (lo, hi) :: (lo', hi') :: rest =>
    have := decidableAscending ((lo', hi') :: rest)
    inferInstanceAs (Decidable (lo ≤ hi ∧ hi < lo' ∧ Ascending ((lo', hi') :: rest)))

theorem lt_of_mem_ascending {lo hi : Nat} {r : Ranges} (h : Ascending ((lo, hi) :: r))
    {p : Nat × Nat} (hp : p ∈ r) : hi < p.1 := by
  induction r generalizing lo hi with
  | nil => simp at hp
  | cons q r ih =>
    obtain ⟨h₁, h₂, h₃⟩ := h
    rcases List.mem_cons.1 hp with rfl | hp
    · exact h₂
    · have h₄ := ih h₃ hp
      have h₅ : q.1 ≤ q.2 := by
        cases r with
        | nil => exact h₃
        | cons _ _ => exact h₃.1
      omega

theorem Ascending.tail {p : Nat × Nat} {r : Ranges} (h : Ascending (p :: r)) : Ascending r := by
  cases r with
  | nil => trivial
  | cons _ _ => exact h.2.2

/-- On ascending ranges, membership is membership in one of the ranges. -/
theorem contains_iff {r : Ranges} (h : Ascending r) {n : Nat} :
    r.contains n = true ↔ ∃ p ∈ r, p.1 ≤ n ∧ n ≤ p.2 := by
  induction r with
  | nil => simp [contains]
  | cons p r ih =>
    obtain ⟨lo, hi⟩ := p
    have ih := ih h.tail
    unfold contains
    split
    · rename_i hn
      simp only [Bool.false_eq_true, false_iff]
      rintro ⟨p, hp, h₁, h₂⟩
      rcases List.mem_cons.1 hp with rfl | hp
      · simp only at h₁; omega
      · have h₃ := lt_of_mem_ascending h hp
        have h₄ : lo ≤ hi := by
          cases r with
          | nil => exact h
          | cons _ _ => exact h.1
        omega
    · rename_i hn
      simp only [Bool.or_eq_true, decide_eq_true_eq, ih, List.mem_cons, exists_eq_or_imp]
      constructor
      · rintro (h₁ | h₁)
        · exact .inl ⟨by omega, h₁⟩
        · exact .inr h₁
      · rintro (h₁ | h₁)
        · exact .inl h₁.2
        · exact .inr h₁

end Ranges

end GlyphFormat
