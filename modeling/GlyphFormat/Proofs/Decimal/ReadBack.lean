import GlyphFormat.Decimal.Shortest

/-!
# The shortest decimal reads back

Rounding an exact multiple changes nothing, so a decimal that stands for exactly the value of a
double reads as that double (`nearest_unitsOf`). The search for the shortest decimal stops at such a
decimal at the latest: with as many places as the unit has binary ones, every value is on the grid.
Whatever grid it stops at, its answer reads back (`readsBack_shortest`).
-/

namespace GlyphFormat

theorem roundHalfEven_mul {q d : Nat} (hd : 0 < d) : roundHalfEven (q * d) d = q := by
  unfold roundHalfEven
  simp only [Nat.mul_div_cancel _ hd, Nat.mul_mod_left, Nat.mul_zero, if_pos hd]

namespace Binary64

/-- The power of two below a value is the one its magnitude's run begins with. -/
theorem log2_unitsOf {e f : Nat} (hf : f < run) :
    ((run + f) * Nat.pow 2 e).log2 = 52 + e := by
  have hpos : 0 < Nat.pow 2 e := Nat.two_pow_pos e
  have hrun : 0 < run := by decide
  have hne : (run + f) * Nat.pow 2 e ≠ 0 := Nat.mul_ne_zero (by omega) (by omega)
  refine (Nat.log2_eq_iff hne).mpr ⟨?_, ?_⟩
  · rw [Nat.pow_add, show (2 : Nat) ^ 52 = run by decide]
    exact Nat.mul_le_mul_right _ (by omega)
  · rw [show 52 + e + 1 = 53 + e by omega, Nat.pow_add, show (2 : Nat) ^ 53 = run + run by decide]
    exact Nat.mul_lt_mul_of_pos_right (by omega) hpos

/-- A value reads back from itself, whatever the denominator. -/
theorem nearest_unitsOf (m : Nat) {d : Nat} (hd : 0 < d) : nearest (unitsOf m * d) d = m := by
  have hrun : 0 < run := by decide
  simp only [nearest, Nat.mul_div_cancel _ hd]
  by_cases hm : m < run
  · rw [unitsOf, if_pos hm, if_pos (by omega)]
    rw [Nat.zero_mul, Nat.zero_add, show d * Nat.pow 2 0 = d from Nat.mul_one d]
    exact roundHalfEven_mul hd
  · have hquot : 1 ≤ m / run := (Nat.one_le_div_iff hrun).mpr (by omega)
    have hsplit : run * (m / run) + m % run = m := Nat.div_add_mod m run
    have hf : m % run < run := Nat.mod_lt m hrun
    obtain ⟨e, he⟩ : ∃ e, m / run = e + 1 := ⟨m / run - 1, by omega⟩
    rw [unitsOf, if_neg hm, he, Nat.add_sub_cancel]
    -- values of the first two runs stand one unit apart, later ones `2 ^ e` units
    have hshift : (if (run + m % run) * Nat.pow 2 e < 2 * run then 0
        else ((run + m % run) * Nat.pow 2 e).log2 - 52) = e := by
      rw [log2_unitsOf hf]
      split
      · rename_i hlt
        cases e with
        | zero => rfl
        | succ e =>
            have htwo : 2 ≤ Nat.pow 2 (e + 1) := Nat.le_self_pow (Nat.succ_ne_zero e) 2
            have := Nat.mul_le_mul (show run ≤ run + m % run by omega) htwo
            omega
      · omega
    rw [hshift, Nat.mul_assoc _ _ d, Nat.mul_comm (Nat.pow 2 e) d]
    have hround : roundHalfEven ((run + m % run) * (d * Nat.pow 2 e)) (d * Nat.pow 2 e) =
        run + m % run := roundHalfEven_mul (Nat.mul_pos hd (Nat.two_pow_pos e))
    rw [hround]
    rw [he, Nat.mul_comm] at hsplit
    rw [Nat.add_mul, Nat.one_mul] at hsplit
    omega

/-! ## The search -/

/-- The point of the `k`-th grid that is nearest to the value. -/
def near (coarse m k : Nat) : Nat :=
  roundHalfEven (unitsOf m * Nat.pow 10 k) (one * Nat.pow 10 coarse)

/-- The neighbour of the value on the other side. -/
def far (coarse m k : Nat) : Nat :=
  if near coarse m k = unitsOf m * Nat.pow 10 k / (one * Nat.pow 10 coarse)
  then near coarse m k + 1 else near coarse m k - 1

theorem shortestFrom_zero (coarse m k : Nat) :
    shortestFrom coarse m 0 k =
      if readsBack coarse m (near coarse m k) k then (near coarse m k, k)
      else if readsBack coarse m (far coarse m k) k then (far coarse m k, k)
      else (near coarse m k, k) := rfl

theorem shortestFrom_succ (coarse m fuel k : Nat) :
    shortestFrom coarse m (fuel + 1) k =
      if readsBack coarse m (near coarse m k) k then (near coarse m k, k)
      else if readsBack coarse m (far coarse m k) k then (far coarse m k, k)
      else shortestFrom coarse m fuel (k + 1) := rfl

/-- The search passes the grids of which neither neighbour reads back. It answers with the nearest
point of the grid where it stops, or with the other neighbour if only that one reads back. It stops
at the last grid in any case. -/
theorem shortestFrom_spec (coarse m fuel k : Nat) :
    ∃ j, k ≤ j ∧
      (∀ i, k ≤ i → i < j → ¬readsBack coarse m (near coarse m i) i = true ∧
        ¬readsBack coarse m (far coarse m i) i = true) ∧
      (shortestFrom coarse m fuel k = (near coarse m j, j) ∧
          (readsBack coarse m (near coarse m j) j = true ∨ j = fuel + k) ∨
        shortestFrom coarse m fuel k = (far coarse m j, j) ∧
          ¬readsBack coarse m (near coarse m j) j = true ∧
          readsBack coarse m (far coarse m j) j = true) := by
  have hnone : ∀ i, k ≤ i → i < k → ¬readsBack coarse m (near coarse m i) i = true ∧
      ¬readsBack coarse m (far coarse m i) i = true := fun i hki hik => by omega
  induction fuel generalizing k with
  | zero =>
      rw [shortestFrom_zero]
      by_cases hnear : readsBack coarse m (near coarse m k) k = true
      · exact ⟨k, Nat.le_refl k, hnone, .inl ⟨if_pos hnear, .inl hnear⟩⟩
      · by_cases hfar : readsBack coarse m (far coarse m k) k = true
        · rw [if_neg hnear, if_pos hfar]
          exact ⟨k, Nat.le_refl k, hnone, .inr ⟨rfl, hnear, hfar⟩⟩
        · rw [if_neg hnear, if_neg hfar]
          exact ⟨k, Nat.le_refl k, hnone, .inl ⟨rfl, .inr (Nat.zero_add k).symm⟩⟩
  | succ fuel ih =>
      rw [shortestFrom_succ]
      by_cases hnear : readsBack coarse m (near coarse m k) k = true
      · exact ⟨k, Nat.le_refl k, hnone, .inl ⟨if_pos hnear, .inl hnear⟩⟩
      · by_cases hfar : readsBack coarse m (far coarse m k) k = true
        · rw [if_neg hnear, if_pos hfar]
          exact ⟨k, Nat.le_refl k, hnone, .inr ⟨rfl, hnear, hfar⟩⟩
        · rw [if_neg hnear, if_neg hfar, Nat.succ_add_eq_add_succ]
          obtain ⟨j, hkj, hpassed, hanswer⟩ := ih (k + 1) fun i hki hik => by omega
          refine ⟨j, Nat.le_of_succ_le hkj, fun i hki hij => ?_, hanswer⟩
          rcases Nat.eq_or_lt_of_le hki with rfl | hlt
          · exact ⟨hnear, hfar⟩
          · exact hpassed i hlt hij

/-- The finest grid, with as many places as the unit has binary ones, holds every value. -/
theorem near_finest {m k : Nat} (hone : one = Nat.pow 2 k) :
    near 0 m k = unitsOf m * Nat.pow 5 k := by
  have hten : Nat.pow 10 k = Nat.pow 5 k * Nat.pow 2 k := Nat.mul_pow 5 2 k
  rw [near, hone, show Nat.pow 2 k * Nat.pow 10 0 = Nat.pow 2 k from Nat.mul_one _, hten,
    ← Nat.mul_assoc]
  exact roundHalfEven_mul (Nat.two_pow_pos k)

theorem readsBack_finest {m k : Nat} (hone : one = Nat.pow 2 k) :
    readsBack 0 m (unitsOf m * Nat.pow 5 k) k = true := by
  have hten : Nat.pow 10 k = Nat.pow 5 k * Nat.pow 2 k := Nat.mul_pow 5 2 k
  have hpos : 0 < Nat.pow 10 k := Nat.pow_pos (by decide)
  rw [readsBack, decide_eq_true_eq, hone, Nat.mul_assoc (unitsOf m), ← hten]
  rw [show Nat.pow 10 0 = 1 from rfl, Nat.mul_one]
  exact nearest_unitsOf m hpos

theorem readsBack_shortestFrom {m k : Nat} (hone : one = Nat.pow 2 k) :
    readsBack 0 m (shortestFrom 0 m k 0).1 (shortestFrom 0 m k 0).2 = true := by
  obtain ⟨j, -, -, ⟨hnear, hstop⟩ | ⟨hfar, -, hreads⟩⟩ := shortestFrom_spec 0 m k 0
  · rw [hnear]
    dsimp only
    rcases hstop with hreads | rfl
    · exact hreads
    · rw [near_finest hone]
      exact readsBack_finest hone
  · rw [hfar]
    dsimp only
    exact hreads

/-- The shortest decimal of a magnitude reads as that magnitude. -/
theorem ofDecimal_shortest (m : Nat) : ofDecimal (shortest m).1 (shortest m).2 = m := by
  have h : readsBack 0 m (shortest m).1 (shortest m).2 = true :=
    readsBack_shortestFrom (k := 1074) one.eq_1
  rw [readsBack, decide_eq_true_eq, show Nat.pow 10 0 = 1 from rfl, Nat.mul_one] at h
  exact h

end Binary64

end GlyphFormat
