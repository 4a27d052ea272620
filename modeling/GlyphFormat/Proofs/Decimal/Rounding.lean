import GlyphFormat.Decimal.Reading
import Mathlib.Data.Nat.Dist
import Mathlib.Order.Monotone.Basic

/-!
# Correct rounding

What it means that a magnitude is the correctly rounded one for a fraction (`IsNearest`): no value
is nearer to the fraction, and one that is as near leaves the choice to the even magnitude. The
range of the exponent has no bound here, so a fraction is too large for a finite double when the
magnitude it rounds to is not finite.

One magnitude at most is correctly rounded, since values grow with magnitudes, and reading a decimal
finds it (`isNearest_nearest`). The proof looks at the two neighbours of the fraction: they are two
magnitudes in a row, whose values are multiples of one power of two.
-/

namespace GlyphFormat

theorem roundHalfEven_cases (n d : Nat) :
    roundHalfEven n d = n / d ∧
        (2 * (n % d) < d ∨ 2 * (n % d) = d ∧ roundHalfEven n d % 2 = 0) ∨
      roundHalfEven n d = n / d + 1 ∧
        (d < 2 * (n % d) ∨ 2 * (n % d) = d ∧ roundHalfEven n d % 2 = 0) := by
  unfold roundHalfEven
  extract_lets q r
  split
  · exact .inl ⟨rfl, .inl ‹_›⟩
  · split
    · exact .inr ⟨rfl, .inl ‹_›⟩
    · split
      · exact .inl ⟨rfl, .inr ⟨by omega, ‹_›⟩⟩
      · exact .inr ⟨rfl, .inr ⟨by omega, by omega⟩⟩

namespace Binary64

/-! ## Values of magnitudes -/

/-- The values of the magnitudes in run `s`, and of the first one behind it. The run of the
subnormal magnitudes belongs to the first. -/
theorem unitsOf_run {s j : Nat} (hlow : s = 0 ∨ run ≤ j) (hhigh : j ≤ 2 * run) :
    unitsOf (s * run + j) = j * Nat.pow 2 s := by
  have hrun : 0 < run := by decide
  unfold unitsOf
  split
  · rename_i hlt
    obtain rfl : s = 0 := by
      rcases hlow with hs | hj
      · exact hs
      · omega
    rw [Nat.zero_mul, Nat.zero_add]
    exact (Nat.mul_one j).symm
  · rename_i hge
    have hj : run ≤ j := by
      rcases hlow with rfl | hj
      · omega
      · exact hj
    obtain ⟨f, rfl⟩ := Nat.exists_eq_add_of_le hj
    have hsum : s * run + (run + f) = (s + 1) * run + f := by
      rw [Nat.add_mul, Nat.one_mul, Nat.add_assoc]
    rcases Nat.lt_or_ge f run with hf | hf
    · have hdiv : ((s + 1) * run + f) / run = s + 1 := by
        rw [Nat.add_comm, Nat.add_mul_div_right _ _ hrun, Nat.div_eq_of_lt hf, Nat.zero_add]
      have hmod : ((s + 1) * run + f) % run = f := by
        rw [Nat.add_comm, Nat.add_mul_mod_self_right, Nat.mod_eq_of_lt hf]
      rw [hsum, hdiv, hmod, Nat.add_sub_cancel]
    · obtain rfl : f = run := by omega
      have htwice : (s + 1) * run + run = (s + 2) * run := by
        rw [Nat.add_mul, Nat.add_mul]
        omega
      rw [hsum, htwice, Nat.mul_div_cancel _ hrun, Nat.mul_mod_left, Nat.add_zero]
      show run * 2 ^ (s + 2 - 1) = (run + run) * 2 ^ s
      rw [show s + 2 - 1 = s + 1 by omega, Nat.pow_succ, ← Nat.mul_assoc, Nat.mul_two, Nat.add_mul]

/-- Every magnitude belongs to a run. -/
theorem exists_run (m : Nat) :
    ∃ s j, m = s * run + j ∧ (s = 0 ∨ run ≤ j) ∧ j < 2 * run := by
  have hrun : 0 < run := by decide
  have hsplit : run * (m / run) + m % run = m := Nat.div_add_mod m run
  have hmod : m % run < run := Nat.mod_lt m hrun
  cases hq : m / run with
  | zero =>
      rw [hq, Nat.mul_zero, Nat.zero_add] at hsplit
      exact ⟨0, m, by omega, .inl rfl, by omega⟩
  | succ s =>
      rw [hq, Nat.mul_comm, Nat.add_mul, Nat.one_mul] at hsplit
      exact ⟨s, run + m % run, by omega, .inr (Nat.le_add_right _ _), by omega⟩

/-- Values grow with magnitudes. -/
theorem unitsOf_strictMono : StrictMono unitsOf := by
  refine strictMono_nat_of_lt_succ fun m => ?_
  obtain ⟨s, j, rfl, hlow, hhigh⟩ := exists_run m
  rw [unitsOf_run hlow (by omega), Nat.add_assoc,
    unitsOf_run (hlow.imp_right (by omega)) (by omega)]
  exact Nat.mul_lt_mul_of_pos_right (Nat.lt_succ_self j) (Nat.two_pow_pos s)

/-! ## The nearest magnitude -/

/-- How far the value of the magnitude lies from `n / d` units, in `d`-th parts of a unit. -/
def distance (n d m : Nat) : Nat := Nat.dist (unitsOf m * d) n

/-- The magnitude is the one that `n / d` units round to: no value is nearer, and of two that are
equally near it is the even one. -/
def IsNearest (n d m : Nat) : Prop :=
  ∀ k, distance n d m ≤ distance n d k ∧
    (k ≠ m → distance n d k = distance n d m → m % 2 = 0)

/-- The shift of the reading leaves a quotient of its run. -/
theorem exists_shift (q : Nat) :
    ∃ s, (if q < 2 * run then 0 else q.log2 - 52) = s ∧ (s = 0 ∨ run ≤ q / Nat.pow 2 s) ∧
      q / Nat.pow 2 s < 2 * run := by
  refine ⟨_, rfl, ?_⟩
  split
  · exact ⟨.inl rfl, Nat.lt_of_le_of_lt (Nat.div_le_self _ _) ‹_›⟩
  · rename_i hge
    have hrun : run = 2 ^ 52 := by decide
    have hne : q ≠ 0 := by omega
    have hlog : 52 ≤ q.log2 := (Nat.le_log2 hne).mpr (by omega)
    have hpos : 0 < 2 ^ (q.log2 - 52) := Nat.two_pow_pos _
    refine ⟨.inr ((Nat.le_div_iff_mul_le hpos).mpr ?_), (Nat.div_lt_iff_lt_mul hpos).mpr ?_⟩
    · calc run * 2 ^ (q.log2 - 52) = 2 ^ q.log2 := by
            rw [hrun, ← Nat.pow_add, Nat.add_sub_cancel' hlog]
        _ ≤ q := Nat.log2_self_le hne
    · calc q < 2 ^ (q.log2 + 1) := Nat.lt_log2_self
        _ = 2 ^ 53 * 2 ^ (q.log2 - 52) := by
            rw [← Nat.pow_add, show 53 + (q.log2 - 52) = q.log2 + 1 by omega]
        _ = 2 * run * 2 ^ (q.log2 - 52) := by rw [hrun, Nat.pow_succ, Nat.mul_comm 2]

/-- The two neighbours of a fraction: magnitudes in a row, of which the reading takes one. -/
theorem nearest_neighbours (n d : Nat) :
    ∃ s j, unitsOf (s * run + j) = j * Nat.pow 2 s ∧
      unitsOf (s * run + j + 1) = (j + 1) * Nat.pow 2 s ∧
      j = n / (d * Nat.pow 2 s) ∧
      nearest n d = s * run + roundHalfEven n (d * Nat.pow 2 s) := by
  obtain ⟨s, hs, hlow, hhigh⟩ := exists_shift (n / d)
  rw [Nat.div_div_eq_div_mul] at hlow hhigh
  refine ⟨s, _, unitsOf_run hlow hhigh.le, ?_, rfl, ?_⟩
  · rw [Nat.add_assoc]
    exact unitsOf_run (hlow.imp_right (by omega)) (by omega)
  · rw [nearest]
    simp only [hs]

/-- Reading a fraction rounds it correctly. -/
theorem isNearest_nearest (n : Nat) {d : Nat} (hd : 0 < d) : IsNearest n d (nearest n d) := by
  obtain ⟨s, j, hbelow, habove, hj, hnearest⟩ := nearest_neighbours n d
  have hD : 0 < d * Nat.pow 2 s := Nat.mul_pos hd (Nat.two_pow_pos s)
  have hsplit := Nat.div_add_mod n (d * Nat.pow 2 s)
  have hrest : n % (d * Nat.pow 2 s) < d * Nat.pow 2 s := Nat.mod_lt n hD
  have heven : ∀ r, (s * run + r) % 2 = r % 2 := fun r => by
    have : s * run = 2 * (s * (run / 2)) := by
      rw [Nat.mul_left_comm]
      rfl
    omega
  have hvalue : ∀ i, i * Nat.pow 2 s * d = d * Nat.pow 2 s * i := fun i => by
    rw [Nat.mul_assoc, Nat.mul_comm i, Nat.mul_comm d]
  have hlower := congrArg (· * d) hbelow
  have hupper := congrArg (· * d) habove
  simp only [hvalue, Nat.mul_succ] at hlower hupper
  rw [← hj] at hsplit
  -- every other value lies beyond one of the two neighbours
  have hother : ∀ k, k ≠ s * run + j → k ≠ s * run + j + 1 →
      unitsOf k * d < unitsOf (s * run + j) * d ∨
        unitsOf (s * run + j + 1) * d < unitsOf k * d := fun k h₀ h₁ => by
    rcases Nat.lt_or_ge k (s * run + j) with hk | hk
    · exact .inl (Nat.mul_lt_mul_of_pos_right (unitsOf_strictMono hk) hd)
    · exact .inr (Nat.mul_lt_mul_of_pos_right (unitsOf_strictMono (by omega)) hd)
  have hchoice := roundHalfEven_cases n (d * Nat.pow 2 s)
  rw [← hj] at hchoice
  have hparity := heven (roundHalfEven n (d * Nat.pow 2 s))
  rw [← hnearest] at hparity
  intro k
  have hk := hother k
  unfold distance Nat.dist
  rcases hchoice with ⟨hr, hchoice⟩ | ⟨hr, hchoice⟩
  · rw [hr] at hnearest
    rw [hnearest] at hparity ⊢
    by_cases h₀ : k = s * run + j
    · subst h₀
      exact ⟨le_refl _, fun h => absurd rfl h⟩
    · by_cases h₁ : k = s * run + j + 1
      · subst h₁
        omega
      · have := hk h₀ h₁
        omega
  · rw [hr, ← Nat.add_assoc] at hnearest
    rw [hnearest] at hparity ⊢
    by_cases h₁ : k = s * run + j + 1
    · subst h₁
      exact ⟨le_refl _, fun h => absurd rfl h⟩
    · by_cases h₀ : k = s * run + j
      · subst h₀
        omega
      · have := hk h₀ h₁
        omega

/-- One magnitude at most is the nearest. Between two that are equally near and even stands one that
is nearer. -/
theorem IsNearest.unique {n d m k : Nat} (hd : 0 < d) (hm : IsNearest n d m)
    (hk : IsNearest n d k) : m = k := by
  have hbetween : ∀ {m k : Nat}, IsNearest n d m → IsNearest n d k → ¬m < k := by
    intro m k hm hk hlt
    have hequal : distance n d k = distance n d m :=
      Nat.le_antisymm (hk m).1 (hm k).1
    have hmeven := (hm k).2 (Nat.ne_of_gt hlt) hequal
    have hkeven := (hk m).2 (Nat.ne_of_lt hlt) hequal.symm
    have hnear := (hm (m + 1)).1
    have h₁ := Nat.mul_lt_mul_of_pos_right (unitsOf_strictMono (Nat.lt_add_one m)) hd
    have h₂ := Nat.mul_lt_mul_of_pos_right
      (unitsOf_strictMono (show m + 1 < k by omega)) hd
    unfold distance Nat.dist at hequal hnear
    omega
  exact Nat.le_antisymm (Nat.le_of_not_lt (hbetween hk hm)) (Nat.le_of_not_lt (hbetween hm hk))

/-- The decimal `digits / 10 ^ places` rounds to the double, which is finite. -/
structure RoundedFrom (x : Binary64) (digits places : Nat) : Prop where
  nonnegative : x.negative = false
  finite : x.isFinite = true
  nearest : IsNearest (digits * one) (Nat.pow 10 places) x.magnitude

/-- A decimal reads as the finite double it rounds to. -/
theorem ofDecimal?_eq_some_iff {digits places : Nat} {x : Binary64} :
    ofDecimal? digits places = some x ↔ x.RoundedFrom digits places := by
  have hd : 0 < Nat.pow 10 places := Nat.pow_pos (by decide)
  have hnearest := isNearest_nearest (digits * one) hd
  unfold ofDecimal? ofDecimal
  extract_lets m
  constructor
  · intro h
    split at h
    · rename_i hm
      obtain rfl := Option.some.inj h
      exact ⟨rfl, decide_eq_true hm, hnearest⟩
    · cases h
  · rintro ⟨hsign, hfinite, hx⟩
    have hm : m = x.magnitude := hnearest.unique hd hx
    have hlt : m < infinity := hm ▸ of_decide_eq_true hfinite
    rw [dif_pos hlt, Option.some.injEq]
    obtain ⟨s, k, hk⟩ := x
    obtain rfl : m = k := hm
    obtain rfl : s = false := hsign
    rfl

end Binary64

end GlyphFormat
