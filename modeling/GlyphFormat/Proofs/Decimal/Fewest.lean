import GlyphFormat.Proofs.Decimal.ReadBack
import GlyphFormat.Proofs.Decimal.Rounding

/-!
# No decimal that reads back has fewer places

The search for the shortest decimal tries two points of each grid, the neighbours of the value. They
are enough: reading is monotone (`nearest_mono`), so if a point of the grid reads back, every point
between it and the value does, and one of the neighbours is such a point (`readsBack_neighbour`).
A grid that the search passes holds no decimal that reads back, hence the answer has the fewest
places of all (`shortest_le`). A zero in the last place could be left out, so it has none there
(`shortest_last`); and of the decimals with as many places none is nearer to the value
(`shortest_nearest`).
-/

namespace GlyphFormat

namespace Binary64

variable {coarse m n d k : Nat}

/-! ## Reading is monotone -/

/-- A larger fraction does not read as a smaller magnitude. -/
theorem nearest_mono {n' : Nat} (hd : 0 < d) (h : n ≤ n') : nearest n d ≤ nearest n' d := by
  refine Nat.le_of_not_lt fun hlt => ?_
  have hlower := (isNearest_nearest n hd (nearest n' d)).1
  have hupper := (isNearest_nearest n' hd (nearest n d)).1
  have hvalues := Nat.mul_lt_mul_of_pos_right (unitsOf_strictMono hlt) hd
  -- `n` is not below the middle of the two values and `n'` is not above it
  obtain rfl : n = n' := by
    unfold distance Nat.dist at hlower hupper
    omega
  exact Nat.lt_irrefl _ hlt

theorem distance_mul (n d m c : Nat) : distance (n * c) (d * c) m = distance n d m * c := by
  rw [distance, distance, ← Nat.mul_assoc, Nat.dist_mul_right]

/-- Only the value of a fraction counts. -/
theorem nearest_mul {c : Nat} (n : Nat) (hd : 0 < d) (hc : 0 < c) :
    nearest (n * c) (d * c) = nearest n d := by
  have hdc : 0 < d * c := Nat.mul_pos hd hc
  have hreduced : IsNearest (n * c) (d * c) (nearest n d) := fun k => by
    obtain ⟨hle, heven⟩ := isNearest_nearest n hd k
    rw [distance_mul, distance_mul]
    exact ⟨Nat.mul_le_mul_right c hle, fun hne heq => heven hne (Nat.eq_of_mul_eq_mul_right hc heq)⟩
  exact (isNearest_nearest (n * c) hdc).unique hdc hreduced

theorem ofDecimal_mul_ten (digits places : Nat) :
    ofDecimal (digits * 10) (places + 1) = ofDecimal digits places := by
  have hpow : Nat.pow 10 (places + 1) = Nat.pow 10 places * 10 := Nat.pow_succ 10 places
  rw [ofDecimal, ofDecimal, hpow, Nat.mul_right_comm]
  exact nearest_mul _ (Nat.pow_pos (by decide)) (by decide)

/-! ## The neighbours of a value -/

/-- The value of a magnitude in parts of the `k`-th grid's denominator. -/
def scaled (m k : Nat) : Nat := unitsOf m * Nat.pow 10 k

/-- The distance of two points in a row on a grid, in the same parts. -/
def unit (coarse : Nat) : Nat := one * Nat.pow 10 coarse

theorem unit_pos (coarse : Nat) : 0 < unit coarse := by
  have hone : 0 < one := by decide +kernel
  exact Nat.mul_pos hone (Nat.pow_pos (by decide))

theorem readsBack_iff :
    readsBack coarse m d k = true ↔ nearest (d * unit coarse) (Nat.pow 10 k) = m := by
  rw [readsBack, decide_eq_true_iff, unit, Nat.mul_assoc]

theorem readsBack_zero_iff : readsBack 0 m d k = true ↔ ofDecimal d k = m := by
  rw [readsBack_iff, ofDecimal, unit, show Nat.pow 10 0 = 1 from rfl, Nat.mul_one]

theorem scaled_between (coarse m k : Nat) :
    scaled m k / unit coarse * unit coarse ≤ scaled m k ∧
      scaled m k < (scaled m k / unit coarse + 1) * unit coarse := by
  rw [Nat.mul_comm (_ + 1)]
  exact ⟨Nat.div_mul_le_self _ _, Nat.lt_mul_div_succ _ (unit_pos coarse)⟩

/-- The two points that the search tries are the last one up to the value and the next one. -/
theorem near_far (coarse m k : Nat) :
    near coarse m k = scaled m k / unit coarse ∧ far coarse m k = scaled m k / unit coarse + 1 ∨
      near coarse m k = scaled m k / unit coarse + 1 ∧
        far coarse m k = scaled m k / unit coarse := by
  have hfar : far coarse m k = if near coarse m k = scaled m k / unit coarse
      then near coarse m k + 1 else near coarse m k - 1 := rfl
  rcases roundHalfEven_cases (scaled m k) (unit coarse) with ⟨hnear, -⟩ | ⟨hnear, -⟩
  · replace hnear : near coarse m k = scaled m k / unit coarse := hnear
    rw [if_pos hnear, hnear] at hfar
    exact .inl ⟨hnear, hfar⟩
  · replace hnear : near coarse m k = scaled m k / unit coarse + 1 := hnear
    rw [if_neg (by omega), hnear] at hfar
    exact .inr ⟨hnear, hfar⟩

/-- Whatever lies between the value and a point that reads back reads back. -/
theorem readsBack_between {e : Nat} (h : readsBack coarse m d k = true)
    (hbetween : d ≤ e ∧ e * unit coarse ≤ scaled m k ∨ scaled m k ≤ e * unit coarse ∧ e ≤ d) :
    readsBack coarse m e k = true := by
  have hpow : 0 < Nat.pow 10 k := Nat.pow_pos (by decide)
  have hvalue : nearest (scaled m k) (Nat.pow 10 k) = m := nearest_unitsOf m hpow
  rw [readsBack_iff] at h ⊢
  rcases hbetween with ⟨hde, hev⟩ | ⟨hve, hed⟩
  · have hlower := nearest_mono hpow (Nat.mul_le_mul_right (unit coarse) hde)
    have hupper := nearest_mono hpow hev
    omega
  · have hlower := nearest_mono hpow hve
    have hupper := nearest_mono hpow (Nat.mul_le_mul_right (unit coarse) hed)
    omega

/-- No point of the grid is nearer to the value than the one that is tried first. -/
theorem near_nearest (coarse m k d : Nat) :
    Nat.dist (near coarse m k * unit coarse) (scaled m k) ≤
      Nat.dist (d * unit coarse) (scaled m k) := by
  have hsplit := Nat.div_add_mod' (scaled m k) (unit coarse)
  have hchoice := roundHalfEven_cases (scaled m k) (unit coarse)
  obtain ⟨q, hq⟩ : ∃ q, scaled m k / unit coarse = q := ⟨_, rfl⟩
  rw [show near coarse m k = roundHalfEven (scaled m k) (unit coarse) from rfl]
  rw [hq] at hsplit hchoice
  have hrest := Nat.mod_lt (scaled m k) (unit_pos coarse)
  have hnext : (q + 1) * unit coarse = q * unit coarse + unit coarse := Nat.succ_mul q _
  -- `d` lies beyond one of the two neighbours
  have hside : d * unit coarse ≤ q * unit coarse ∨ (q + 1) * unit coarse ≤ d * unit coarse := by
    rcases Nat.lt_or_ge q d with hd | hd
    · exact .inr (Nat.mul_le_mul_right _ hd)
    · exact .inl (Nat.mul_le_mul_right _ hd)
  unfold Nat.dist
  rcases hchoice with ⟨hr, hhalf⟩ | ⟨hr, hhalf⟩
  · rw [hr]
    omega
  · rw [hr, hnext]
    omega

/-- Where that one does not read back, no point that does is nearer than the other neighbour. -/
theorem far_nearest (h : readsBack coarse m d k = true)
    (hnear : readsBack coarse m (near coarse m k) k = false) :
    Nat.dist (far coarse m k * unit coarse) (scaled m k) ≤
      Nat.dist (d * unit coarse) (scaled m k) := by
  obtain ⟨hbelow, habove⟩ := scaled_between coarse m k
  have hpoints := near_far coarse m k
  obtain ⟨q, hq⟩ : ∃ q, scaled m k / unit coarse = q := ⟨_, rfl⟩
  rw [hq] at hbelow habove hpoints
  have hmono {a b : Nat} (hab : a ≤ b) : a * unit coarse ≤ b * unit coarse :=
    Nat.mul_le_mul_right _ hab
  unfold Nat.dist
  rcases hpoints with ⟨hfirst, hother⟩ | ⟨hfirst, hother⟩
  · rw [hfirst] at hnear
    rw [hother]
    rcases Nat.lt_or_ge q d with hd | hd
    · have := hmono (show q + 1 ≤ d from hd)
      omega
    · rw [readsBack_between h (.inl ⟨hd, hbelow⟩)] at hnear
      cases hnear
  · rw [hfirst] at hnear
    rw [hother]
    rcases Nat.lt_or_ge q d with hd | hd
    · rw [readsBack_between h (.inr ⟨habove.le, hd⟩)] at hnear
      cases hnear
    · have := hmono hd
      omega

/-- If a point of the grid reads back, so does one of the two that are tried. -/
theorem readsBack_neighbour (h : readsBack coarse m d k = true) :
    readsBack coarse m (near coarse m k) k = true ∨
      readsBack coarse m (far coarse m k) k = true := by
  obtain ⟨hbelow, habove⟩ := scaled_between coarse m k
  obtain ⟨q, hq⟩ : ∃ q, scaled m k / unit coarse = q := ⟨_, rfl⟩
  rw [hq] at hbelow habove
  have hside : readsBack coarse m q k = true ∨ readsBack coarse m (q + 1) k = true := by
    rcases Nat.lt_or_ge q d with hd | hd
    · exact .inr (readsBack_between h (.inr ⟨habove.le, hd⟩))
    · exact .inl (readsBack_between h (.inl ⟨hd, hbelow⟩))
  rcases near_far coarse m k with ⟨hnear, hfar⟩ | ⟨hnear, hfar⟩
  · rwa [hnear, hfar, hq]
  · rw [hnear, hfar, hq]
    exact hside.symm

/-! ## The first grid -/

/-- No decimal with fewer places reads as the magnitude. -/
theorem shortest_le (h : ofDecimal d k = m) : (shortest m).2 ≤ k := by
  refine Nat.le_of_not_lt fun hlt => ?_
  obtain ⟨j, -, hpassed, hanswer⟩ := shortestFrom_spec 0 m 1074 0
  have hj : (shortest m).2 = j :=
    hanswer.elim (fun h => congrArg Prod.snd h.1) fun h => congrArg Prod.snd h.1
  obtain ⟨hnear, hfar⟩ := hpassed k (Nat.zero_le k) (hj ▸ hlt)
  exact (readsBack_neighbour (readsBack_zero_iff.mpr h)).elim hnear hfar

/-- The last place of a shortest decimal is not zero. -/
theorem shortest_last (h : 0 < (shortest m).2) : (shortest m).1 % 10 ≠ 0 := by
  intro hzero
  obtain ⟨k, hk⟩ : ∃ k, (shortest m).2 = k + 1 := ⟨(shortest m).2 - 1, by omega⟩
  have hreads := ofDecimal_shortest m
  rw [← Nat.div_mul_cancel (Nat.dvd_of_mod_eq_zero hzero), hk, ofDecimal_mul_ten] at hreads
  have := shortest_le hreads
  omega

/-- A decimal with as many places that reads as the magnitude is not nearer to its value. -/
theorem shortest_nearest (h : ofDecimal d (shortest m).2 = m) :
    Nat.dist ((shortest m).1 * unit 0) (scaled m (shortest m).2) ≤
      Nat.dist (d * unit 0) (scaled m (shortest m).2) := by
  obtain ⟨j, -, -, ⟨hnear, -⟩ | ⟨hfar, hnear, -⟩⟩ := shortestFrom_spec 0 m 1074 0
  · rw [show shortest m = (near 0 m j, j) from hnear]
    dsimp only
    exact near_nearest 0 m j d
  · rw [show shortest m = (far 0 m j, j) from hfar] at h ⊢
    dsimp only at h ⊢
    exact far_nearest (readsBack_zero_iff.mpr h) (Bool.eq_false_iff.mpr hnear)

/-- A whole value is written out, however large it is. -/
theorem shortest_of_whole (h : unitsOf m = n * one) : shortest m = (n, 0) := by
  have hreads : ofDecimal n 0 = m := by
    have hvalue := nearest_unitsOf m Nat.one_pos
    rw [Nat.mul_one, h] at hvalue
    rwa [ofDecimal, show Nat.pow 10 0 = 1 from rfl]
  have hplaces : (shortest m).2 = 0 := Nat.le_zero.mp (shortest_le hreads)
  have hnearest := shortest_nearest (m := m) (d := n) (by rwa [hplaces])
  have hscaled : scaled m 0 = n * unit 0 := by
    rw [scaled, unit, h, show Nat.pow 10 0 = 1 from rfl, Nat.mul_one, Nat.mul_one]
  rw [hplaces, hscaled, Nat.dist_self, Nat.le_zero] at hnearest
  have hdigits : (shortest m).1 = n :=
    Nat.eq_of_mul_eq_mul_right (unit_pos 0) (Nat.eq_of_dist_eq_zero hnearest)
  exact Prod.ext hdigits hplaces

end Binary64

end GlyphFormat
