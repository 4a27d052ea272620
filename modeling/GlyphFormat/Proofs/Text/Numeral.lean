import GlyphFormat.Proofs.Text.Classes
import GlyphFormat.Text.HexNumeral
import GlyphFormat.Token.Literal

/-!
# Numerals read back

A numeral is made of the digits of a number and denotes it again: in base ten as the digits of a
number literal, in base sixteen as the inside of an escape by number.
-/

namespace GlyphFormat

namespace Text

/-! ## Digits in any base -/

theorem digits_ne_nil (b n : Nat) : digits b n ≠ [] := by
  unfold digits
  split <;> simp

/-- Only the numeral of zero begins with a zero. -/
theorem exists_digits_cons {b n : Nat} (hn : n ≠ 0) : ∃ d ds, digits b n = d :: ds ∧ d ≠ 0 := by
  fun_induction digits b n with
  | case1 n hbase => exact ⟨n, [], rfl, hn⟩
  | case2 n hbase ih =>
      have hquot : n / b ≠ 0 := Nat.div_ne_zero_iff.mpr (by omega)
      obtain ⟨d, ds, hds, hd⟩ := ih hquot
      exact ⟨d, ds ++ [n % b], by rw [hds, List.cons_append], hd⟩

theorem exists_digits_concat {b : Nat} (hb : 2 ≤ b) (n : Nat) :
    ∃ ds, digits b n = ds ++ [n % b] := by
  unfold digits
  split
  · exact ⟨[], by rw [Nat.mod_eq_of_lt (by omega), List.nil_append]⟩
  · exact ⟨_, rfl⟩

theorem foldl_value (b : Nat) (ds : List Nat) (n : Nat) :
    ds.foldl (fun n d => n * b + d) n = n * Nat.pow b ds.length + value b ds := by
  induction ds generalizing n with
  | nil => simp [value]
  | cons d ds ih =>
      have hpow : Nat.pow b (ds.length + 1) = b * Nat.pow b ds.length := Nat.pow_succ'
      have hcons : value b (d :: ds) = (0 * b + d) * Nat.pow b ds.length + value b ds :=
        ih (0 * b + d)
      rw [List.foldl_cons, ih, List.length_cons, hpow, hcons]
      rw [Nat.zero_mul, Nat.zero_add, Nat.add_mul, Nat.mul_assoc, Nat.add_assoc]

/-- Digits in front count in units of the place where the others begin. -/
theorem value_join (b : Nat) (ds es : List Nat) :
    value b (ds ++ es) = value b ds * Nat.pow b es.length + value b es := by
  rw [value, List.foldl_append, foldl_value]
  rfl

theorem value_replicate_zero (b k : Nat) : value b (List.replicate k 0) = 0 := by
  induction k with
  | zero => rfl
  | succ k ih =>
      rw [List.replicate_succ', value_append, ih, Nat.zero_mul]

/-- A number below `b ^ k` has at most `k` digits. -/
theorem length_digits_le {b : Nat} (hb : 2 ≤ b) :
    ∀ {k n : Nat}, 0 < k → n < Nat.pow b k → (digits b n).length ≤ k
  | k + 1, n, _, hn => by
      unfold digits
      split
      · simp
      · rename_i hbase
        have hbn : b ≤ n := by omega
        have hk : 0 < k := by
          refine Nat.pos_of_ne_zero fun hk => ?_
          subst hk
          have : Nat.pow b (0 + 1) = b := Nat.pow_one b
          omega
        have hdiv : n / b < Nat.pow b k := by
          refine Nat.div_lt_of_lt_mul ?_
          rw [Nat.mul_comm]
          exact hn
        have := length_digits_le hb hk hdiv
        simp only [List.length_append, List.length_singleton]
        omega

end Text

namespace CodePoint

theorem val_getD_ofNat? {n : Nat} (h : n < 0x110000) : ((ofNat? n).getD default).val = n := by
  simp [ofNat?, h]

theorem val_digit {d : Nat} (h : d < 36) :
    (digit d).val = if d < 10 then 0x30 + d else 0x57 + d := by
  unfold digit
  split <;> exact val_getD_ofNat? (by omega)

theorem isDigit_digit {d : Nat} (h : d < 10) : (digit d).isDigit = true := by
  rw [isDigit_iff, val_digit (by omega), if_pos h]
  omega

end CodePoint

/-! ## Base ten -/

namespace Text

theorem isDigit_of_mem_ofNat {n : Nat} {c : CodePoint} (h : c ∈ ofNat n) : c.isDigit = true := by
  obtain ⟨d, hd, rfl⟩ := List.mem_map.mp h
  exact CodePoint.isDigit_digit (lt_of_mem_digits (by decide) hd)

/-- A digit that does not stand for zero is not written as one. -/
theorem digit_ne_zero {d : Nat} (hd : d < 10) (hne : d ≠ 0) :
    CodePoint.digit d ≠ CodePoint.ofChar '0' := fun h => by
  have hval := CodePoint.val_digit (d := d) (by omega)
  rw [if_pos hd, h, show (CodePoint.ofChar '0').val = 0x30 from rfl] at hval
  omega

theorem ofNat_ne_nil (n : Nat) : ofNat n ≠ [] := fun h =>
  digits_ne_nil 10 n (List.map_eq_nil_iff.mp h)

theorem length_ofNat_le {k n : Nat} (hk : 0 < k) (h : n < Nat.pow 10 k) :
    (ofNat n).length ≤ k := by
  rw [ofNat, numeral, List.length_map]
  exact length_digits_le (by decide) hk h

end Text

namespace Lexeme

theorem digitsValue_append (s t : Text) :
    digitsValue (s ++ t) = digitsValue s * Nat.pow 10 t.length + digitsValue t := by
  simp only [digitsValue, List.map_append, Text.value_join, List.length_map]

theorem digitsValue_ofNat (n : Nat) : digitsValue (Text.ofNat n) = n := by
  have hmap : (Text.ofNat n).map (fun c => c.val - 0x30) = Text.digits 10 n := by
    rw [Text.ofNat, Text.numeral, List.map_map, List.map_congr_left fun d hd => ?_, List.map_id]
    have h10 := Text.lt_of_mem_digits (by decide) hd
    rw [Function.comp_apply, CodePoint.val_digit (by omega), if_pos h10, id_eq]
    omega
  rw [digitsValue, hmap, Text.value_digits]

theorem digitsValue_zeros (k : Nat) :
    digitsValue (List.replicate k (CodePoint.digit 0)) = 0 := by
  have hzero : (CodePoint.digit 0).val - 0x30 = 0 := by decide
  rw [digitsValue, List.map_replicate, hzero, Text.value_replicate_zero]

end Lexeme

/-! ## Base sixteen -/

namespace HexNumeral

/-- A digit of the numerals that are written: one of `0` to `9` and `a` to `f`. -/
def IsPlain (c : CodePoint) : Prop := ∃ d < 16, c = CodePoint.digit d

theorem isPlain_of_mem_numeral {n : Nat} {c : CodePoint} (h : c ∈ Text.numeral 16 n) :
    IsPlain c := by
  obtain ⟨d, hd, rfl⟩ := List.mem_map.mp h
  exact ⟨d, Text.lt_of_mem_digits (by decide) hd, rfl⟩

theorem digitValue?_digit {d : Nat} (h : d < 16) : digitValue? (CodePoint.digit d) = some d := by
  have all : ∀ d < 16, digitValue? (CodePoint.digit d) = some d := by decide +kernel
  exact all d h

/-- What sets a numeral's end, base or sign is no plain digit. -/
theorem IsPlain.apart {c : CodePoint} (h : IsPlain c) :
    isMargin c = false ∧ c ≠ '-' ∧ c ≠ '+' ∧ c ≠ 'x' ∧ c ≠ 'X' ∧ c ≠ '_' ∧
      Escape.isInside c = true := by
  have all : ∀ d < 16, isMargin (CodePoint.digit d) = false ∧ CodePoint.digit d ≠ '-' ∧
      CodePoint.digit d ≠ '+' ∧ CodePoint.digit d ≠ 'x' ∧ CodePoint.digit d ≠ 'X' ∧
      CodePoint.digit d ≠ '_' ∧ Escape.isInside (CodePoint.digit d) = true := by decide +kernel
  obtain ⟨d, hd, rfl⟩ := h
  exact all d hd

theorem digitValues?_map : ∀ {ds : List Nat}, ds ≠ [] → (∀ d ∈ ds, d < 16) →
    digitValues? (ds.map CodePoint.digit) = some ds
  | [d], _, h => by
      rw [List.map_singleton, digitValues?, digitValue?_digit (h d (by simp))]
      rfl
  | d :: e :: ds, _, h => by
      have he : CodePoint.digit e ≠ '_' :=
        (IsPlain.apart ⟨e, h e (by simp), rfl⟩).2.2.2.2.2.1
      have ih : digitValues? ((e :: ds).map CodePoint.digit) = some (e :: ds) :=
        digitValues?_map (by simp) (fun k hk => h k (List.mem_cons_of_mem _ hk))
      rw [List.map_cons] at ih
      simp only [List.map_cons, digitValues?, digitValue?_digit (h d (by simp)), if_neg he, ih,
        Option.map_some]

theorem dropBase_of_isPlain {t : Text} (h : ∀ c ∈ t, IsPlain c) : dropBase t = t := by
  unfold dropBase
  split
  · rename_i z x rest
    have hx := (h x (by simp)).apart
    rw [if_neg fun hb => hb.2.elim hx.2.2.2.1 hx.2.2.2.2.1]
  · rfl

theorem dropWhile_isMargin {t : Text} (h : ∀ c ∈ t, IsPlain c) : t.dropWhile isMargin = t := by
  cases t with
  | nil => rfl
  | cons c t => rw [List.dropWhile_cons_of_neg (by simp [(h c (by simp)).apart.1])]

/-- The numeral of a number in base sixteen denotes it. -/
theorem value?_numeral (n : Nat) : value? (Text.numeral 16 n) = some (n : Int) := by
  have hplain : ∀ c ∈ Text.numeral 16 n, IsPlain c := fun c hc => isPlain_of_mem_numeral hc
  have hcore : Text.dropRightWhile isMargin ((Text.numeral 16 n).dropWhile isMargin) =
      Text.numeral 16 n := by
    rw [dropWhile_isMargin hplain, Text.dropRightWhile, dropWhile_isMargin, List.reverse_reverse]
    exact fun c hc => hplain c (List.mem_reverse.mp hc)
  have hvalue : digitValues? (dropBase (Text.numeral 16 n)) = some (Text.digits 16 n) := by
    rw [dropBase_of_isPlain hplain]
    exact digitValues?_map (Text.digits_ne_nil 16 n)
      (fun d hd => Text.lt_of_mem_digits (by decide) hd)
  unfold value?
  simp only [hcore]
  cases hn : Text.numeral 16 n with
  | nil => exact absurd (List.map_eq_nil_iff.mp hn) (Text.digits_ne_nil 16 n)
  | cons c rest =>
      have hc := (hplain c (by simp [hn])).apart
      simp only [if_neg hc.2.1, if_neg hc.2.2.1]
      rw [← hn, hvalue, Option.map_some, Text.value_digits]

theorem codePoint?_numeral (c : CodePoint) : codePoint? (Text.numeral 16 c.val) = some c := by
  unfold codePoint?
  rw [value?_numeral]
  exact CodePoint.ofNat?_eq_some_iff.mpr rfl

end HexNumeral

end GlyphFormat
