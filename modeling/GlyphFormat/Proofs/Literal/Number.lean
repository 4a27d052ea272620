import GlyphFormat.Proofs.Decimal.ReadBack
import GlyphFormat.Proofs.Text.Numeral

/-!
# Number literals read back

The canonical text of a finite number without a sign, in front of anything that does not continue
it, is read as that number (`scanNumber_format`). The text is a positional decimal, whose digits and
places the scan takes apart again; what decimal it is was settled with the shortest one.
-/

namespace GlyphFormat

namespace Lexeme

variable {rest : Text}

/-- No digit comes next. -/
def EndsDigits (rest : Text) : Prop := ∀ c ∈ rest.head?, c.isDigit = false

/-- Neither a digit nor a point comes next. -/
def EndsNumber (rest : Text) : Prop := ∀ c ∈ rest.head?, c.isDigit = false ∧ c ≠ '.'

theorem EndsNumber.endsDigits (h : EndsNumber rest) : EndsDigits rest := fun c hc => (h c hc).1

theorem EndsNumber.fraction (h : EndsNumber rest) : fraction rest = [] := by
  unfold Lexeme.fraction
  split
  · rename_i c d r
    rw [if_neg fun hc => (h c rfl).2 hc.1]
  · rfl

theorem fraction_point {ds : Text} (hne : ds ≠ []) (hds : ∀ c ∈ ds, c.isDigit = true)
    (h : EndsDigits rest) : fraction (CodePoint.ofChar '.' :: ds ++ rest) = ds := by
  cases ds with
  | nil => exact absurd rfl hne
  | cons d ds =>
      have hrun : (d :: ds ++ rest).takeWhile CodePoint.isDigit = d :: ds :=
        Text.takeWhile_run hds h
      show (if CodePoint.ofChar '.' = '.' ∧ d.isDigit = true then
        (d :: (ds ++ rest)).takeWhile CodePoint.isDigit else []) = d :: ds
      rw [if_pos ⟨rfl, hds d (by simp)⟩]
      exact hrun

/-- A number without a fraction. -/
theorem scanNumber_whole {ds : Text} {x : Binary64} (hne : ds ≠ [])
    (hds : ∀ c ∈ ds, c.isDigit = true) (h : EndsDigits rest) (hfrac : fraction rest = [])
    (hx : Binary64.ofDecimal? (digitsValue ds) 0 = some x) :
    scanNumber (ds ++ rest) = .found ds.length (.number x) := by
  have hrun : (ds ++ rest).takeWhile CodePoint.isDigit = ds := Text.takeWhile_run hds h
  have hlen : ds.length ≠ 0 := fun h0 => hne (List.eq_nil_of_length_eq_zero h0)
  unfold scanNumber
  simp only [hrun, List.drop_left, hfrac, if_true, if_neg hlen, List.append_nil,
    List.length_nil, hx]

/-- A number with a fraction. -/
theorem scanNumber_fraction {ds es : Text} {x : Binary64} (hds : ∀ c ∈ ds, c.isDigit = true)
    (hne : es ≠ []) (hes : ∀ c ∈ es, c.isDigit = true) (h : EndsDigits rest)
    (hx : Binary64.ofDecimal? (digitsValue (ds ++ es)) es.length = some x) :
    scanNumber (ds ++ CodePoint.ofChar '.' :: es ++ rest) =
      .found (ds ++ CodePoint.ofChar '.' :: es).length (.number x) := by
  have hrun : (ds ++ CodePoint.ofChar '.' :: es ++ rest).takeWhile CodePoint.isDigit = ds := by
    rw [List.append_assoc]
    refine Text.takeWhile_run hds fun c hc => ?_
    obtain rfl : CodePoint.ofChar '.' = c := by simpa using hc
    decide
  have hfrac : fraction ((ds ++ CodePoint.ofChar '.' :: es ++ rest).drop ds.length) = es := by
    rw [List.append_assoc, List.drop_left]
    exact fraction_point hne hes h
  have hlen : ds.length + 1 + es.length ≠ 0 := by omega
  have htotal : (ds ++ CodePoint.ofChar '.' :: es).length = ds.length + 1 + es.length := by
    simp only [List.length_append, List.length_cons]
    omega
  unfold scanNumber
  simp only [hrun, hfrac, if_neg hne, if_neg hlen, hx, htotal]

/-! ## Positional decimals -/

/-- The places of a decimal: the digits behind the point, with zeros in front. -/
def places (d k : Nat) : Text :=
  List.replicate (k - (Text.ofNat (d % Nat.pow 10 k)).length) (CodePoint.digit 0) ++
    Text.ofNat (d % Nat.pow 10 k)

theorem positional_zero (d : Nat) : positional d 0 = Text.ofNat d := rfl

theorem positional_pos {d k : Nat} (hk : 0 < k) :
    positional d k = Text.ofNat (d / Nat.pow 10 k) ++ CodePoint.ofChar '.' :: places d k := by
  unfold positional places
  rw [if_neg (by omega)]
  simp [Text.ofString]

theorem length_places {d k : Nat} (hk : 0 < k) : (places d k).length = k := by
  have hlt : d % Nat.pow 10 k < Nat.pow 10 k := Nat.mod_lt _ (Nat.pow_pos (by decide))
  have hle := Text.length_ofNat_le hk hlt
  simp only [places, List.length_append, List.length_replicate]
  omega

theorem isDigit_of_mem_places {d k : Nat} {c : CodePoint} (h : c ∈ places d k) :
    c.isDigit = true := by
  rcases List.mem_append.mp h with h | h
  · rw [(List.mem_replicate.mp h).2]
    decide
  · exact Text.isDigit_of_mem_ofNat h

theorem digitsValue_places {d k : Nat} : digitsValue (places d k) = d % Nat.pow 10 k := by
  rw [places, digitsValue_append, digitsValue_zeros, digitsValue_ofNat, Nat.zero_mul, Nat.zero_add]

/-- Reading a positional decimal gives what the decimal reads as. -/
theorem scanNumber_positional {d k : Nat} {x : Binary64} (h : EndsNumber rest)
    (hx : Binary64.ofDecimal? d k = some x) :
    scanNumber (positional d k ++ rest) = .found (positional d k).length (.number x) := by
  by_cases hk : k = 0
  · subst hk
    rw [positional_zero]
    refine scanNumber_whole (Text.ofNat_ne_nil d) (fun c => Text.isDigit_of_mem_ofNat)
      h.endsDigits h.fraction ?_
    rw [digitsValue_ofNat]
    exact hx
  · have hpos : 0 < k := Nat.pos_of_ne_zero hk
    rw [positional_pos hpos]
    have hne : places d k ≠ [] := fun hnil => by
      have hlen := length_places (d := d) hpos
      rw [hnil, List.length_nil] at hlen
      omega
    refine scanNumber_fraction (fun c => Text.isDigit_of_mem_ofNat) hne
      (fun c => isDigit_of_mem_places) h.endsDigits ?_
    rw [digitsValue_append, digitsValue_ofNat, digitsValue_places, length_places hpos,
      Nat.div_add_mod']
    exact hx

end Lexeme

namespace Binary64

/-- A number that a literal can denote: finite and without a sign. -/
def IsLiteral (x : Binary64) : Prop := x.isFinite = true ∧ x.negative = false

variable {x : Binary64}

theorem format_of_isLiteral (h : x.IsLiteral) :
    x.format = positional (shortest x.magnitude).1 (shortest x.magnitude).2 := by
  have hfin : x.magnitude < infinity := of_decide_eq_true h.1
  have hsign : (x.negative && decide (x.magnitude ≠ 0)) = false := by rw [h.2, Bool.false_and]
  obtain ⟨⟨d, k⟩, hp⟩ : ∃ p, shortest x.magnitude = p := ⟨_, rfl⟩
  rw [format, hp, if_pos hfin, hsign]
  rfl

theorem ofDecimal?_shortest (h : x.IsLiteral) :
    ofDecimal? (shortest x.magnitude).1 (shortest x.magnitude).2 = some x := by
  have hfin : x.magnitude < infinity := of_decide_eq_true h.1
  obtain ⟨s, m, hm⟩ := x
  obtain rfl : s = false := h.2
  unfold ofDecimal?
  simp only [ofDecimal_shortest, dif_pos hfin]

end Binary64

namespace Lexeme

theorem scanNumber_format {rest : Text} {x : Binary64} (hx : x.IsLiteral) (h : EndsNumber rest) :
    scanNumber (x.format ++ rest) = .found x.format.length (.number x) := by
  rw [Binary64.format_of_isLiteral hx]
  exact scanNumber_positional h (Binary64.ofDecimal?_shortest hx)

end Lexeme

end GlyphFormat
