import GlyphFormat.Proofs.Decimal.Fewest
import GlyphFormat.Proofs.Literal.Number

/-!
# The shape of a number's text

A number is written without a sign, an exponent or a needless zero: a whole part that begins with
zero only if it is zero, and a fraction only if it ends in another digit (`Text.IsNumeral`). The
whole part is a numeral. The last digit of the fraction is the last place of the shortest decimal,
which is not zero because a decimal with one place less would do.
-/

namespace GlyphFormat

namespace Text

/-- A whole number: zero, or digits of which the first is not zero. -/
inductive IsWhole : Text → Prop
  | zero : IsWhole "0"
  | digits {c : CodePoint} {ds : Text} (hc : c.isDigit = true) (hne : c ≠ '0')
      (hds : ∀ d ∈ ds, d.isDigit = true) : IsWhole (c :: ds)

/-- A whole number, or one with a fraction behind a point whose last digit is not zero. -/
inductive IsNumeral : Text → Prop
  | whole {s : Text} (hs : IsWhole s) : IsNumeral s
  | fraction {s ds : Text} {c : CodePoint} (hs : IsWhole s) (hds : ∀ d ∈ ds, d.isDigit = true)
      (hc : c.isDigit = true) (hne : c ≠ '0') :
      IsNumeral (s ++ CodePoint.ofChar '.' :: (ds ++ [c]))

theorem isWhole_ofNat (n : Nat) : (ofNat n).IsWhole := by
  by_cases hn : n = 0
  · subst hn
    rw [show ofNat 0 = "0" by decide +kernel]
    exact .zero
  · obtain ⟨d, ds, hds, hd⟩ := exists_digits_cons (b := 10) hn
    have hlt : ∀ e ∈ d :: ds, e < 10 := fun e he =>
      lt_of_mem_digits (n := n) (by decide) (by rw [hds]; exact he)
    have hten := hlt d (List.mem_cons_self ..)
    rw [ofNat, numeral, hds, List.map_cons]
    refine .digits (CodePoint.isDigit_digit hten) (digit_ne_zero hten hd) fun c hc => ?_
    obtain ⟨e, he, rfl⟩ := List.mem_map.mp hc
    exact CodePoint.isDigit_digit (hlt e (List.mem_cons_of_mem _ he))

end Text

/-- The last place is the last digit of the decimal. -/
theorem Lexeme.exists_places_concat {k : Nat} (d : Nat) (hk : 0 < k) :
    ∃ ds, places d k = ds ++ [CodePoint.digit (d % 10)] ∧ ∀ c ∈ ds, c.isDigit = true := by
  have hmod : d % Nat.pow 10 k % 10 = d % 10 := Nat.mod_mod_of_dvd d (dvd_pow_self 10 hk.ne')
  obtain ⟨es, hes⟩ := Text.exists_digits_concat (b := 10) (by decide) (d % Nat.pow 10 k)
  have hplaces : places d k = List.replicate (k - (Text.ofNat (d % Nat.pow 10 k)).length)
      (CodePoint.digit 0) ++ es.map CodePoint.digit ++ [CodePoint.digit (d % 10)] := by
    rw [places, List.append_assoc, ← hmod]
    congr 1
    rw [Text.ofNat, Text.numeral, hes, List.map_append]
    rfl
  refine ⟨_, hplaces, fun c hc => isDigit_of_mem_places (d := d) (k := k) ?_⟩
  rw [hplaces]
  exact List.mem_append_left _ hc

/-- A decimal without a needless place is written as a numeral. -/
theorem isNumeral_positional {d k : Nat} (hlast : 0 < k → d % 10 ≠ 0) :
    (positional d k).IsNumeral := by
  by_cases hk : k = 0
  · subst hk
    exact .whole (Text.isWhole_ofNat d)
  · have hpos : 0 < k := Nat.pos_of_ne_zero hk
    have hten : d % 10 < 10 := Nat.mod_lt d (by decide)
    obtain ⟨ds, hplaces, hds⟩ := Lexeme.exists_places_concat d hpos
    rw [Lexeme.positional_pos hpos, hplaces]
    exact .fraction (Text.isWhole_ofNat _) hds (CodePoint.isDigit_digit hten)
      (Text.digit_ne_zero hten (hlast hpos))

theorem Binary64.isNumeral_format {x : Binary64} (hx : x.IsLiteral) : x.format.IsNumeral := by
  rw [format_of_isLiteral hx]
  exact isNumeral_positional shortest_last

end GlyphFormat
