import MicroLisp.Proofs.Binary64.Precision
import MicroLisp.Proofs.Json.Number
import MicroLisp.Proofs.Json.Scale
import MicroLisp.Token.Json

/-!
# Doubles written and read back

The shortest digits of a double are at most seventeen, also with the zeros of the positional
form, and stand within the powers of ten that `scale?_apart` is about.  Reading them never leads
beyond the greatest double (`exists_reread`).
-/

namespace MicroLisp
open Json Number

namespace Binary64

variable {x : Binary64}

def jsonNumber (x : Binary64) : Number := .ofDecimal jsonStyle (x.shortest jsonStyle.tie)

theorem canonical_jsonNumber (h : x.isFinite = true) : x.jsonNumber.Canonical :=
  canonical_ofDecimal jsonStyle (exponent_shortest h)

theorem spelling_jsonNumber (x : Binary64) : x.jsonNumber.spelling = jsonStyle.write x := by
  have hplus : jsonStyle.plusSign = true := rfl
  exact spelling_ofDecimal hplus _

theorem decimal?_jsonText (h : x.isFinite = true) :
    Numeral.decimal? x.jsonText = some x.jsonNumber.decimal := by
  rw [jsonText, if_pos h, ← spelling_jsonNumber]
  exact decimal?_spelling (canonical_jsonNumber h)

theorem exists_zeros (h : x.isFinite = true) :
    ∃ zeros, x.jsonNumber.decimal = (x.shortest jsonStyle.tie).padded zeros ∧
      (zeros = 0 ∨ x.jsonNumber.decimal.exponent = -1 ∧
        Style.order (x.shortest jsonStyle.tie) ≤ jsonStyle.greatestPositional) := by
  have hplus : jsonStyle.plusSign = true := rfl
  obtain ⟨zeros, hdecimal, hcases⟩ := decimal_ofDecimal hplus (exponent_shortest h)
  rw [← hdecimal] at hcases
  exact ⟨zeros, hdecimal, hcases⟩

theorem ofDecimal_jsonNumber (h : x.isFinite = true) : ofDecimal x.jsonNumber.decimal = x := by
  obtain ⟨zeros, hdecimal, -⟩ := exists_zeros h
  rw [hdecimal, ofDecimal_padded, ofDecimal_shortest h]

theorem negative_jsonNumber (h : x.isFinite = true) :
    x.jsonNumber.negative = x.negative := by
  obtain ⟨zeros, hdecimal, -⟩ := exists_zeros h
  have hsign : x.jsonNumber.negative = ((x.shortest jsonStyle.tie).padded zeros).negative := by
    rw [← hdecimal, decimal]
  exact hsign.trans (shortest_bounds h jsonStyle.tie).1

/-- With the zeros that the positional form adds there are still no more than seventeen digits. -/
theorem digits_jsonNumber (h : x.isFinite = true) : x.jsonNumber.decimal.digits ≤ 10 ^ 17 := by
  obtain ⟨zeros, hdecimal, hcases⟩ := exists_zeros h
  obtain ⟨-, hdigits, -⟩ := shortest_bounds h jsonStyle.tie
  have hlt := lt_pow_digitCount (x.shortest jsonStyle.tie).digits
  rcases hcases with rfl | ⟨hexponent, horder⟩
  · rwa [hdecimal, Decimal.padded_zero]
  · rw [hdecimal] at hexponent
    have hlength : digitCount (x.shortest jsonStyle.tie).digits + zeros ≤ 17 := by
      have hgreatest : jsonStyle.greatestPositional = 15 := rfl
      simp only [Decimal.padded, Style.order, digitCount] at hexponent horder ⊢
      omega
    calc
      x.jsonNumber.decimal.digits = (x.shortest jsonStyle.tie).digits * 10 ^ zeros := by
        rw [hdecimal, Decimal.padded]
      _ ≤ 10 ^ digitCount (x.shortest jsonStyle.tie).digits * 10 ^ zeros :=
        Nat.mul_le_mul_right _ (Nat.le_of_lt hlt)
      _ = 10 ^ (digitCount (x.shortest jsonStyle.tie).digits + zeros) := (Nat.pow_add ..).symm
      _ ≤ 10 ^ 17 := Nat.pow_le_pow_right (by decide) hlength

theorem le_exponent_jsonNumber (h : x.isFinite = true) : -324 ≤ x.jsonNumber.decimal.exponent := by
  obtain ⟨zeros, hdecimal, hcases⟩ := exists_zeros h
  obtain ⟨-, -, hexponent⟩ := shortest_bounds h jsonStyle.tie
  rcases hcases with rfl | ⟨hlast, -⟩
  · rwa [hdecimal, Decimal.padded_zero]
  · omega

theorem exponent_jsonNumber_le (h : x.isFinite = true) : x.jsonNumber.decimal.exponent ≤ 308 := by
  by_cases hz : x.jsonNumber.decimal.digits = 0
  · obtain ⟨zeros, hdecimal, -⟩ := exists_zeros h
    have hdigits : (x.shortest jsonStyle.tie).digits = 0 := by
      rw [hdecimal, Decimal.padded] at hz
      exact (Nat.mul_eq_zero.mp hz).resolve_right (Nat.pos_iff_ne_zero.mp (Nat.pow_pos (by decide)))
    have hexponent := exponent_shortest h hdigits
    simp only [hdecimal, Decimal.padded, hexponent]
    omega
  · apply exponent_le_of_finite _ hz
    rwa [ofDecimal_jsonNumber h]

/-! ### The greatest double -/

def greatest (negative : Bool) : Binary64 := ⟨negative, infinityRank - 1, by decide⟩

theorem shortest_greatest (negative : Bool) :
    (greatest negative).shortest .toEven = ⟨negative, 17976931348623157, 292⟩ := by
  have hsearch : shortest? .toEven (greatest negative) = some ⟨negative, 17976931348623157, 292⟩ := by
    cases negative
    · decide +kernel
    · decide +kernel
  have hz : ¬ (greatest negative).isZero = true := by
    simp [isZero, greatest, infinityRank]
  have hlast : ¬ (17976931348623157 ≠ 0 ∧ 17976931348623157 % 10 = 0) := by decide
  rw [shortest, if_neg hz, hsearch, Option.getD_some, Decimal.trim, dif_neg hlast]

theorem ofDecimal_beyond (negative : Bool) :
    ofDecimal ⟨negative, 17976931348623158, 292⟩ = greatest negative := by
  cases negative
  · decide +kernel
  · decide +kernel

/-- A numeral above the greatest double that is rounded to it is never written. -/
theorem jsonNumber_ne_beyond (h : x.isFinite = true) (h292 : x.jsonNumber.decimal.exponent = 292) :
    x.jsonNumber.decimal.digits ≠ 17976931348623158 := by
  intro hdigits
  obtain ⟨zeros, hdecimal, hcases⟩ := exists_zeros h
  rcases hcases with rfl | ⟨hlast, -⟩
  · rw [Decimal.padded_zero] at hdecimal
    have hread := ofDecimal_jsonNumber h
    have hform : x.jsonNumber.decimal = ⟨x.jsonNumber.decimal.negative, 17976931348623158, 292⟩ := by
      rw [← hdigits, ← h292]
    rw [hform, ofDecimal_beyond] at hread
    have htie : jsonStyle.tie = .toEven := rfl
    rw [hdecimal, ← hread, htie, shortest_greatest] at hdigits
    have hne : 17976931348623157 ≠ 17976931348623158 := by decide
    exact hne hdigits
  · omega

/-! ### Reading back -/

/-- A finite double that is written is never refused.  The digits that are written are rounded and
then scaled, and what comes of that is few ranks away from the double; the double itself, if both
the digits and the power of ten are doubles. -/
theorem exists_reread (h : x.isFinite = true) :
    ∃ z, scale? (ofNat x.jsonNumber.decimal.digits) x.jsonNumber.decimal.exponent = some z ∧
      x.jsonNumber.toBinary64? = some { z with negative := x.negative } ∧ z.isFinite = true ∧
      Apart 3 z.rank x.rank ∧
      (-308 ≤ x.jsonNumber.decimal.exponent ∨ x.jsonNumber.decimal.digits ≤ 2 ^ 53 →
        Apart 2 z.rank x.rank) ∧
      (x.jsonNumber.decimal.digits ≤ 2 ^ 53 → -22 ≤ x.jsonNumber.decimal.exponent →
        x.jsonNumber.decimal.exponent ≤ 22 → z.rank = x.rank) := by
  have hdigits := digits_jsonNumber h
  have hhigh := exponent_jsonNumber_le h
  have hread := ofDecimal_jsonNumber h
  obtain ⟨z, hz⟩ := exists_scale? hdigits hhigh (by rwa [hread]) (jsonNumber_ne_beyond h)
  have hapart := scale?_apart hdigits (le_exponent_jsonNumber h) hhigh hz
  have hgather : x.jsonNumber.decimal.digits ≤ maxSignificand := Nat.le_trans hdigits (by decide)
  rw [hread] at hapart
  refine ⟨z, hz, ?_, hapart⟩
  rw [toBinary64?_eq hgather, hz, Option.map_some, negative_jsonNumber h]

end Binary64
end MicroLisp
