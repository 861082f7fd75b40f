import MicroLisp.Proofs.Binary64.Error
import MicroLisp.Proofs.Binary64.TiesToEven
import MicroLisp.Proofs.Word

/-!
# The values of numeric words

A float word stands for the double that the number it writes is rounded to, so that float
words are ordered like those numbers.  Integer words keep their order as well where the
range of the integers ends and rounding begins, because the first integers outside it are
doubles themselves (`classify_rounds`).
-/

namespace MicroLisp

/-- The number that a token stands for, if it is a numeric one. -/
def Token.value? : Token → Option Extended
  | .int v => some (.ofRat v.toInt)
  | .float x => some x.value
  | _ => none

namespace Word
open Numeral

variable {word : List Char} {n : Int}

/-! ### The ends of the integers -/

/-- The power of two at which the integers end is a double. -/
theorem value_bound (negative : Bool) :
    (Binary64.ofDecimal ⟨negative, 2 ^ 63, 0⟩).value = .ofRat (signed negative (2 ^ 63)) := by
  obtain ⟨hlt, hquanta⟩ := Binary64.exact_whole (s := 1) (j := 63) (by decide) (by decide)
  have hnum : Decimal.numerator ⟨negative, 2 ^ 63, 0⟩ = 1 * 2 ^ 63 := by simp [Decimal.numerator]
  have hden : Decimal.denominator ⟨negative, 2 ^ 63, 0⟩ = 1 := by simp [Decimal.denominator]
  have hrank := Binary64.rank_ofDecimal ⟨negative, 2 ^ 63, 0⟩
  rw [hnum, hden] at hrank
  have hfinite : (Binary64.ofDecimal ⟨negative, 2 ^ 63, 0⟩).isFinite = true := by
    rw [Binary64.isFinite, hrank]
    exact decide_eq_true hlt
  rw [Binary64.value_of_finite hfinite, Binary64.toRat, hrank, hquanta, Nat.one_mul,
    Binary64.negative_ofDecimal, signed_mul, Int.cast_mul, Int.cast_natCast,
    Binary64.cast_quantaPerOne, mul_div_cancel_right₀ _ (Binary64.two_pow_pos 1074).ne']

/-! ### Integer numerals -/

theorem value?_of_fits (h : IsInteger word n) (hlow : -2 ^ 63 ≤ n) (hhigh : n ≤ 2 ^ 63 - 1) :
    (classify word).value? = some (.ofRat n) := by
  obtain ⟨v, rfl, hv⟩ := exists_classify_eq_int_iff.mpr ⟨h, hlow, hhigh⟩
  rw [hv]
  rfl

theorem value?_of_outside (h : IsInteger word n) (hrange : ¬ (-2 ^ 63 ≤ n ∧ n ≤ 2 ^ 63 - 1)) :
    ∃ d : Decimal, d.toRat = n ∧ (classify word).value? = some (Binary64.ofDecimal d).value := by
  obtain ⟨⟨negative, digits, exponent⟩, hd, hn, rfl⟩ := h.exists_isDecimal
  have hfloat : classify word = .float (Binary64.ofDecimal ⟨negative, digits, 0⟩) := by
    refine classify_eq_float_iff.mpr ⟨⟨_, hd, rfl⟩, fun n' hn' => hrange ?_⟩
    obtain rfl := Option.some.inj (h.integer?.symm.trans hn'.1.integer?)
    exact hn'.2
  refine ⟨_, ?_, by rw [hfloat]; rfl⟩
  rw [Decimal.toRat_whole, hn]

theorem ofRat_le_value {d : Decimal} (hn : n ≤ 2 ^ 63) (hd : (2 ^ 63 : ℚ) ≤ d.toRat) :
    .ofRat n ≤ (Binary64.ofDecimal d).value := by
  have hbound : (⟨false, 2 ^ 63, 0⟩ : Decimal).toRat = 2 ^ 63 := by
    rw [Decimal.toRat_whole]
    norm_num [signed]
  have hmono := Binary64.value_ofDecimal_mono (hbound.trans_le hd)
  rw [value_bound] at hmono
  exact (Extended.ofRat_le_ofRat.mpr (Int.cast_le.mpr hn)).trans hmono

theorem value_le_ofRat {d : Decimal} (hn : -2 ^ 63 ≤ n) (hd : d.toRat ≤ -2 ^ 63) :
    (Binary64.ofDecimal d).value ≤ .ofRat n := by
  have hbound : (⟨true, 2 ^ 63, 0⟩ : Decimal).toRat = -2 ^ 63 := by
    rw [Decimal.toRat_whole]
    norm_num [signed]
  have hmono := Binary64.value_ofDecimal_mono (hd.trans_eq hbound.symm)
  rw [value_bound] at hmono
  exact hmono.trans (Extended.ofRat_le_ofRat.mpr (Int.cast_le.mpr hn))

/-- Integers outside the range are no nearer to it than its ends. -/
theorem value?_mono {u v : List Char} {m n : Int} (hu : IsInteger u m) (hv : IsInteger v n)
    (h : m ≤ n) :
    ∃ a b, (classify u).value? = some a ∧ (classify v).value? = some b ∧ a ≤ b := by
  have hcast : (m : ℚ) ≤ n := Int.cast_le.mpr h
  by_cases hm : -2 ^ 63 ≤ m ∧ m ≤ 2 ^ 63 - 1 <;> by_cases hn : -2 ^ 63 ≤ n ∧ n ≤ 2 ^ 63 - 1
  · exact ⟨_, _, value?_of_fits hu hm.1 hm.2, value?_of_fits hv hn.1 hn.2,
      Extended.ofRat_le_ofRat.mpr hcast⟩
  · obtain ⟨e, he, hvalue⟩ := value?_of_outside hv hn
    have hbeyond : (2 ^ 63 : ℚ) ≤ n := by
      have hge : 2 ^ 63 ≤ n := by omega
      exact_mod_cast hge
    exact ⟨_, _, value?_of_fits hu hm.1 hm.2, hvalue,
      ofRat_le_value (by omega) (he.symm ▸ hbeyond)⟩
  · obtain ⟨d, hd, hvalue⟩ := value?_of_outside hu hm
    have hbeyond : (m : ℚ) ≤ -2 ^ 63 := by
      have hle : m ≤ -2 ^ 63 := by omega
      exact_mod_cast hle
    exact ⟨_, _, hvalue, value?_of_fits hv hn.1 hn.2,
      value_le_ofRat (by omega) (hd.symm ▸ hbeyond)⟩
  · obtain ⟨d, hd, hvalue⟩ := value?_of_outside hu hm
    obtain ⟨e, he, hvalue'⟩ := value?_of_outside hv hn
    exact ⟨_, _, hvalue, hvalue', Binary64.value_ofDecimal_mono (by rw [hd, he]; exact hcast)⟩

/-! ### All numeric words -/

theorem exists_decimal_of_float {x : Binary64} (h : classify word = .float x) :
    ∃ d, IsDecimal word d ∧ Binary64.ofDecimal d = x :=
  (classify_eq_float_iff.mp h).1

/-- The double of a float word is the one that the number it writes is rounded to, under the sign of
the word; equal numbers have the same bits, and no order is reversed, that of integer words included. -/
theorem classify_rounds :
    (∀ word x, classify word = .float x → ∃ d, IsDecimal word d ∧ x.Rounds d.toRat ∧
      (∀ y : Binary64, y.Rounds d.toRat → y.negative = x.negative → y = x) ∧
      (x.negative = true ↔ word.head? = some '-') ∧
      (x.isZero = true ↔ |d.toRat| ≤ 2 ^ (-1075 : Int))) ∧
    (∀ u v x y d e, classify u = .float x → classify v = .float y → IsDecimal u d → IsDecimal v e →
      (d.toRat = e.toRat → d.negative = e.negative → x.toBits = y.toBits) ∧
      (d.toRat ≤ e.toRat → x.value ≤ y.value)) ∧
    ∀ u v m n, IsInteger u m → IsInteger v n → m < n →
      ∃ a b, (classify u).value? = some a ∧ (classify v).value? = some b ∧ a ≤ b := by
  refine ⟨?_, ?_, fun u v m n hu hv h => value?_mono hu hv h.le⟩
  · intro word x hx
    obtain ⟨d, hd, rfl⟩ := exists_decimal_of_float hx
    have hrounds := Binary64.rounds_ofDecimal d
    refine ⟨d, hd, hrounds, fun y hy hsign => hy.unique hrounds hsign, ?_, Binary64.isZero_ofDecimal⟩
    rw [Binary64.negative_ofDecimal]
    exact hd.negative_iff
  · intro u v x y d e hx hy hd he
    obtain ⟨d', hd', rfl⟩ := exists_decimal_of_float hx
    obtain ⟨e', he', rfl⟩ := exists_decimal_of_float hy
    obtain rfl := hd.unique hd'
    obtain rfl := he.unique he'
    refine ⟨fun hnumber hsign => ?_, Binary64.value_ofDecimal_mono⟩
    have hrounds := Binary64.rounds_ofDecimal e
    rw [← hnumber] at hrounds
    refine congrArg _ ((Binary64.rounds_ofDecimal d).unique hrounds ?_)
    rw [Binary64.negative_ofDecimal, Binary64.negative_ofDecimal, hsign]

/-- A number halfway between two doubles, one number written in two ways, and the last integer. -/
theorem classify_rounds_halfway :
    (∃ d, IsDecimal "9007199254740993.".toList d ∧
      (Binary64.mk false (1076 * Nat.pow 2 52) (by decide)).Rounds d.toRat) ∧
    ((Binary64.ofDecimal ⟨true, 5, -1⟩).toBits = (Binary64.ofDecimal ⟨true, 50, -2⟩).toBits ∧
      (Binary64.ofDecimal ⟨true, 5, -1⟩).value ≤ (Binary64.ofDecimal ⟨true, 50, -2⟩).value) ∧
    ∃ a b, (classify "9223372036854775807".toList).value? = some a ∧
      (classify "9223372036854775808".toList).value? = some b ∧ a ≤ b := by
  obtain ⟨hwords, hpairs, hintegers⟩ := classify_rounds
  obtain ⟨d, hd, hrounds, -⟩ := hwords "9007199254740993.".toList
    ⟨false, 1076 * Nat.pow 2 52, by decide⟩ (by decide +kernel)
  obtain ⟨hbits, horder⟩ := hpairs "-.5".toList "-50e-2".toList
    (Binary64.ofDecimal ⟨true, 5, -1⟩) (Binary64.ofDecimal ⟨true, 50, -2⟩)
    ⟨true, 5, -1⟩ ⟨true, 50, -2⟩ (by decide +kernel) (by decide +kernel)
    (isDecimal_of_decimal? (by decide +kernel)) (isDecimal_of_decimal? (by decide +kernel))
  have hnumber : (⟨true, 5, -1⟩ : Decimal).toRat = (⟨true, 50, -2⟩ : Decimal).toRat := by
    norm_num [Decimal.toRat, signed]
  refine ⟨⟨d, hd, hrounds⟩, ⟨hbits hnumber rfl, horder hnumber.le⟩, ?_⟩
  exact hintegers _ _ 9223372036854775807 9223372036854775808
    (isInteger_of_integer? (by decide +kernel)) (isInteger_of_integer? (by decide +kernel))
    (by decide)

end Word
end MicroLisp
