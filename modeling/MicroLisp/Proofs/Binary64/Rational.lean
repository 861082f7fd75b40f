import Mathlib.Algebra.Order.Field.Rat
import Mathlib.Order.WithBot
import Mathlib.Tactic.Linarith
import Mathlib.Tactic.Positivity
import MicroLisp.Numeral
import MicroLisp.Proofs.Binary64.Midpoint
import MicroLisp.Proofs.Binary64.Shortest

/-!
# Doubles as rational numbers

Decimals and finite doubles denote rational numbers; with the infinities at either end
the doubles are ordered like their signed ranks (`value_mono`).  Rounding keeps the order
of the decimals (`value_ofDecimal_mono`).
-/

namespace MicroLisp
open Numeral

/-! ### Numbers with a sign -/

section Signed

variable {b c : Bool} {m n m' n' : Nat}

theorem signed_mul (b : Bool) (m n : Nat) : signed b (m * n) = signed b m * n := by
  cases b
  · exact Int.natCast_mul m n
  · simp only [signed, if_true, Int.natCast_mul, Int.neg_mul]

theorem abs_signed (b : Bool) (n : Nat) : |(signed b n : ℚ)| = n := by
  cases b
  · exact Nat.abs_cast n
  · simp only [signed, if_true, Int.cast_neg, abs_neg, Int.cast_natCast, Nat.abs_cast]

/-- Two magnitudes that are changed in an order that each way keeps, and zero into zero. -/
theorem signed_mono (hle : m ≤ n → m' ≤ n') (hge : n ≤ m → n' ≤ m') (hm : m = 0 → m' = 0)
    (hn : n = 0 → n' = 0) (h : signed b m ≤ signed c n) : signed b m' ≤ signed c n' := by
  cases b <;> cases c
  all_goals simp only [signed, Bool.false_eq_true, if_true, if_false] at h ⊢
  all_goals omega

end Signed

/-! ### Decimals -/

namespace Decimal

/-- The number that a decimal denotes. -/
def toRat (d : Decimal) : ℚ := signed d.negative d.digits * 10 ^ d.exponent

theorem toRat_whole (negative : Bool) (n : Nat) :
    (⟨negative, n, 0⟩ : Decimal).toRat = signed negative n := by
  rw [toRat, zpow_zero, mul_one]

theorem ten_zpow (e : Int) : (10 : ℚ) ^ e = 10 ^ e.toNat / 10 ^ (-e).toNat := by
  have hsplit : e = e.toNat - (-e).toNat := by omega
  conv_lhs => rw [hsplit]
  rw [zpow_sub₀ (by norm_num), zpow_natCast, zpow_natCast]

theorem toRat_eq (d : Decimal) :
    d.toRat = (signed d.negative d.numerator : Int) / (d.denominator : ℚ) := by
  rw [toRat, ten_zpow, numerator, denominator, signed_mul, mul_div_assoc']
  push_cast
  rfl

theorem abs_toRat (d : Decimal) : |d.toRat| = d.numerator / d.denominator := by
  rw [toRat_eq, abs_div, abs_signed, Nat.abs_cast]

theorem toRat_le_iff (d e : Decimal) : d.toRat ≤ e.toRat ↔
    signed d.negative (d.numerator * e.denominator) ≤
      signed e.negative (e.numerator * d.denominator) := by
  have hd : (0 : ℚ) < d.denominator := Nat.cast_pos.mpr d.denominator_pos
  have he : (0 : ℚ) < e.denominator := Nat.cast_pos.mpr e.denominator_pos
  rw [toRat_eq, toRat_eq, div_le_div_iff₀ hd he, signed_mul, signed_mul]
  exact_mod_cast Iff.rfl

end Decimal

/-! ### Doubles -/

/-- The rational numbers between two infinities. -/
abbrev Extended := WithBot (WithTop ℚ)

namespace Extended

def ofRat (q : ℚ) : Extended := ((q : WithTop ℚ) : WithBot (WithTop ℚ))

theorem ofRat_le_ofRat {p q : ℚ} : ofRat p ≤ ofRat q ↔ p ≤ q :=
  WithBot.coe_le_coe.trans WithTop.coe_le_coe

end Extended

namespace Binary64

/-- The number that a finite double denotes. -/
def toRat (x : Binary64) : ℚ := signed x.negative (quanta x.rank) / 2 ^ 1074

/-- Where a double that is not a NaN stands among the numbers. -/
def value (x : Binary64) : Extended :=
  if x.isInfinite then (if x.negative then ⊥ else ⊤) else .ofRat x.toRat

/-- The rank with the sign of the double. -/
def order (x : Binary64) : Int := signed x.negative x.rank

theorem cast_of_eq_two_pow {n k : Nat} (h : n = Nat.pow 2 k) : (n : ℚ) = 2 ^ k := by
  rw [h]
  exact Nat.cast_pow 2 k

theorem cast_quantaPerOne : (quantaPerOne : ℚ) = 2 ^ 1074 := by
  rw [cast_of_eq_two_pow quantaPerOne_eq]

theorem two_pow_pos (k : Nat) : (0 : ℚ) < 2 ^ k := pow_pos two_pos k

theorem quanta_eq_zero {rank : Nat} (h : rank = 0) : quanta rank = 0 := by
  subst h
  rfl

theorem toRat_mono {x y : Binary64} (h : x.order ≤ y.order) : x.toRat ≤ y.toRat := by
  have hquanta := signed_mono quanta_mono quanta_mono quanta_eq_zero quanta_eq_zero h
  exact div_le_div_of_nonneg_right (Int.cast_le.mpr hquanta) (two_pow_pos 1074).le

theorem value_of_finite {x : Binary64} (h : x.isFinite = true) :
    x.value = .ofRat x.toRat := by
  have hrank := rank_lt_of_isFinite h
  simp only [value, isInfinite, Nat.ne_of_lt hrank, decide_false, Bool.false_eq_true, if_false]

theorem value_eq_top {x : Binary64} (hx : x.rank ≤ infinityRank)
    (h : (infinityRank : Int) ≤ x.order) : x.value = ⊤ := by
  have hpos : 0 < infinityRank := by decide
  unfold order signed at h
  split_ifs at h with hneg
  · omega
  · have hrank : x.rank = infinityRank := by omega
    simp only [value, isInfinite, hrank, decide_true, if_true, hneg, Bool.false_eq_true, if_false]

theorem value_eq_bot {x : Binary64} (hx : x.rank ≤ infinityRank)
    (h : x.order ≤ -(infinityRank : Int)) : x.value = ⊥ := by
  have hpos : 0 < infinityRank := by decide
  unfold order signed at h
  split_ifs at h with hneg
  · have hrank : x.rank = infinityRank := by omega
    simp only [value, isInfinite, hrank, decide_true, if_true, hneg]
  · omega

theorem isFinite_of_order {x : Binary64} (hlow : -(infinityRank : Int) < x.order)
    (hhigh : x.order < infinityRank) : x.isFinite = true := by
  unfold order signed at hlow hhigh
  rw [isFinite, decide_eq_true_eq]
  split_ifs at hlow hhigh
  all_goals omega

theorem value_mono {x y : Binary64} (hx : x.rank ≤ infinityRank) (hy : y.rank ≤ infinityRank)
    (h : x.order ≤ y.order) : x.value ≤ y.value := by
  by_cases htop : (infinityRank : Int) ≤ y.order
  · rw [value_eq_top hy htop]
    exact le_top
  by_cases hbot : x.order ≤ -(infinityRank : Int)
  · rw [value_eq_bot hx hbot]
    exact bot_le
  · rw [value_of_finite (isFinite_of_order (by omega) (by omega)),
      value_of_finite (isFinite_of_order (by omega) (by omega))]
    exact Extended.ofRat_le_ofRat.mpr (toRat_mono h)

theorem order_ofDecimal_mono {d e : Decimal} (h : d.toRat ≤ e.toRat) :
    (ofDecimal d).order ≤ (ofDecimal e).order := by
  have hd := d.denominator_pos
  have he := e.denominator_pos
  rw [order, order, rank_ofDecimal, rank_ofDecimal, negative_ofDecimal, negative_ofDecimal]
  refine signed_mono (nearestRank_mono hd he) (nearestRank_mono he hd) ?_ ?_
    ((d.toRat_le_iff e).mp h)
  · intro h0
    rw [(Nat.mul_eq_zero.mp h0).resolve_right he.ne', nearestRank_zero hd]
  · intro h0
    rw [(Nat.mul_eq_zero.mp h0).resolve_right hd.ne', nearestRank_zero he]

theorem value_ofDecimal_mono {d e : Decimal} (h : d.toRat ≤ e.toRat) :
    (ofDecimal d).value ≤ (ofDecimal e).value :=
  value_mono (rank_ofDecimal_le d) (rank_ofDecimal_le e) (order_ofDecimal_mono h)

end Binary64
end MicroLisp
