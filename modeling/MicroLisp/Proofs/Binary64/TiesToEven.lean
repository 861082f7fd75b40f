import MicroLisp.Proofs.Binary64.Rational

/-!
# Rounding to the nearest, ties to even

What it is for a double to be the one that a rational number is rounded to, said without
ranks: none of the finite doubles is nearer, of two equally near ones it has the even
significand, and from the midpoint behind the last finite double on it is infinite
(`Rounds`).  A sign and these three determine the double (`Rounds.unique`), and reading a
decimal satisfies them (`rounds_ofDecimal`).
-/

namespace MicroLisp.Binary64
open Numeral

/-- The fraction, behind a leading one if the double is normal. -/
def significand (x : Binary64) : Nat :=
  if x.rank < 2 ^ 52 then x.rank else 2 ^ 52 + x.rank % 2 ^ 52

/-- The double that a number is rounded to, except for its sign. -/
structure Rounds (q : ℚ) (x : Binary64) : Prop where
  isNaN : x.isNaN = false
  infinite : x.isInfinite = true ↔ 2 ^ 1024 - 2 ^ 970 ≤ |q|
  nearest : x.isFinite = true → ∀ y : Binary64, y.isFinite = true → |q - x.toRat| ≤ |q - y.toRat|
  even : x.isFinite = true → ∀ y : Binary64, y.isFinite = true → y.toRat ≠ x.toRat →
    |q - x.toRat| = |q - y.toRat| → x.significand % 2 = 0

theorem significand_mod_two (x : Binary64) : x.significand % 2 = x.rank % 2 := by
  unfold significand
  split
  · rfl
  · omega

/-! ### Distances -/

/-- A number in quanta, seen from the side of the given sign. -/
def inQuanta (negative : Bool) (q : ℚ) : ℚ := (if negative then -q else q) * 2 ^ 1074

theorem distance_eq (q : ℚ) (x : Binary64) :
    |q - x.toRat| * 2 ^ 1074 = |inQuanta x.negative q - quanta x.rank| := by
  have hpos := two_pow_pos 1074
  have hunit : |(2 : ℚ) ^ 1074| = 2 ^ 1074 := abs_of_pos hpos
  unfold toRat inQuanta
  generalize (2 : ℚ) ^ 1074 = unit at hpos hunit ⊢
  rw [← hunit, ← abs_mul, hunit, sub_mul, div_mul_cancel₀ _ hpos.ne']
  cases x.negative
  · rfl
  · rw [← abs_neg]
    simp only [signed, if_true, Int.cast_neg, Int.cast_natCast]
    congr 1
    ring

theorem inQuanta_toRat (d : Decimal) :
    inQuanta d.negative d.toRat = d.numerator / d.denominator * 2 ^ 1074 := by
  rw [inQuanta, d.toRat_eq]
  cases d.negative
  · rfl
  · simp only [signed, if_true, Int.cast_neg, Int.cast_natCast, neg_div, neg_neg]

theorem midpoint_of_distance_eq {t a b : ℚ} (hne : a ≠ b) (h : |t - a| = |t - b|) :
    2 * t = a + b := by
  rcases abs_eq_abs.mp h with hsame | hopposite
  · exact absurd (by linarith) hne
  · linarith

/-! ### Ranks and midpoints -/

variable {num den r s : Nat} {t : ℚ}

/-- What decides a rank, in rational numbers. -/
theorem nearestRank_le_iff_quotient (hd : 0 < den) (ht : t = num / den * 2 ^ 1074)
    (h : r < infinityRank) :
    nearestRank num den ≤ r ↔
      2 * t < quanta r + quanta (r + 1) ∨ 2 * t = quanta r + quanta (r + 1) ∧ r % 2 = 0 := by
  have hpos : (0 : ℚ) < den := Nat.cast_pos.mpr hd
  have hscaled : 2 * t = (2 * (num * quantaPerOne) : Nat) / den := by
    rw [ht, Nat.cast_mul, Nat.cast_mul, cast_quantaPerOne, Nat.cast_ofNat, mul_div_assoc,
      div_mul_eq_mul_div]
  rw [nearestRank_le_iff hd h, hscaled, div_lt_iff₀ hpos, div_eq_iff hpos.ne', ← Nat.cast_add,
    ← Nat.cast_mul, Nat.cast_lt, Nat.cast_inj]

theorem quotient_le_midpoint (hd : 0 < den) (ht : t = num / den * 2 ^ 1074)
    (h : r < infinityRank) (hle : nearestRank num den ≤ r) : 2 * t ≤ quanta r + quanta (r + 1) :=
  ((nearestRank_le_iff_quotient hd ht h).mp hle).elim le_of_lt fun hmid => hmid.1.le

theorem midpoint_le_quotient (hd : 0 < den) (ht : t = num / den * 2 ^ 1074)
    (h : r < infinityRank) (hlt : r < nearestRank num den) :
    (quanta r + quanta (r + 1) : ℚ) ≤ 2 * t := by
  have hnot := mt (nearestRank_le_iff_quotient hd ht h).mpr (Nat.not_le.mpr hlt)
  exact not_lt.mp fun hless => hnot (Or.inl hless)

theorem cast_quanta_mono (h : r ≤ s) : (quanta r : ℚ) ≤ quanta s := Nat.cast_le.mpr (quanta_mono h)

theorem cast_quanta_lt (h : r < s) : (quanta r : ℚ) < quanta s :=
  Nat.cast_lt.mpr (Nat.lt_of_lt_of_le (quanta_lt_succ r) (quanta_mono h))

theorem nearestRank_nearest (hd : 0 < den) (ht : t = num / den * 2 ^ 1074)
    (hr : nearestRank num den = r) (hfinite : r < infinityRank) (s : Nat) :
    |t - quanta r| ≤ |t - quanta s| := by
  rcases Nat.lt_trichotomy s r with hlt | rfl | hgt
  · obtain ⟨r', rfl⟩ : ∃ r', r = r' + 1 := ⟨r - 1, by omega⟩
    have hmid : (quanta r' + quanta (r' + 1) : ℚ) ≤ 2 * t :=
      midpoint_le_quotient hd ht (by omega) (by omega)
    have hs := cast_quanta_mono (Nat.le_of_lt_succ hlt)
    have hstep := cast_quanta_mono (Nat.le_succ r')
    have hnear : |t - quanta (r' + 1)| ≤ t - quanta s := abs_le.mpr ⟨by linarith, by linarith⟩
    exact hnear.trans (le_abs_self _)
  · exact le_refl _
  · have hmid := quotient_le_midpoint hd ht hfinite hr.le
    have hs := cast_quanta_mono (Nat.succ_le_of_lt hgt)
    have hstep := cast_quanta_mono (Nat.le_succ r)
    have hnear : |t - quanta r| ≤ -(t - quanta s) := abs_le.mpr ⟨by linarith, by linarith⟩
    exact hnear.trans (neg_le_abs _)

/-- Only the midpoint of two neighbours is as near to one as to another, and it goes to the even one. -/
theorem nearestRank_even (hd : 0 < den) (ht : t = num / den * 2 ^ 1074)
    (hr : nearestRank num den = r) (hfinite : r < infinityRank) (hne : quanta s ≠ quanta r)
    (h : |t - quanta r| = |t - quanta s|) : r % 2 = 0 := by
  have hmid : 2 * t = quanta r + quanta s :=
    midpoint_of_distance_eq (fun heq => hne (Nat.cast_injective heq).symm) h
  rcases Nat.lt_trichotomy s r with hlt | rfl | hgt
  · obtain ⟨r', rfl⟩ : ∃ r', r = r' + 1 := ⟨r - 1, by omega⟩
    have hlow : (quanta r' + quanta (r' + 1) : ℚ) ≤ 2 * t :=
      midpoint_le_quotient hd ht (by omega) (by omega)
    have hs := cast_quanta_mono (Nat.le_of_lt_succ hlt)
    have hnot : ¬ nearestRank num den ≤ r' := by omega
    rw [nearestRank_le_iff_quotient hd ht (by omega)] at hnot
    have hodd : r' % 2 ≠ 0 := fun heven => hnot (Or.inr ⟨by linarith, heven⟩)
    omega
  · exact absurd rfl hne
  · have hhigh := quotient_le_midpoint hd ht hfinite hr.le
    have hs := cast_quanta_mono (Nat.succ_le_of_lt hgt)
    have hle := (nearestRank_le_iff_quotient hd ht hfinite).mp hr.le
    exact hle.elim (fun hless => absurd hless (by linarith)) fun htie => htie.2

/-! ### Decimals -/

variable {d : Decimal}

theorem inQuanta_nonneg (d : Decimal) : 0 ≤ inQuanta d.negative d.toRat := by
  rw [inQuanta_toRat]
  exact mul_nonneg (div_nonneg (Nat.cast_nonneg _) (Nat.cast_nonneg _)) (two_pow_pos 1074).le

theorem inQuanta_eq_abs (d : Decimal) : inQuanta d.negative d.toRat = |d.toRat| * 2 ^ 1074 := by
  rw [inQuanta_toRat, d.abs_toRat]

theorem distance_across {y : Binary64} (h : y.negative ≠ d.negative) :
    |d.toRat - y.toRat| * 2 ^ 1074 = inQuanta d.negative d.toRat + quanta y.rank := by
  have hnonneg := inQuanta_nonneg d
  have hquanta : (0 : ℚ) ≤ quanta y.rank := Nat.cast_nonneg _
  have hopposite : inQuanta y.negative d.toRat = -inQuanta d.negative d.toRat := by
    revert h
    unfold inQuanta
    cases y.negative <;> cases d.negative
    all_goals simp
  rw [distance_eq, hopposite, abs_of_nonpos (by linarith)]
  ring

theorem le_distance (d : Decimal) (y : Binary64) :
    |inQuanta d.negative d.toRat - quanta y.rank| ≤ |d.toRat - y.toRat| * 2 ^ 1074 := by
  by_cases hsign : y.negative = d.negative
  · rw [distance_eq, hsign]
  · have hnonneg := inQuanta_nonneg d
    have hquanta : (0 : ℚ) ≤ quanta y.rank := Nat.cast_nonneg _
    rw [distance_across hsign]
    exact abs_le.mpr ⟨by linarith, by linarith⟩

theorem distance_ofDecimal (d : Decimal) :
    |d.toRat - (ofDecimal d).toRat| * 2 ^ 1074 =
      |inQuanta d.negative d.toRat - quanta (ofDecimal d).rank| := by
  rw [distance_eq, negative_ofDecimal]

theorem nearest_ofDecimal (h : (ofDecimal d).isFinite = true) (y : Binary64) :
    |d.toRat - (ofDecimal d).toRat| ≤ |d.toRat - y.toRat| := by
  have hnear := nearestRank_nearest d.denominator_pos (inQuanta_toRat d) (rank_ofDecimal d).symm
    (rank_lt_of_isFinite h) y.rank
  rw [← distance_ofDecimal] at hnear
  exact le_of_mul_le_mul_right (hnear.trans (le_distance d y)) (two_pow_pos 1074)

theorem toRat_congr {x y : Binary64} (hsign : x.negative = y.negative)
    (hquanta : quanta x.rank = quanta y.rank) : x.toRat = y.toRat := by
  rw [toRat, toRat, hsign, hquanta]

theorem toRat_of_quanta_eq_zero {x : Binary64} (h : quanta x.rank = 0) : x.toRat = 0 := by
  simp [toRat, signed, h]

theorem even_ofDecimal (h : (ofDecimal d).isFinite = true) {y : Binary64}
    (hne : y.toRat ≠ (ofDecimal d).toRat)
    (heq : |d.toRat - (ofDecimal d).toRat| = |d.toRat - y.toRat|) :
    (ofDecimal d).significand % 2 = 0 := by
  have hnear := nearestRank_nearest d.denominator_pos (inQuanta_toRat d) (rank_ofDecimal d).symm
    (rank_lt_of_isFinite h)
  by_cases hquanta : quanta y.rank = quanta (ofDecimal d).rank
  · -- only the opposite of a double is as large, and nothing but zero is as near to it
    have hsign : y.negative ≠ d.negative := fun hsign =>
      hne (toRat_congr (hsign.trans (negative_ofDecimal d).symm) hquanta)
    have hzero := hnear 0
    have hunit : (quanta 0 : ℚ) = 0 := by rw [quanta_eq_zero rfl, Nat.cast_zero]
    rw [← distance_ofDecimal, heq, distance_across hsign, hunit, sub_zero,
      abs_of_nonneg (inQuanta_nonneg d)] at hzero
    have hnil : (quanta y.rank : ℚ) = 0 := le_antisymm (by linarith) (Nat.cast_nonneg _)
    have hy : quanta y.rank = 0 := Nat.cast_eq_zero.mp hnil
    exact absurd ((toRat_of_quanta_eq_zero hy).trans
      (toRat_of_quanta_eq_zero (hquanta ▸ hy)).symm) hne
  · have hle := le_distance d y
    rw [← heq, distance_ofDecimal] at hle
    rw [significand_mod_two]
    exact nearestRank_even d.denominator_pos (inQuanta_toRat d) (rank_ofDecimal d).symm
      (rank_lt_of_isFinite h) hquanta (le_antisymm (hnear y.rank) hle)

/-! ### Where doubles end -/

theorem quanta_last : quanta (infinityRank - 1) = (2 ^ 53 - 1) * 2 ^ 2045 := by
  have hrank : infinityRank - 1 = 2045 * 2 ^ 52 + (2 ^ 53 - 1) := by decide
  rw [hrank]
  exact quanta_of_binade (by decide) (by decide) 2045

theorem quanta_infinity : quanta infinityRank = 2 ^ 52 * 2 ^ 2046 := by
  have hrank : infinityRank = 2046 * 2 ^ 52 + 2 ^ 52 := by decide
  rw [hrank]
  exact quanta_of_binade (le_refl _) (by decide) 2046

theorem midpoint_last : (quanta (infinityRank - 1) + quanta (infinityRank - 1 + 1) : ℚ) =
    2 * ((2 ^ 1024 - 2 ^ 970) * 2 ^ 1074) := by
  have hnext : infinityRank - 1 + 1 = infinityRank := by decide
  have hlast : (2 : ℚ) ^ 2045 = 2 ^ 970 * 2 ^ 1074 * 2 ^ 1 := by rw [← pow_add, ← pow_add]
  have hinfinity : (2 : ℚ) ^ 2046 = 2 ^ 970 * 2 ^ 1074 * 2 ^ 2 := by rw [← pow_add, ← pow_add]
  have hbound : (2 : ℚ) ^ 1024 = 2 ^ 970 * 2 ^ 54 := by rw [← pow_add]
  have hcast : ((2 ^ 53 - 1 : Nat) : ℚ) = 2 ^ 53 - 1 := by norm_num
  rw [hnext, quanta_last, quanta_infinity, Nat.cast_mul, Nat.cast_mul, Nat.cast_pow, Nat.cast_pow,
    Nat.cast_pow, hcast, Nat.cast_ofNat, hlast, hinfinity, hbound]
  generalize (2 : ℚ) ^ 970 = w
  generalize (2 : ℚ) ^ 1074 = unit
  ring

theorem isInfinite_ofDecimal :
    (ofDecimal d).isInfinite = true ↔ 2 ^ 1024 - 2 ^ 970 ≤ |d.toRat| := by
  have hodd : (infinityRank - 1) % 2 = 1 := by decide
  have hmid := nearestRank_le_iff_quotient d.denominator_pos (inQuanta_toRat d)
    (by decide : infinityRank - 1 < infinityRank)
  have hle : nearestRank d.numerator d.denominator ≤ infinityRank := nearestRank_le
  have hcut : (ofDecimal d).isInfinite = true ↔
      ¬ nearestRank d.numerator d.denominator ≤ infinityRank - 1 := by
    rw [isInfinite, decide_eq_true_eq, rank_ofDecimal]
    have hpos : 0 < infinityRank := by decide
    omega
  rw [hcut, hmid, midpoint_last, inQuanta_eq_abs, hodd, not_or]
  simp only [one_ne_zero, and_false, not_false_eq_true, and_true, not_lt]
  rw [mul_le_mul_iff_right₀ two_pos, mul_le_mul_iff_left₀ (two_pow_pos 1074)]

theorem isZero_ofDecimal : (ofDecimal d).isZero = true ↔ |d.toRat| ≤ 2 ^ (-1075 : Int) := by
  have hmid := nearestRank_le_iff_quotient d.denominator_pos (inQuanta_toRat d)
    (by decide : 0 < infinityRank)
  have hzero : (ofDecimal d).isZero = true ↔ nearestRank d.numerator d.denominator ≤ 0 := by
    rw [isZero, decide_eq_true_eq, rank_ofDecimal, Nat.le_zero]
  have hunit : (quanta 0 + quanta (0 + 1) : ℚ) = 1 := by
    have hfirst : quanta 0 = 0 ∧ quanta (0 + 1) = 1 := by decide
    rw [hfirst.1, hfirst.2, Nat.cast_zero, Nat.cast_one, zero_add]
  have hscale : 2 * (|d.toRat| * 2 ^ 1074) = |d.toRat| * 2 ^ 1075 := by
    rw [pow_succ _ 1074, mul_comm 2, mul_assoc]
  rw [hzero, hmid, hunit, inQuanta_eq_abs, hscale, and_iff_left (Nat.zero_mod 2), ← le_iff_lt_or_eq,
    ← le_div_iff₀ (two_pow_pos 1075), one_div, zpow_neg, zpow_ofNat]

/-! ### The double that a number is rounded to -/

theorem rounds_ofDecimal (d : Decimal) : (ofDecimal d).Rounds d.toRat where
  isNaN := isNaN_ofDecimal d
  infinite := isInfinite_ofDecimal
  nearest h y _ := nearest_ofDecimal h y
  even h _ _ hne heq := even_ofDecimal h hne heq

theorem quanta_of_toRat_eq {x y : Binary64} (h : x.toRat = y.toRat) :
    quanta x.rank = quanta y.rank := by
  have habs := congrArg abs h
  rw [toRat, toRat, abs_div, abs_div, abs_signed, abs_signed,
    div_left_inj' (abs_pos_of_pos (two_pow_pos 1074)).ne'] at habs
  exact Nat.cast_injective habs

theorem Rounds.finite_or_infinite {q : ℚ} {x : Binary64} (h : x.Rounds q) :
    x.isFinite = true ∨ x.isInfinite = true := by
  have hnan := h.isNaN
  simp only [Binary64.isNaN, decide_eq_false_iff_not] at hnan
  simp only [isFinite, isInfinite, decide_eq_true_eq]
  omega

/-- Between two doubles as near as can be there is none, and then one of them is odd. -/
theorem Rounds.rank_le {q : ℚ} {x y : Binary64} (hx : x.Rounds q) (hy : y.Rounds q)
    (hfx : x.isFinite = true) (hfy : y.isFinite = true) (hsign : x.negative = y.negative) :
    y.rank ≤ x.rank := by
  by_contra hlt
  have hbound := rank_lt_of_isFinite hfy
  have hquanta : (quanta x.rank : ℚ) < quanta y.rank := cast_quanta_lt (by omega)
  have hne : y.toRat ≠ x.toRat := fun heq => hquanta.ne' (congrArg _ (quanta_of_toRat_eq heq))
  have heq : |q - x.toRat| = |q - y.toRat| :=
    le_antisymm (hx.nearest hfx y hfy) (hy.nearest hfy x hfx)
  have hscaled := congrArg (· * (2 : ℚ) ^ 1074) heq
  simp only [distance_eq, ← hsign] at hscaled
  have hmid := midpoint_of_distance_eq hquanta.ne hscaled
  by_cases hnext : x.rank + 1 = y.rank
  · have hex := hx.even hfx y hfy hne heq
    have hey := hy.even hfy x hfx hne.symm heq.symm
    rw [significand_mod_two] at hex hey
    omega
  · have hpos : infinityRank < Nat.pow 2 63 := infinityRank_lt
    have hz := hx.nearest hfx ⟨x.negative, x.rank + 1, by omega⟩
      (by simp only [isFinite, decide_eq_true_eq]; omega)
    have hlow : (quanta x.rank : ℚ) < quanta (x.rank + 1) := cast_quanta_lt (by omega)
    have hhigh : (quanta (x.rank + 1) : ℚ) < quanta y.rank := cast_quanta_lt (by omega)
    have hzscaled := mul_le_mul_of_nonneg_right hz (two_pow_pos 1074).le
    rw [distance_eq, distance_eq, abs_of_nonneg (by linarith)] at hzscaled
    exact absurd hzscaled (not_le.mpr (abs_lt.mpr ⟨by linarith, by linarith⟩))

theorem Rounds.unique {q : ℚ} {x y : Binary64} (hx : x.Rounds q) (hy : y.Rounds q)
    (hsign : x.negative = y.negative) : x = y := by
  have hrank : x.rank = y.rank := by
    by_cases hinf : 2 ^ 1024 - 2 ^ 970 ≤ |q|
    · have hxi := hx.infinite.mpr hinf
      have hyi := hy.infinite.mpr hinf
      simp only [isInfinite, decide_eq_true_eq] at hxi hyi
      rw [hxi, hyi]
    · have hfx := hx.finite_or_infinite.resolve_right (mt hx.infinite.mp hinf)
      have hfy := hy.finite_or_infinite.resolve_right (mt hy.infinite.mp hinf)
      exact le_antisymm (hy.rank_le hx hfy hfx hsign.symm) (hx.rank_le hy hfx hfy hsign)
  obtain ⟨b, r, hr⟩ := x
  obtain ⟨c, s, hs⟩ := y
  obtain rfl : b = c := hsign
  obtain rfl : r = s := hrank
  rfl

end MicroLisp.Binary64
