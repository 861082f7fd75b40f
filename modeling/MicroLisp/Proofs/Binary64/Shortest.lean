import MicroLisp.Binary64.Shortest
import MicroLisp.Proofs.Binary64.Nearest

/-!
# Decimals that read back

Reading a decimal rounds its value, whatever its exponent (`ofDecimal_eq_nearest`),
so zeros at the end of its digits make no difference (`ofDecimal_padded`).  The
shortest decimal of a finite double reads back as that double
(`ofDecimal_shortest`).
-/

namespace MicroLisp

namespace Decimal

def numerator (d : Decimal) : Nat := d.digits * 10 ^ d.exponent.toNat

def denominator (d : Decimal) : Nat := 10 ^ (-d.exponent).toNat

/-- The same number with zeros put to the end of its digits. -/
def padded (d : Decimal) (zeros : Nat) : Decimal :=
  ⟨d.negative, d.digits * 10 ^ zeros, d.exponent - zeros⟩

theorem denominator_pos (d : Decimal) : 0 < d.denominator := Nat.pow_pos (by decide)

theorem padded_zero (d : Decimal) : d.padded 0 = d := by
  simp [padded]

theorem padded_padded (d : Decimal) (m n : Nat) : (d.padded m).padded n = d.padded (m + n) := by
  simp only [padded, Nat.pow_add, Nat.mul_assoc, Decimal.mk.injEq, true_and]
  omega

theorem exists_padded_trim (d : Decimal) : ∃ zeros, d.trim.padded zeros = d := by
  fun_induction trim d with
  | case1 d h ih =>
    obtain ⟨zeros, hzeros⟩ := ih
    refine ⟨zeros + 1, ?_⟩
    rw [← padded_padded, hzeros]
    have hdigits : d.digits / 10 * 10 = d.digits := by omega
    have hexponent : d.exponent + 1 - (1 : Nat) = d.exponent := Int.add_sub_cancel _ _
    simp only [padded, Nat.pow_one, hdigits, hexponent]
  | case2 d h => exact ⟨0, padded_zero d⟩

theorem numerator_padded (d : Decimal) (zeros : Nat) :
    (d.padded zeros).numerator * d.denominator = d.numerator * (d.padded zeros).denominator := by
  have hsum : zeros + (d.exponent - zeros).toNat + (-d.exponent).toNat =
      d.exponent.toNat + (-(d.exponent - zeros)).toNat := by omega
  simp only [numerator, denominator, padded, Nat.mul_assoc, ← Nat.pow_add]
  rw [hsum]

end Decimal

namespace Binary64

/-! ### Reading a decimal -/

theorem nearest_zero (negative : Bool) {den : Nat} (h : 0 < den) :
    nearest negative 0 den = zero negative := by
  have hrank := nearestRank_zero h
  simp only [nearest, hrank, zero]

theorem nearest_huge (negative : Bool) {num : Nat} (h : 1 * ceiling ≤ num) :
    nearest negative num 1 = infinity negative := by
  have hrank := nearestRank_huge Nat.one_pos h
  simp only [nearest, hrank, infinity]

theorem nearest_tiny (negative : Bool) {num den : Nat} (h : 2 * (num * quantaPerOne) < den) :
    nearest negative num den = zero negative := by
  have hrank := nearestRank_tiny h
  simp only [nearest, hrank, zero]

/-- From the exponent 310 on any number is above the doubles. -/
theorem ceiling_le_digits {digits k : Nat} (h0 : digits ≠ 0) (hk : 310 ≤ k) :
    1 * ceiling ≤ digits * 10 ^ k := by
  obtain ⟨m, hm, hbase⟩ : ∃ m, m = 310 ∧ 1 * ceiling ≤ 10 ^ m := ⟨310, rfl, by decide +kernel⟩
  have hpow : 10 ^ m ≤ 10 ^ k := Nat.pow_le_pow_right (by decide) (hm ▸ hk)
  exact Nat.le_trans hbase (Nat.le_trans hpow (Nat.le_mul_of_pos_left _ (Nat.pos_of_ne_zero h0)))

theorem two_mul_lt_ten_pow {digits scale b k : Nat} (hscale : scale = Nat.pow 2 b)
    (hk : digits.log2 + (b + 3) ≤ 3 * k) : 2 * (digits * scale) < 10 ^ k := by
  subst hscale
  have hdigits : digits < 2 ^ (digits.log2 + 1) := Nat.lt_log2_self
  calc
    2 * (digits * Nat.pow 2 b) = digits * 2 ^ (b + 1) := by
      rw [Nat.pow_eq, Nat.pow_succ, Nat.mul_comm, Nat.mul_assoc]
    _ < 2 ^ (digits.log2 + 1) * 2 ^ (b + 1) :=
      Nat.mul_lt_mul_of_pos_right hdigits (Nat.two_pow_pos _)
    _ = 2 ^ (digits.log2 + 1 + (b + 1)) := (Nat.pow_add ..).symm
    _ ≤ 2 ^ (3 * k) := Nat.pow_le_pow_right (by decide) (by omega)
    _ = 8 ^ k := Nat.pow_mul 2 3 k
    _ ≤ 10 ^ k := Nat.pow_le_pow_left (by decide) k

/-- An exponent that outweighs the digits and the quanta in one. -/
theorem digits_lt_quantum {digits k : Nat} (hk : digits.log2 + 1077 ≤ 3 * k) :
    2 * (digits * quantaPerOne) < 10 ^ k :=
  two_mul_lt_ten_pow quantaPerOne_eq hk

theorem ofDecimal_eq_nearest (d : Decimal) :
    ofDecimal d = nearest d.negative d.numerator d.denominator := by
  obtain ⟨negative, digits, exponent⟩ := d
  have hden := Decimal.denominator_pos ⟨negative, digits, exponent⟩
  by_cases h0 : digits = 0
  · subst h0
    rw [ofDecimal, if_pos rfl, Decimal.numerator, Nat.zero_mul, nearest_zero negative hden]
  cases exponent with
  | ofNat k =>
    have hone : Decimal.denominator ⟨negative, digits, .ofNat k⟩ = 1 := by
      simp [Decimal.denominator]
    have hdigits : Decimal.numerator ⟨negative, digits, .ofNat k⟩ = digits * 10 ^ k := rfl
    rw [ofDecimal, if_neg h0, hone, hdigits]
    dsimp only [Nat.pow_eq]
    split
    · next hk => exact (nearest_huge negative (ceiling_le_digits h0 hk)).symm
    · rfl
  | negSucc k =>
    have hdigits : Decimal.numerator ⟨negative, digits, .negSucc k⟩ = digits := by
      simp [Decimal.numerator]
    rw [ofDecimal, if_neg h0, hdigits, Decimal.denominator]
    dsimp only [Int.neg_negSucc, Nat.pow_eq]
    split
    · next hk => exact (nearest_tiny negative (digits_lt_quantum hk)).symm
    · rfl

theorem rank_ofDecimal (d : Decimal) :
    (ofDecimal d).rank = nearestRank d.numerator d.denominator := by
  rw [ofDecimal_eq_nearest]
  rfl

theorem negative_ofDecimal (d : Decimal) : (ofDecimal d).negative = d.negative := by
  rw [ofDecimal_eq_nearest]
  rfl

theorem rank_ofDecimal_le (d : Decimal) : (ofDecimal d).rank ≤ infinityRank := by
  rw [rank_ofDecimal]
  exact Nat.min_le_left _ _

theorem ofDecimal_padded (d : Decimal) (zeros : Nat) : ofDecimal (d.padded zeros) = ofDecimal d := by
  have hrank := nearestRank_congr (d.padded zeros).denominator_pos d.denominator_pos
    (d.numerator_padded zeros)
  rw [ofDecimal_eq_nearest, ofDecimal_eq_nearest]
  simp only [nearest, hrank]
  rfl

theorem ofDecimal_trim (d : Decimal) : ofDecimal d.trim = ofDecimal d := by
  obtain ⟨zeros, hzeros⟩ := d.exists_padded_trim
  rw [← ofDecimal_padded d.trim zeros, hzeros]

theorem isNaN_ofDecimal (d : Decimal) : (ofDecimal d).isNaN = false := by
  rw [isNaN, decide_eq_false_iff_not]
  exact Nat.not_lt_of_le (rank_ofDecimal_le d)

/-! ### Writing and reading back -/

/-- A whole number of units of `2 ^ -k`, written in units of `10 ^ -k`. -/
theorem numerator_of_units {negative : Bool} {units k scale : Nat} {e : Int} {d : Decimal}
    (he : e = -(k : Int)) (hscale : scale = Nat.pow 2 k)
    (hd : d = ⟨negative, units * Nat.pow 5 k, e⟩) : d.numerator * scale = units * d.denominator := by
  subst he hscale hd
  have hnum : (-(k : Int)).toNat = 0 := by omega
  have hden : (- -(k : Int)).toNat = k := by omega
  simp only [Decimal.numerator, Decimal.denominator, hnum, hden, Nat.pow_eq, Nat.pow_zero,
    Nat.mul_one, Nat.mul_assoc]
  rw [← Nat.mul_pow]

theorem ofDecimal_exact {x : Binary64} (h : x.isFinite = true) : ofDecimal x.exact = x := by
  have hrank := rank_lt_of_isFinite h
  have hscaled := numerator_of_units rfl quantaPerOne_eq (exact.eq_1 x)
  have hnearest := nearestRank_exact hrank x.exact.denominator_pos hscaled
  rw [ofDecimal_eq_nearest]
  simp only [nearest, hnearest]
  rfl

theorem ofDecimal_shortest {x : Binary64} (h : x.isFinite = true) (tie : Tie) :
    ofDecimal (x.shortest tie) = x := by
  unfold shortest
  split
  · next hz =>
    obtain ⟨negative, rank, hrank⟩ := x
    obtain rfl : rank = 0 := by simpa [isZero] using hz
    rfl
  · rw [ofDecimal_trim]
    cases hs : shortest? tie x with
    | none => exact ofDecimal_exact h
    | some d => exact ofDecimal_of_shortest? hs

theorem exponent_shortest {x : Binary64} (h : x.isFinite = true) {tie : Tie}
    (hdigits : (x.shortest tie).digits = 0) : (x.shortest tie).exponent = 0 := by
  have hread := ofDecimal_shortest h tie
  rw [ofDecimal, if_pos hdigits] at hread
  have hzero : x.isZero = true := hread ▸ rfl
  rw [shortest, if_pos hzero]

end Binary64
end MicroLisp
