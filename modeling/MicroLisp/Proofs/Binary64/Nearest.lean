import Mathlib.Algebra.Group.Nat.Defs
import MicroLisp.Binary64.Rounding

/-!
# Rounding a quotient

The rank to which a quotient is rounded depends on the value of the quotient alone
(`nearestRank_congr`).  A quotient that is a double is rounded to itself
(`nearestRank_exact`), one far above the doubles to infinity and one far below the
least of them to zero.
-/

namespace MicroLisp.Binary64

/-- How many quanta make up one. -/
@[irreducible]
def quantaPerOne : Nat := Nat.pow 2 1074

/-- The power of two above all finite doubles. -/
@[irreducible]
def ceiling : Nat := Nat.pow 2 1024

theorem quantaPerOne_eq : quantaPerOne = Nat.pow 2 1074 := by
  unfold quantaPerOne
  rfl

theorem ceiling_eq : ceiling = Nat.pow 2 1024 := by
  unfold ceiling
  rfl

theorem rank_lt_of_isFinite {x : Binary64} (h : x.isFinite = true) : x.rank < infinityRank := by
  simpa [isFinite] using h

/-! ### Rounding to a natural number -/

theorem roundHalfEven_mul_left {k : Nat} (hk : 0 < k) (num den : Nat) :
    roundHalfEven (k * num) (k * den) = roundHalfEven num den := by
  have htwice : 2 * (k * (num % den)) = k * (2 * (num % den)) := Nat.mul_left_comm _ _ _
  simp only [roundHalfEven, Nat.mul_div_mul_left _ _ hk, Nat.mul_mod_mul_left, htwice,
    Nat.mul_lt_mul_left hk]

theorem roundHalfEven_exact (q : Nat) {den : Nat} (h : 0 < den) :
    roundHalfEven (q * den) den = q := by
  simp only [roundHalfEven, Nat.mul_div_cancel q h, Nat.mul_mod_left, Nat.mul_zero, h, ↓reduceIte]

theorem div_le_roundHalfEven (num den : Nat) : num / den ≤ roundHalfEven num den := by
  simp only [roundHalfEven]
  split
  · exact Nat.le_refl _
  · split
    · exact Nat.le_succ _
    · exact Nat.le_add_right _ _

theorem roundHalfEven_eq_zero {num den : Nat} (h : 2 * num < den) : roundHalfEven num den = 0 := by
  have hlt : num < den := by omega
  simp only [roundHalfEven, Nat.div_eq_of_lt hlt, Nat.mod_eq_of_lt hlt, h, ↓reduceIte]

/-! ### Rounding to a rank -/

theorem nearestRank_eq (num den : Nat) :
    nearestRank num den =
      min infinityRank (((num * quantaPerOne / den).log2 - 52) * 2 ^ 52 +
        roundHalfEven (num * quantaPerOne)
          (den * 2 ^ ((num * quantaPerOne / den).log2 - 52))) := by
  unfold quantaPerOne
  rfl

theorem nearestRank_mul_left {k : Nat} (hk : 0 < k) (num den : Nat) :
    nearestRank (k * num) (k * den) = nearestRank num den := by
  simp only [nearestRank_eq, Nat.mul_assoc k, Nat.mul_div_mul_left _ _ hk,
    roundHalfEven_mul_left hk]

theorem nearestRank_congr {num den num' den' : Nat} (hd : 0 < den) (hd' : 0 < den')
    (h : num * den' = num' * den) : nearestRank num den = nearestRank num' den' := by
  rw [← nearestRank_mul_left hd' num den, ← nearestRank_mul_left hd num' den', Nat.mul_comm den' num,
    h, Nat.mul_comm num' den, Nat.mul_comm den' den]

theorem log2_mul_two_pow {m : Nat} (hm : 2 ^ 52 ≤ m) (hm' : m < 2 ^ 53) (e : Nat) :
    (m * 2 ^ e).log2 = 52 + e := by
  have hpos : 0 < 2 ^ e := Nat.two_pow_pos e
  have hne : m * 2 ^ e ≠ 0 := Nat.mul_ne_zero (by omega) (Nat.ne_of_gt hpos)
  rw [Nat.log2_eq_iff hne, Nat.add_right_comm, Nat.pow_add, Nat.pow_add]
  exact ⟨Nat.mul_le_mul_right _ hm, Nat.mul_lt_mul_of_pos_right hm' hpos⟩

/-- The shift under which a quotient is rounded splits the rank of a double. -/
theorem exists_significand (rank : Nat) :
    ∃ m, quanta rank = m * 2 ^ ((quanta rank).log2 - 52) ∧
      rank = ((quanta rank).log2 - 52) * 2 ^ 52 + m := by
  by_cases hsmall : rank < 2 ^ 52
  · have hquanta : quanta rank = rank := if_pos hsmall
    have hlog : rank.log2 - 52 = 0 := by
      by_cases h0 : rank = 0
      · rw [h0, Nat.log2_zero]
      · have hlt := (Nat.log2_lt h0).mpr hsmall
        omega
    rw [hquanta, hlog]
    exact ⟨rank, by rw [Nat.pow_zero, Nat.mul_one], by rw [Nat.zero_mul, Nat.zero_add]⟩
  · have hquanta : quanta rank = (2 ^ 52 + rank % 2 ^ 52) * 2 ^ (rank / 2 ^ 52 - 1) :=
      if_neg hsmall
    have hmod : rank % 2 ^ 52 < 2 ^ 52 := Nat.mod_lt _ (by decide)
    have hlog : (quanta rank).log2 = 52 + (rank / 2 ^ 52 - 1) := by
      rw [hquanta]
      exact log2_mul_two_pow (Nat.le_add_right _ _) (by omega) _
    refine ⟨2 ^ 52 + rank % 2 ^ 52, ?_, ?_⟩
    · rw [hlog, Nat.add_sub_cancel_left, hquanta]
    · have hdiv := Nat.div_add_mod rank (2 ^ 52)
      omega

theorem nearestRank_exact {rank num den : Nat} (hrank : rank < infinityRank) (hd : 0 < den)
    (h : num * quantaPerOne = quanta rank * den) : nearestRank num den = rank := by
  obtain ⟨m, hm, hsplit⟩ := exists_significand rank
  have hround : roundHalfEven (quanta rank * den) (den * 2 ^ ((quanta rank).log2 - 52)) = m := by
    rw [hm, Nat.mul_assoc, Nat.mul_comm _ den, ← hm]
    exact roundHalfEven_exact m (Nat.mul_pos hd (Nat.two_pow_pos _))
  rw [nearestRank_eq, h, Nat.mul_div_cancel _ hd, hround, ← hsplit]
  exact Nat.min_eq_right (Nat.le_of_lt hrank)

theorem le_log2_of_mul_le {num den low high a b : Nat} (hlow : low = Nat.pow 2 a)
    (hhigh : high = Nat.pow 2 b) (hd : 0 < den) (h : den * high ≤ num) :
    a + b ≤ (num * low / den).log2 := by
  subst hlow hhigh
  have hscaled : Nat.pow 2 (a + b) * den ≤ num * Nat.pow 2 a := by
    rw [Nat.pow_eq, Nat.add_comm, Nat.pow_add, Nat.mul_comm, ← Nat.mul_assoc]
    exact Nat.mul_le_mul_right _ h
  have hquot := (Nat.le_div_iff_mul_le hd).mpr hscaled
  have hne := Nat.ne_of_gt (Nat.lt_of_lt_of_le (Nat.two_pow_pos _) hquot)
  exact (Nat.le_log2 hne).mpr hquot

theorem nearestRank_huge {num den : Nat} (hd : 0 < den) (h : den * ceiling ≤ num) :
    nearestRank num den = infinityRank := by
  have hlog := le_log2_of_mul_le quantaPerOne_eq ceiling_eq hd h
  rw [nearestRank_eq]
  generalize num * quantaPerOne = scaled at hlog ⊢
  have hne : scaled / den ≠ 0 := by
    intro h0
    rw [h0, Nat.log2_zero] at hlog
    omega
  have hlow := Nat.log2_self_le hne
  -- the leading bit of the quotient is the fifty-third one above the shift
  have hstep : 2 ^ 52 ≤ scaled / (den * 2 ^ ((scaled / den).log2 - 52)) := by
    rw [← Nat.div_div_eq_div_mul, Nat.le_div_iff_mul_le (Nat.two_pow_pos _), ← Nat.pow_add,
      Nat.add_sub_cancel' (by omega)]
    exact hlow
  have hround := Nat.le_trans hstep (div_le_roundHalfEven _ _)
  apply Nat.min_eq_left
  simp only [infinityRank, Nat.pow_eq]
  omega

theorem nearestRank_tiny {num den : Nat} (h : 2 * (num * quantaPerOne) < den) :
    nearestRank num den = 0 := by
  have hquot : num * quantaPerOne / den = 0 := Nat.div_eq_of_lt (by omega)
  rw [nearestRank_eq, hquot, Nat.log2_zero, Nat.zero_sub, Nat.zero_mul, Nat.zero_add, Nat.pow_zero,
    Nat.mul_one, roundHalfEven_eq_zero h]
  exact Nat.min_eq_right (Nat.zero_le _)

theorem nearestRank_zero {den : Nat} (hd : 0 < den) : nearestRank 0 den = 0 := by
  have hquanta : quanta 0 = 0 := rfl
  apply nearestRank_exact (by decide) hd
  rw [hquanta, Nat.zero_mul, Nat.zero_mul]

end MicroLisp.Binary64
