import Mathlib.Tactic.Ring
import MicroLisp.Proofs.Binary64.Nearest

/-!
# Rounding and midpoints

Two neighbouring doubles are one step of their binade apart (`exists_binade`), and the
point halfway between them decides to which side a quotient is rounded; on that point
the even rank is taken (`nearestRank_le_iff`).  So rounding is monotone
(`nearestRank_mono`).
-/

namespace MicroLisp.Binary64

/-! ### Neighbouring doubles -/

theorem quanta_of_lt {rank : Nat} (h : rank < 2 ^ 52) : quanta rank = rank := if_pos h

theorem quanta_of_le {rank : Nat} (h : 2 ^ 52 ≤ rank) :
    quanta rank = (2 ^ 52 + rank % 2 ^ 52) * 2 ^ (rank / 2 ^ 52 - 1) :=
  if_neg (Nat.not_lt.mpr h)

theorem quanta_of_binade {m : Nat} (h : 2 ^ 52 ≤ m) (h' : m < 2 ^ 53) (e : Nat) :
    quanta (e * 2 ^ 52 + m) = m * 2 ^ e := by
  have hmod : 2 ^ 52 + (e * 2 ^ 52 + m) % 2 ^ 52 = m := by omega
  have hdiv : (e * 2 ^ 52 + m) / 2 ^ 52 - 1 = e := by omega
  rw [quanta_of_le (by omega), hmod, hdiv]

/-- A rank as a significand and the exponent of its binade; the next double is one step further. -/
theorem exists_binade (rank : Nat) :
    ∃ m e, quanta rank = m * 2 ^ e ∧ quanta (rank + 1) = (m + 1) * 2 ^ e ∧
      rank = e * 2 ^ 52 + m ∧ m < 2 ^ 53 ∧ (e = 0 ∨ 2 ^ 52 ≤ m) := by
  by_cases hsmall : rank < 2 ^ 52
  · refine ⟨rank, 0, ?_, ?_, by omega, by omega, Or.inl rfl⟩
    · rw [quanta_of_lt hsmall, Nat.pow_zero, Nat.mul_one]
    · rw [Nat.pow_zero, Nat.mul_one]
      by_cases hnext : rank + 1 < 2 ^ 52
      · exact quanta_of_lt hnext
      · obtain rfl : rank = 2 ^ 52 - 1 := by omega
        rfl
  · have hmod : rank % 2 ^ 52 < 2 ^ 52 := Nat.mod_lt _ (by decide)
    refine ⟨2 ^ 52 + rank % 2 ^ 52, rank / 2 ^ 52 - 1, quanta_of_le (by omega), ?_, by omega,
      by omega, Or.inr (by omega)⟩
    rw [quanta_of_le (by omega)]
    by_cases hnext : rank % 2 ^ 52 + 1 < 2 ^ 52
    · have hmod' : (rank + 1) % 2 ^ 52 = rank % 2 ^ 52 + 1 := by omega
      have hdiv' : (rank + 1) / 2 ^ 52 = rank / 2 ^ 52 := by omega
      rw [hmod', hdiv', Nat.add_assoc]
    · -- the last double of a binade is followed by the first one of the next
      have hmod' : (rank + 1) % 2 ^ 52 = 0 := by omega
      have hdiv' : (rank + 1) / 2 ^ 52 - 1 = rank / 2 ^ 52 - 1 + 1 := by omega
      have hlast : 2 ^ 52 + rank % 2 ^ 52 + 1 = 2 ^ 52 * 2 := by omega
      rw [hmod', hdiv', hlast]
      ring

theorem quanta_lt_succ (rank : Nat) : quanta rank < quanta (rank + 1) := by
  obtain ⟨m, e, hm, hsucc, -⟩ := exists_binade rank
  rw [hm, hsucc]
  exact Nat.mul_lt_mul_of_pos_right (Nat.lt_succ_self m) (Nat.two_pow_pos e)

theorem quanta_mono {a b : Nat} (h : a ≤ b) : quanta a ≤ quanta b := by
  induction h with
  | refl => exact Nat.le_refl _
  | step h ih => exact Nat.le_trans ih (Nat.le_of_lt (quanta_lt_succ _))

/-! ### Where rounding changes -/

theorem roundHalfEven_le_iff (num : Nat) {den : Nat} (hd : 0 < den) (q : Nat) :
    roundHalfEven num den ≤ q ↔
      2 * num < (2 * q + 1) * den ∨ 2 * num = (2 * q + 1) * den ∧ q % 2 = 0 := by
  have hsplit := Nat.div_add_mod num den
  have hmod := Nat.mod_lt num hd
  have hodd : (2 * q + 1) * den = 2 * (den * q) + den := by
    rw [Nat.add_mul, Nat.one_mul, Nat.mul_assoc, Nat.mul_comm q den]
  have hround : roundHalfEven num den =
      if 2 * (num % den) < den then num / den
      else if den < 2 * (num % den) then num / den + 1 else num / den + num / den % 2 := rfl
  rw [hodd, hround]
  generalize num / den = k at hsplit ⊢
  generalize num % den = t at hsplit hmod ⊢
  rcases Nat.lt_trichotomy k q with hlt | rfl | hgt
  · have hmul : den * (k + 1) ≤ den * q := Nat.mul_le_mul_left _ hlt
    rw [Nat.mul_succ] at hmul
    split_ifs
    all_goals omega
  · split_ifs
    all_goals omega
  · have hmul : den * (q + 1) ≤ den * k := Nat.mul_le_mul_left _ hgt
    rw [Nat.mul_succ] at hmul
    split_ifs
    all_goals omega

theorem quotient_lt (scaled : Nat) {den : Nat} (hd : 0 < den) :
    scaled < 2 ^ 53 * (den * 2 ^ ((scaled / den).log2 - 52)) := by
  have hlog : scaled / den < 2 ^ ((scaled / den).log2 + 1) := Nat.lt_log2_self
  have hpow : 2 ^ ((scaled / den).log2 + 1) ≤ 2 ^ (53 + ((scaled / den).log2 - 52)) :=
    Nat.pow_le_pow_right (by decide) (by omega)
  have hlt := (Nat.div_lt_iff_lt_mul hd).mp (Nat.lt_of_lt_of_le hlog hpow)
  rwa [Nat.pow_add, Nat.mul_assoc, Nat.mul_comm _ den] at hlt

theorem le_quotient (scaled : Nat) {den : Nat} (hd : 0 < den) (h : 0 < (scaled / den).log2 - 52) :
    2 ^ 52 * (den * 2 ^ ((scaled / den).log2 - 52)) ≤ scaled := by
  have hne : scaled / den ≠ 0 := by
    intro h0
    rw [h0, Nat.log2_zero] at h
    omega
  have hpow : 2 ^ 52 * 2 ^ ((scaled / den).log2 - 52) = 2 ^ (scaled / den).log2 := by
    rw [← Nat.pow_add, Nat.add_sub_cancel' (by omega)]
  have hle := (Nat.le_div_iff_mul_le hd).mp (Nat.log2_self_le hne)
  rwa [← hpow, Nat.mul_assoc, Nat.mul_comm _ den] at hle

theorem two_mul_step_le {a b : Nat} (den : Nat) (h : a < b) :
    2 * (den * 2 ^ a) ≤ den * 2 ^ b := by
  have hpow : 2 ^ (a + 1) ≤ 2 ^ b := Nat.pow_le_pow_right (by decide) h
  calc
    2 * (den * 2 ^ a) = den * 2 ^ (a + 1) := by ring
    _ ≤ den * 2 ^ b := Nat.mul_le_mul_left _ hpow

/-- The rank of a quotient before it is cut off at infinity. -/
def uncutRank (scaled den : Nat) : Nat :=
  ((scaled / den).log2 - 52) * 2 ^ 52 +
    roundHalfEven scaled (den * 2 ^ ((scaled / den).log2 - 52))

theorem uncutRank_le_iff {scaled den : Nat} (hd : 0 < den) (rank : Nat) :
    uncutRank scaled den ≤ rank ↔
      2 * scaled < (quanta rank + quanta (rank + 1)) * den ∨
        2 * scaled = (quanta rank + quanta (rank + 1)) * den ∧ rank % 2 = 0 := by
  obtain ⟨m, e, hm, hsucc, hrank, hlt, hnormal⟩ := exists_binade rank
  have hupper := quotient_lt scaled hd
  have hlower := le_quotient scaled hd
  have hmid : (quanta rank + quanta (rank + 1)) * den = (2 * m + 1) * (den * 2 ^ e) := by
    rw [hm, hsucc]
    ring
  rw [hmid, uncutRank]
  generalize (scaled / den).log2 - 52 = shift at hupper hlower ⊢
  have hround := roundHalfEven_le_iff scaled (Nat.mul_pos hd (Nat.two_pow_pos shift))
  rcases Nat.lt_trichotomy shift e with hless | rfl | hmore
  · -- the quotient lies in a binade below that of the rank
    have hstep := two_mul_step_le den hless
    have hcarry := (hround (2 ^ 53)).mpr (by omega)
    have hm' : (2 ^ 53 + 1) * (den * 2 ^ e) ≤ (2 * m + 1) * (den * 2 ^ e) :=
      Nat.mul_le_mul_right _ (by omega)
    exact iff_of_true (by omega) (by omega)
  · have hcut : shift * 2 ^ 52 + roundHalfEven scaled (den * 2 ^ shift) ≤ rank ↔
        roundHalfEven scaled (den * 2 ^ shift) ≤ m := by omega
    have heven : rank % 2 = m % 2 := by omega
    rw [hcut, hround m, heven]
  · -- the quotient lies in a binade above that of the rank
    have hstep := two_mul_step_le den hmore
    have hpos := Nat.mul_pos hd (Nat.two_pow_pos e)
    have hlow : 2 ^ 52 * (den * 2 ^ shift) ≤ scaled := hlower (by omega)
    have hleading : ¬ roundHalfEven scaled (den * 2 ^ shift) ≤ 2 ^ 52 - 1 := by
      intro hle
      have hhalf : 2 * scaled ≤ (2 ^ 53 - 1) * (den * 2 ^ shift) :=
        ((hround _).mp hle).elim Nat.le_of_lt fun h => Nat.le_of_eq h.1
      omega
    have hm' : (2 * m + 1) * (den * 2 ^ e) ≤ (2 ^ 54 - 1) * (den * 2 ^ e) :=
      Nat.mul_le_mul_right _ (by omega)
    exact iff_of_false (by omega) (by omega)

theorem nearestRank_eq_uncutRank (num den : Nat) :
    nearestRank num den = min infinityRank (uncutRank (num * quantaPerOne) den) :=
  nearestRank_eq num den

/-- A quotient is rounded to a finite rank or below exactly if it lies below the midpoint of that
double and the next one, or on it when the rank is even. -/
theorem nearestRank_le_iff {num den : Nat} (hd : 0 < den) {rank : Nat} (h : rank < infinityRank) :
    nearestRank num den ≤ rank ↔
      2 * (num * quantaPerOne) < (quanta rank + quanta (rank + 1)) * den ∨
        2 * (num * quantaPerOne) = (quanta rank + quanta (rank + 1)) * den ∧ rank % 2 = 0 := by
  rw [← uncutRank_le_iff hd, nearestRank_eq_uncutRank]
  omega

theorem le_midpoint {num den : Nat} (hd : 0 < den) {rank : Nat} (h : rank < infinityRank)
    (hle : nearestRank num den ≤ rank) :
    2 * (num * quantaPerOne) ≤ (quanta rank + quanta (rank + 1)) * den :=
  ((nearestRank_le_iff hd h).mp hle).elim Nat.le_of_lt fun hmid => Nat.le_of_eq hmid.1

theorem midpoint_le {num den : Nat} (hd : 0 < den) {rank : Nat} (h : rank < infinityRank)
    (hlt : rank < nearestRank num den) :
    (quanta rank + quanta (rank + 1)) * den ≤ 2 * (num * quantaPerOne) := by
  have hnot : ¬ nearestRank num den ≤ rank := Nat.not_le.mpr hlt
  rw [nearestRank_le_iff hd h] at hnot
  omega

theorem nearestRank_le {num den : Nat} : nearestRank num den ≤ infinityRank := Nat.min_le_left _ _

/-! ### Order -/

theorem nearestRank_mono {num den num' den' : Nat} (hd : 0 < den) (hd' : 0 < den')
    (h : num * den' ≤ num' * den) : nearestRank num den ≤ nearestRank num' den' := by
  by_cases hinf : nearestRank num' den' < infinityRank
  · rw [nearestRank_le_iff hd hinf]
    generalize hmid : quanta (nearestRank num' den') + quanta (nearestRank num' den' + 1) = mid
    have hscaled : 2 * (num * quantaPerOne) * den' ≤ 2 * (num' * quantaPerOne) * den := by
      calc
        2 * (num * quantaPerOne) * den' = 2 * quantaPerOne * (num * den') := by ring
        _ ≤ 2 * quantaPerOne * (num' * den) := Nat.mul_le_mul_left _ h
        _ = 2 * (num' * quantaPerOne) * den := by ring
    rcases (nearestRank_le_iff hd' hinf).mp (Nat.le_refl _) with hlt | ⟨heq, heven⟩
    · left
      rw [hmid] at hlt
      apply Nat.lt_of_mul_lt_mul_right (a := den')
      calc
        2 * (num * quantaPerOne) * den' ≤ 2 * (num' * quantaPerOne) * den := hscaled
        _ < mid * den' * den := Nat.mul_lt_mul_of_pos_right hlt hd
        _ = mid * den * den' := by ring
    · rw [hmid] at heq
      have hle : 2 * (num * quantaPerOne) ≤ mid * den := by
        apply Nat.le_of_mul_le_mul_right _ hd'
        calc
          2 * (num * quantaPerOne) * den' ≤ 2 * (num' * quantaPerOne) * den := hscaled
          _ = mid * den * den' := by rw [heq]; ring
      rcases Nat.lt_or_eq_of_le hle with hlt | heq'
      · exact Or.inl hlt
      · exact Or.inr ⟨heq', heven⟩
  · exact Nat.le_trans nearestRank_le (Nat.le_of_not_lt hinf)

theorem nearestRank_eq_of_between {num den : Nat} (hd : 0 < den) {rank : Nat}
    (hrank : rank < infinityRank)
    (hupper : 2 * (num * quantaPerOne) < (quanta rank + quanta (rank + 1)) * den)
    (hlower : ∀ r, rank = r + 1 → (quanta r + quanta rank) * den < 2 * (num * quantaPerOne)) :
    nearestRank num den = rank := by
  have hle := (nearestRank_le_iff hd hrank).mpr (Or.inl hupper)
  cases rank with
  | zero => omega
  | succ r =>
    have hmid := hlower r rfl
    have hgt : ¬ nearestRank num den ≤ r := by
      rw [nearestRank_le_iff hd (by omega)]
      omega
    omega

end MicroLisp.Binary64
