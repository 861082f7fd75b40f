import MicroLisp.Json.Number
import MicroLisp.Proofs.Binary64.Error
import MicroLisp.Proofs.Binary64.Precision

/-!
# Scaling by powers of ten

A decimal is scaled in up to three roundings: its digits, the power of ten, and the product or
quotient.  Each of them is a factor of `Close`, and `Close` of two or three steps is a distance of
ranks (`scale?_apart`).  The limits of the format are computed; what lies between follows by
monotonicity.
-/

namespace MicroLisp.Json.Number
open Binary64

variable {s t k : Nat}

/-- The greatest power of ten among the doubles. -/
@[irreducible]
def greatestPower : Nat := Nat.pow 10 308

theorem greatestPower_eq : greatestPower = Nat.pow 10 308 := by
  unfold greatestPower
  rfl

/-! ### Whole numbers as doubles -/

theorem two_pow_eq_mul_self {n k j : Nat} (h : n = Nat.pow 2 k) (hj : j = k + k) :
    Nat.pow 2 j = n * n := by
  rw [h, hj, Nat.pow_eq, Nat.pow_eq, Nat.pow_add]

theorem le_quantaPerOne : 2 ^ 52 ≤ quantaPerOne := by
  have hle : ∀ {n k : Nat}, n = Nat.pow 2 k → 52 ≤ k → 2 ^ 52 ≤ n := by
    rintro n k rfl hk
    exact Nat.pow_le_pow_right (by decide) hk
  exact hle quantaPerOne_eq (by decide)

theorem finite_tenPow (h : k ≤ 308) : nearestRank (10 ^ k) 1 < infinityRank := by
  -- with a variable for the exponent the power is evaluated nowhere but in the decision
  obtain ⟨m, hm, hmax⟩ : ∃ m, m = 308 ∧ nearestRank (10 ^ m) 1 < infinityRank :=
    ⟨308, rfl, by decide +kernel⟩
  have hle : 10 ^ k * 1 ≤ 10 ^ m * 1 :=
    Nat.mul_le_mul_right 1 (Nat.pow_le_pow_right (by decide) (hm ▸ h))
  exact Nat.lt_of_le_of_lt (nearestRank_mono Nat.one_pos Nat.one_pos hle) hmax

theorem finite_digits (h : s ≤ 10 ^ 17) : nearestRank s 1 < infinityRank :=
  Nat.lt_of_le_of_lt (nearestRank_mono Nat.one_pos Nat.one_pos (Nat.mul_le_mul_right 1 h))
    (finite_tenPow (by decide))

theorem close_ofNat (h : nearestRank s 1 < infinityRank) :
    Close 1 s 1 (quanta (ofNat s).rank) quantaPerOne := by
  by_cases hsmall : s ≤ 2 ^ 53
  · exact (close_whole hsmall).add 1
  · apply close_nearestRank Nat.one_pos _ h
    calc
      2 ^ 52 * 1 ≤ quantaPerOne * 1 := Nat.mul_le_mul_right 1 le_quantaPerOne
      _ = 1 * quantaPerOne := by ring
      _ ≤ s * quantaPerOne := Nat.mul_le_mul_right _ (by omega)

/-! ### Products and quotients -/

theorem rank_mul (s t : Nat) : ((ofNat s).mul (ofNat t)).rank =
    nearestRank (quanta (ofNat s).rank * quanta (ofNat t).rank) (quantaPerOne * quantaPerOne) := by
  obtain ⟨j, hj⟩ : ∃ j, j = 2148 := ⟨2148, rfl⟩
  have hsquare := two_pow_eq_mul_self quantaPerOne_eq (hj.trans (by decide))
  unfold mul nearest
  rw [← hj, hsquare]

theorem quantaPerOne_le_ofNat (h : 0 < t) : quantaPerOne ≤ quanta (ofNat t).rank := by
  have hone : quanta (nearestRank 1 1) = 1 * quantaPerOne := quanta_whole (by decide)
  have hmono : quanta (nearestRank 1 1) ≤ quanta (nearestRank t 1) :=
    quanta_mono (nearestRank_mono Nat.one_pos Nat.one_pos (Nat.mul_le_mul_right 1 h))
  rw [hone, Nat.one_mul] at hmono
  exact hmono

theorem quanta_ofNat_pos (h : 0 < t) : 0 < quanta (ofNat t).rank :=
  Nat.lt_of_lt_of_le quantaPerOne_pos (quantaPerOne_le_ofNat h)

variable {j l a b : Nat}

theorem close_product (h : Close j s 1 a quantaPerOne) (h' : Close l t 1 b quantaPerOne) :
    Close (j + l) (s * t) 1 (a * b) (quantaPerOne * quantaPerOne) := by
  have hmul := h.mul h'
  rwa [Nat.mul_one] at hmul

theorem close_quotient {q : Nat} (hb : 0 < b) (h : Close j s q a quantaPerOne)
    (h' : Close l t 1 b quantaPerOne) : Close (j + l) s (q * t) a b := by
  have hmul := h.mul h'.inv
  rw [Nat.mul_one] at hmul
  have hcancel : Close 0 (a * quantaPerOne) (quantaPerOne * b) a b := close_of_eq (by ring)
  exact Close.trans (l := 0) (Nat.mul_pos quantaPerOne_pos hb) hmul hcancel

/-! ### Powers of ten -/

theorem quanta_tenPow (h : k ≤ 22) : quanta (ofNat (10 ^ k)).rank = 10 ^ k * quantaPerOne := by
  have hall : ∀ k < 23, quanta (ofNat (10 ^ k)).rank = 10 ^ k * quantaPerOne := by
    unfold quantaPerOne
    decide +kernel
  exact hall k (Nat.lt_succ_of_le h)

theorem close_tenPow (h : k ≤ 308) : Close 1 (10 ^ k) 1 (quanta (ofNat (10 ^ k)).rank) quantaPerOne :=
  close_ofNat (finite_tenPow h)

theorem close_tenPow_exact (h : k ≤ 22) :
    Close 0 (10 ^ k) 1 (quanta (ofNat (10 ^ k)).rank) quantaPerOne :=
  close_of_eq (by rw [quanta_tenPow h, Nat.mul_one])

/-! ### The steps of scaling -/

theorem scaleUp?_eq {y : Binary64} (hk : k ≤ 308) (h : scaleUp? (ofNat s) k = some y) :
    y = (ofNat s).mul (ofNat (10 ^ k)) ∧ y.isFinite = true := by
  simp only [scaleUp?, hk, ↓reduceIte, Nat.pow_eq] at h
  split at h
  · next hfinite =>
    obtain rfl := Option.some.inj h
    exact ⟨rfl, hfinite⟩
  · cases h

theorem scaleDown_eq (x : Binary64) (hk : k ≤ 308) : scaleDown x k = x.div (ofNat (10 ^ k)) := by
  rw [scaleDown, dif_pos hk]
  rfl

theorem scaleDown_eq_step (x : Binary64) (hk : 308 < k) :
    scaleDown x k =
      if x.isZero then x else scaleDown (x.div (ofNat greatestPower)) (k - 308) := by
  rw [scaleDown, dif_neg (Nat.not_le.mpr hk), ← greatestPower_eq]

def Apart (n r r' : Nat) : Prop := r ≤ r' + n ∧ r' ≤ r + n

theorem Apart.mono {n m r r' : Nat} (h : Apart n r r') (hnm : n ≤ m) : Apart m r r' := by
  unfold Apart at h ⊢
  omega

theorem apart_two {num den num' den' : Nat} (hd : 0 < den) (hd' : 0 < den')
    (h : Close 2 num den num' den') : Apart 2 (nearestRank num' den') (nearestRank num den) :=
  ⟨h.nearestRank_le_two hd hd', h.symm.nearestRank_le_two hd' hd⟩

theorem apart_three {num den num' den' : Nat} (hd : 0 < den) (hd' : 0 < den')
    (h : Close 3 num den num' den') : Apart 3 (nearestRank num' den') (nearestRank num den) :=
  ⟨h.nearestRank_le_three hd hd', h.symm.nearestRank_le_three hd' hd⟩

theorem close_digits (h : s ≤ 10 ^ 17) : Close 1 s 1 (quanta (ofNat s).rank) quantaPerOne :=
  close_ofNat (finite_digits h)

theorem square_pos : 0 < quantaPerOne * quantaPerOne := Nat.mul_pos quantaPerOne_pos quantaPerOne_pos

theorem tenPow_pos (k : Nat) : 0 < 10 ^ k := Nat.pow_pos (by decide)

theorem apart_mul (hs : s ≤ 10 ^ 17) (hk : k ≤ 308) :
    Apart 2 ((ofNat s).mul (ofNat (10 ^ k))).rank (nearestRank (s * 10 ^ k) 1) := by
  rw [rank_mul]
  exact apart_two Nat.one_pos square_pos (close_product (close_digits hs) (close_tenPow hk))

theorem apart_div (hs : s ≤ 10 ^ 17) (hk : k ≤ 308) :
    Apart 2 ((ofNat s).div (ofNat (10 ^ k))).rank (nearestRank s (10 ^ k)) := by
  have hclose := close_quotient (quanta_ofNat_pos (tenPow_pos k)) (close_digits hs) (close_tenPow hk)
  rw [Nat.one_mul] at hclose
  exact apart_two (tenPow_pos k) (quanta_ofNat_pos (tenPow_pos k)) hclose

theorem mul_exact (hs : s ≤ 2 ^ 53) (hk : k ≤ 22) :
    ((ofNat s).mul (ofNat (10 ^ k))).rank = nearestRank (s * 10 ^ k) 1 := by
  rw [rank_mul]
  exact ((close_product (close_whole hs) (close_tenPow_exact hk)).nearestRank_eq Nat.one_pos
    square_pos).symm

theorem div_exact (hs : s ≤ 2 ^ 53) (hk : k ≤ 22) :
    ((ofNat s).div (ofNat (10 ^ k))).rank = nearestRank s (10 ^ k) := by
  have hclose := close_quotient (quanta_ofNat_pos (tenPow_pos k)) (close_whole hs)
    (close_tenPow_exact hk)
  rw [Nat.one_mul] at hclose
  exact (hclose.nearestRank_eq (tenPow_pos k) (quanta_ofNat_pos (tenPow_pos k))).symm

/-! ### Down -/

theorem rank_div_le {x : Binary64} (hx : x.rank < infinityRank) (ht : 0 < t) :
    (x.div (ofNat t)).rank ≤ x.rank := by
  have hself : nearestRank (quanta x.rank) quantaPerOne = x.rank :=
    nearestRank_exact hx quantaPerOne_pos rfl
  have hle := nearestRank_mono (quanta_ofNat_pos ht) quantaPerOne_pos
    (Nat.mul_le_mul_left (quanta x.rank) (quantaPerOne_le_ofNat ht))
  rw [hself] at hle
  exact hle

theorem of_eq_tenPow {n : Nat} (h : n = Nat.pow 10 k) (hk : k ≤ 308) :
    0 < n ∧ nearestRank n 1 < infinityRank := by
  subst h
  exact ⟨tenPow_pos k, finite_tenPow hk⟩

theorem greatestPower_pos : 0 < greatestPower := (of_eq_tenPow greatestPower_eq (by decide)).1

theorem finite_greatestPower : nearestRank greatestPower 1 < infinityRank :=
  (of_eq_tenPow greatestPower_eq (by decide)).2

theorem rank_scaleDown_le {x : Binary64} (hx : x.rank < infinityRank) (k : Nat) :
    (scaleDown x k).rank ≤ x.rank := by
  fun_induction scaleDown x k with
  | case1 x k hk => exact rank_div_le hx (tenPow_pos k)
  | case2 x k hk hz => exact Nat.le_refl _
  | case3 x k hk hz ih =>
    rw [← greatestPower_eq] at ih ⊢
    have hle := rank_div_le hx greatestPower_pos
    exact Nat.le_trans (ih (Nat.lt_of_le_of_lt hle hx)) hle

theorem first_normal (hs : 3 ≤ s) :
    2 ^ 52 * quanta (ofNat greatestPower).rank ≤ quanta (ofNat s).rank * quantaPerOne := by
  have hbase : 2 ^ 52 * quanta (ofNat greatestPower).rank ≤
      quanta (nearestRank 3 1) * quantaPerOne := by
    unfold greatestPower quantaPerOne
    decide +kernel
  have hmono : quanta (nearestRank 3 1) ≤ quanta (nearestRank s 1) :=
    quanta_mono (nearestRank_mono Nat.one_pos Nat.one_pos (Nat.mul_le_mul_right 1 hs))
  exact Nat.le_trans hbase (Nat.mul_le_mul_right _ hmono)

theorem first_finite (hs : s ≤ 10 ^ 17) :
    nearestRank (quanta (ofNat s).rank) (quanta (ofNat greatestPower).rank) < infinityRank :=
  Nat.lt_of_le_of_lt (rank_div_le (finite_digits hs) greatestPower_pos) (finite_digits hs)

theorem close_first (hs : 3 ≤ s) (hs' : s ≤ 10 ^ 17)
    (h : Close j s 1 (quanta (ofNat s).rank) quantaPerOne) :
    Close (j + 2) s greatestPower (quanta ((ofNat s).div (ofNat greatestPower)).rank)
      quantaPerOne := by
  have hpos := quanta_ofNat_pos greatestPower_pos
  have hquotient := close_quotient hpos h (close_ofNat finite_greatestPower)
  have hround := close_nearestRank hpos (first_normal hs) (first_finite hs')
  rw [Nat.one_mul] at hquotient
  have hfirst := hquotient.trans hpos hround
  exact hfirst

theorem close_second (hs : 3 ≤ s) (hs' : s ≤ 10 ^ 17) (hk : k ≤ 22)
    (h : Close j s 1 (quanta (ofNat s).rank) quantaPerOne) :
    Close (j + 2) s (greatestPower * 10 ^ k)
      (quanta ((ofNat s).div (ofNat greatestPower)).rank) (quanta (ofNat (10 ^ k)).rank) := by
  have hfirst := close_first hs hs' h
  have hsecond := close_quotient (quanta_ofNat_pos (tenPow_pos k)) hfirst (close_tenPow_exact hk)
  exact hsecond

/-- Of the least numbers the first quotients are subnormal, and checked one by one. -/
theorem apart_second_small (hs : s < 3) (hk : k < 17) :
    Apart 2
      (((ofNat s).div (ofNat greatestPower)).div (ofNat (10 ^ k))).rank
      (nearestRank s (greatestPower * 10 ^ k)) := by
  have hall : ∀ s < 3, ∀ k < 17,
      (((ofNat s).div (ofNat greatestPower)).div (ofNat (10 ^ k))).rank ≤
          nearestRank s (greatestPower * 10 ^ k) + 2 ∧
        nearestRank s (greatestPower * 10 ^ k) ≤
          (((ofNat s).div (ofNat greatestPower)).div (ofNat (10 ^ k))).rank + 2 := by
    unfold greatestPower
    decide +kernel
  exact hall s hs k hk

theorem tenPow_split {n i j : Nat} (h : n = Nat.pow 10 i) (hk : k = i + j) :
    n * 10 ^ j = 10 ^ k := by
  rw [h, hk, Nat.pow_eq, Nat.pow_add]

theorem scaleDown_eq_twice (hs : 0 < s) (hk : 308 < k) (hk' : k ≤ 616) :
    scaleDown (ofNat s) k =
      ((ofNat s).div (ofNat greatestPower)).div (ofNat (10 ^ (k - 308))) := by
  have hne : ¬ (ofNat s).isZero = true := by
    intro hz
    have hpos := quanta_ofNat_pos hs
    simp only [isZero, decide_eq_true_eq] at hz
    rw [hz] at hpos
    cases hpos
  rw [scaleDown_eq_step _ hk, if_neg hne, scaleDown_eq _ (by omega)]

/-- Far down the first of two divisions adds one rounding, and a long numeral another one. -/
theorem scaleDown_apart (hs : s ≤ 10 ^ 17) (hk : k ≤ 324) :
    Apart 3 (scaleDown (ofNat s) k).rank (nearestRank s (10 ^ k)) ∧
      (k ≤ 308 ∨ s ≤ 2 ^ 53 → Apart 2 (scaleDown (ofNat s) k).rank (nearestRank s (10 ^ k))) := by
  by_cases hnear : k ≤ 308
  · have htwo := apart_div hs hnear
    rw [← scaleDown_eq _ hnear] at htwo
    exact ⟨htwo.mono (by decide), fun _ => htwo⟩
  · have hsplit : greatestPower * 10 ^ (k - 308) = 10 ^ k := tenPow_split greatestPower_eq (by omega)
    have hfinite : (ofNat s).rank < infinityRank := finite_digits hs
    have hle : (scaleDown (ofNat s) k).rank ≤ nearestRank s 1 := rank_scaleDown_le hfinite k
    rcases Nat.eq_zero_or_pos s with hzero | hpos
    · have htwo : Apart 2 (scaleDown (ofNat s) k).rank (nearestRank s (10 ^ k)) := by
        rw [hzero, nearestRank_zero Nat.one_pos] at hle
        rw [hzero, nearestRank_zero (tenPow_pos k)]
        exact ⟨by omega, Nat.zero_le _⟩
      exact ⟨htwo.mono (by decide), fun _ => htwo⟩
    rw [scaleDown_eq_twice hpos (by omega) (by omega), ← hsplit]
    by_cases hsmall : s < 3
    · have htwo := apart_second_small hsmall (k := k - 308) (by omega)
      exact ⟨htwo.mono (by decide), fun _ => htwo⟩
    · have hd := Nat.mul_pos greatestPower_pos (tenPow_pos (k - 308))
      have hd' := quanta_ofNat_pos (tenPow_pos (k - 308))
      have hk22 : k - 308 ≤ 22 := by omega
      constructor
      · have hthree := close_second (Nat.le_of_not_lt hsmall) hs hk22 (close_digits hs)
        exact apart_three hd hd' hthree
      · intro hshort
        have hwhole : s ≤ 2 ^ 53 := hshort.resolve_left hnear
        have htwo := close_second (Nat.le_of_not_lt hsmall) hs hk22 (close_whole hwhole)
        exact apart_two hd hd' htwo

/-! ### Up -/

/-- Half a step above the greatest double. -/
@[irreducible]
def limit : Nat := (Nat.pow 2 54 - 1) * Nat.pow 2 970

theorem lt_limit (h : nearestRank s 1 < infinityRank) : s < limit := by
  have hsum : quanta (infinityRank - 1) + quanta (infinityRank - 1 + 1) =
      2 * (limit * quantaPerOne) := by
    unfold limit quantaPerOne
    decide +kernel
  have hodd : (infinityRank - 1) % 2 = 1 := by decide +kernel
  have hlast : infinityRank - 1 < infinityRank := by decide +kernel
  have hmid := (nearestRank_le_iff Nat.one_pos hlast).mp (Nat.le_sub_one_of_lt h)
  rw [hsum, Nat.mul_one] at hmid
  apply Nat.lt_of_mul_lt_mul_right (a := quantaPerOne)
  omega

theorem limit_le_tenPow {k : Nat} (h : 309 ≤ k) : limit ≤ 10 ^ k := by
  obtain ⟨m, hm, hbase⟩ : ∃ m, m = 309 ∧ limit ≤ 10 ^ m :=
    ⟨309, rfl, by unfold limit; decide +kernel⟩
  exact Nat.le_trans hbase (Nat.pow_le_pow_right (by decide) (hm ▸ h))

/-- The greatest number of at most seventeen digits that is below the limit when scaled. -/
def greatestDigits (k : Nat) : Nat := min (10 ^ 17) ((limit - 1) / 10 ^ k)

theorem le_greatestDigits (hs : s ≤ 10 ^ 17) (h : nearestRank (s * 10 ^ k) 1 < infinityRank) :
    s ≤ greatestDigits k := by
  have hlt := lt_limit h
  rw [greatestDigits, Nat.le_min, Nat.le_div_iff_mul_le (tenPow_pos k)]
  refine ⟨hs, ?_⟩
  omega

theorem product_mono {t j : Nat} (h : s ≤ t) (h' : k ≤ j) :
    ((ofNat s).mul (ofNat (10 ^ k))).rank ≤ ((ofNat t).mul (ofNat (10 ^ j))).rank := by
  have hmono {m n : Nat} (h : m ≤ n) : quanta (nearestRank m 1) ≤ quanta (nearestRank n 1) :=
    quanta_mono (nearestRank_mono Nat.one_pos Nat.one_pos (Nat.mul_le_mul_right 1 h))
  rw [rank_mul, rank_mul]
  exact nearestRank_mono square_pos square_pos
    (Nat.mul_le_mul_right _ (Nat.mul_le_mul (hmono h) (hmono (Nat.pow_le_pow_right (by decide) h'))))

/-- Roundings do not lead beyond the greatest double, except from the one numeral of seventeen digits
that lies between that double and the limit. -/
theorem greatest_finite (hk : k < 309) :
    k ≤ 290 ∧ ((ofNat (10 ^ 17)).mul (ofNat (10 ^ 290))).rank < infinityRank ∨
      k = 292 ∧ greatestDigits k = 17976931348623158 ∧
        ((ofNat 17976931348623157).mul (ofNat (10 ^ k))).rank < infinityRank ∨
      ((ofNat (greatestDigits k)).mul (ofNat (10 ^ k))).rank < infinityRank := by
  have hall : ∀ j < 18,
      j = 1 ∧ greatestDigits (291 + j) = 17976931348623158 ∧
          ((ofNat 17976931348623157).mul (ofNat (10 ^ (291 + j)))).rank < infinityRank ∨
        ((ofNat (greatestDigits (291 + j))).mul (ofNat (10 ^ (291 + j)))).rank < infinityRank := by
    unfold greatestDigits limit
    decide +kernel
  by_cases hsmall : k ≤ 290
  · exact Or.inl ⟨hsmall, by decide +kernel⟩
  · obtain ⟨j, rfl⟩ : ∃ j, k = 291 + j := ⟨k - 291, by omega⟩
    exact Or.inr ((hall j (by omega)).imp_left fun ⟨hj, h⟩ => ⟨by omega, h⟩)

theorem product_finite (hs : s ≤ 10 ^ 17) (hk : k ≤ 308)
    (h : nearestRank (s * 10 ^ k) 1 < infinityRank) (hlast : k = 292 → s ≠ 17976931348623158) :
    ((ofNat s).mul (ofNat (10 ^ k))).rank < infinityRank := by
  have hle := le_greatestDigits hs h
  rcases greatest_finite (Nat.lt_succ_of_le hk) with
    ⟨hsmall, hfinite⟩ | ⟨h292, hdigits, hfinite⟩ | hfinite
  · exact Nat.lt_of_le_of_lt (product_mono hs hsmall) hfinite
  · have hne := hlast h292
    have hle' : s ≤ 17976931348623157 := by omega
    exact Nat.lt_of_le_of_lt (product_mono hle' (Nat.le_refl k)) hfinite
  · exact Nat.lt_of_le_of_lt (product_mono hle (Nat.le_refl k)) hfinite

/-! ### Scaling a decimal -/

theorem rank_ofDecimal_ofNat (negative : Bool) (s k : Nat) :
    (Binary64.ofDecimal ⟨negative, s, .ofNat k⟩).rank = nearestRank (s * 10 ^ k) 1 := by
  have hden : Decimal.denominator ⟨negative, s, .ofNat k⟩ = 1 := by simp [Decimal.denominator]
  rw [rank_ofDecimal, hden]
  rfl

theorem rank_ofDecimal_negSucc (negative : Bool) (s k : Nat) :
    (Binary64.ofDecimal ⟨negative, s, .negSucc k⟩).rank = nearestRank s (10 ^ (k + 1)) := by
  have hnum : Decimal.numerator ⟨negative, s, .negSucc k⟩ = s := by simp [Decimal.numerator]
  rw [rank_ofDecimal, hnum]
  rfl

variable {d : Decimal} {y : Binary64}

/-- Scaling rounds at each step, and so misses the nearest double by a few ranks at most. -/
theorem scale?_apart (hs : d.digits ≤ 10 ^ 17) (hlow : -324 ≤ d.exponent) (hhigh : d.exponent ≤ 308)
    (h : scale? (ofNat d.digits) d.exponent = some y) :
    y.isFinite = true ∧ Apart 3 y.rank (Binary64.ofDecimal d).rank ∧
      (-308 ≤ d.exponent ∨ d.digits ≤ 2 ^ 53 → Apart 2 y.rank (Binary64.ofDecimal d).rank) ∧
      (d.digits ≤ 2 ^ 53 → -22 ≤ d.exponent → d.exponent ≤ 22 →
        y.rank = (Binary64.ofDecimal d).rank) := by
  obtain ⟨negative, s, e⟩ := d
  dsimp only at hs hlow hhigh h ⊢
  cases e with
  | ofNat k =>
    have hk : k ≤ 308 := Int.ofNat_le.mp hhigh
    obtain ⟨rfl, hfinite⟩ := scaleUp?_eq hk h
    have htwo := apart_mul hs hk
    rw [rank_ofDecimal_ofNat]
    refine ⟨hfinite, htwo.mono (by decide), fun _ => htwo, fun hwhole _ hk22 => ?_⟩
    exact mul_exact hwhole (Int.ofNat_le.mp hk22)
  | negSucc k =>
    have hy : scaleDown (ofNat s) (k + 1) = y := Option.some.inj h
    obtain ⟨hthree, htwo⟩ := scaleDown_apart hs (k := k + 1) (by omega)
    have hdigits : (ofNat s).rank < infinityRank := finite_digits hs
    have hfinite : (scaleDown (ofNat s) (k + 1)).rank < infinityRank :=
      Nat.lt_of_le_of_lt (rank_scaleDown_le hdigits _) hdigits
    rw [hy] at hthree htwo hfinite
    rw [rank_ofDecimal_negSucc]
    refine ⟨decide_eq_true hfinite, hthree, fun hshort => htwo (hshort.imp_left fun _ => by omega),
      fun hwhole hk22 _ => ?_⟩
    rw [← hy, scaleDown_eq _ (by omega)]
    exact div_exact hwhole (by omega)

theorem exponent_le_of_finite {d : Decimal} (hfinite : (Binary64.ofDecimal d).isFinite = true)
    (h : d.digits ≠ 0) : d.exponent ≤ 308 := by
  obtain ⟨negative, digits, exponent⟩ := d
  cases exponent with
  | ofNat k =>
    simp only [isFinite, rank_ofDecimal_ofNat, decide_eq_true_eq] at hfinite
    by_contra hlarge
    have hk : 309 ≤ k := by
      simp only [Int.ofNat_eq_natCast] at hlarge
      omega
    have hlt := lt_limit hfinite
    have hle : 1 * 10 ^ k ≤ digits * 10 ^ k := Nat.mul_le_mul_right _ (Nat.pos_of_ne_zero h)
    have hlimit := limit_le_tenPow hk
    omega
  | negSucc k => exact Int.le_trans (Int.le_of_lt (Int.negSucc_lt_zero k)) (by decide)

theorem exists_scale? (hs : d.digits ≤ 10 ^ 17) (hhigh : d.exponent ≤ 308)
    (hfinite : (Binary64.ofDecimal d).isFinite = true)
    (hlast : d.exponent = 292 → d.digits ≠ 17976931348623158) :
    ∃ y, scale? (ofNat d.digits) d.exponent = some y := by
  obtain ⟨negative, s, e⟩ := d
  cases e with
  | ofNat k =>
    have hk : k ≤ 308 := Int.ofNat_le.mp hhigh
    simp only [isFinite, rank_ofDecimal_ofNat, decide_eq_true_eq] at hfinite
    have hproduct := product_finite hs hk hfinite fun hk292 => hlast (by rw [hk292]; rfl)
    refine ⟨(ofNat s).mul (ofNat (10 ^ k)), ?_⟩
    simp only [scale?, scaleUp?, hk, ↓reduceIte, Nat.pow_eq, isFinite, hproduct, decide_true]
  | negSucc k => exact ⟨_, rfl⟩

/-! ### Nothing but finite doubles -/

theorem gather_le {ds : List Char} {start : Nat} (h : start ≤ maxSignificand) :
    (gather start ds).1 ≤ maxSignificand := by
  induction ds generalizing start with
  | nil => exact h
  | cons d ds ih =>
    simp only [gather]
    split
    · next hnext => exact ih hnext
    · exact h

theorem isFinite_of_scale? {x y : Binary64} (hx : x.isFinite = true) {e : Int}
    (h : scale? x e = some y) : y.isFinite = true := by
  cases e with
  | ofNat k =>
    simp only [scale?, scaleUp?] at h
    split at h
    · split at h
      · next hfinite => exact Option.some.inj h ▸ hfinite
      · cases h
    · split at h
      · exact Option.some.inj h ▸ hx
      · cases h
  | negSucc k =>
    have hle := rank_scaleDown_le (rank_lt_of_isFinite hx) (k + 1)
    rw [← Option.some.inj h]
    exact decide_eq_true (Nat.lt_of_le_of_lt hle (rank_lt_of_isFinite hx))

/-- A number that is not refused is never read as an infinity. -/
theorem isFinite_of_toBinary64? {n : Number} {x : Binary64} (h : n.toBinary64? = some x) :
    x.isFinite = true := by
  obtain ⟨y, hy, rfl⟩ := Option.map_eq_some_iff.mp h
  have hle : (gather (gather 0 n.whole).1 (n.fraction.getD [])).1 ≤ 10 ^ 20 :=
    Nat.le_trans (gather_le (gather_le (Nat.zero_le _))) (by decide)
  have hrank := Nat.lt_of_le_of_lt
    (nearestRank_mono Nat.one_pos Nat.one_pos (Nat.mul_le_mul_right 1 hle)) (finite_tenPow (by decide))
  have hfinite := isFinite_of_scale? (decide_eq_true hrank) hy
  exact hfinite

end MicroLisp.Json.Number
