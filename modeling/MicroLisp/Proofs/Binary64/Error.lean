import MicroLisp.Proofs.Binary64.Midpoint

/-!
# Errors of rounding

One rounding changes a quotient that is not below the normal doubles by a factor of at
most `1 + 2 ^ -53` (`close_nearestRank`).  Such factors multiply along products and
quotients, and two of them move the double that is nearest in the end by two ranks at
most, three of them by three (`nearestRank_le_add`).
-/

namespace MicroLisp.Binary64

/-- Two quotients that differ by a factor of at most `(1 + 2 ^ -53) ^ k`. -/
structure Close (k num den num' den' : Nat) : Prop where
  le : (2 ^ 53) ^ k * (num * den') ≤ (2 ^ 53 + 1) ^ k * (num' * den)
  ge : (2 ^ 53) ^ k * (num' * den) ≤ (2 ^ 53 + 1) ^ k * (num * den')

variable {k l s a b c d a' b' c' d' : Nat}

/-! ### Factors -/

theorem Close.symm (h : Close k a b a' b') : Close k a' b' a b := ⟨h.ge, h.le⟩

theorem close_of_eq (h : a * b' = a' * b) : Close 0 a b a' b' where
  le := by rw [h, Nat.pow_zero, Nat.pow_zero]
  ge := by rw [h, Nat.pow_zero, Nat.pow_zero]

theorem Close.inv (h : Close k a b a' b') : Close k b a b' a' where
  le := by
    rw [Nat.mul_comm b a', Nat.mul_comm b' a]
    exact h.ge
  ge := by
    rw [Nat.mul_comm b' a, Nat.mul_comm b a']
    exact h.le

theorem pow_mul_le {n m x y z w : Nat} (h : n ^ k * x ≤ m ^ k * y) (h' : n ^ l * z ≤ m ^ l * w) :
    n ^ (k + l) * (x * z) ≤ m ^ (k + l) * (y * w) := by
  calc
    n ^ (k + l) * (x * z) = n ^ k * x * (n ^ l * z) := by ring
    _ ≤ m ^ k * y * (m ^ l * w) := Nat.mul_le_mul h h'
    _ = m ^ (k + l) * (y * w) := by ring

theorem Close.mul (h : Close k a b a' b') (h' : Close l c d c' d') :
    Close (k + l) (a * c) (b * d) (a' * c') (b' * d') where
  le := by
    rw [Nat.mul_mul_mul_comm a c, Nat.mul_mul_mul_comm a' c']
    exact pow_mul_le h.le h'.le
  ge := by
    rw [Nat.mul_mul_mul_comm a c, Nat.mul_mul_mul_comm a' c']
    exact pow_mul_le h.ge h'.ge

theorem pow_mul_le_trans {n m x y x' y' x'' y'' : Nat} (hy' : 0 < y')
    (h : n ^ k * (x * y') ≤ m ^ k * (x' * y)) (h' : n ^ l * (x' * y'') ≤ m ^ l * (x'' * y')) :
    n ^ (k + l) * (x * y'') ≤ m ^ (k + l) * (x'' * y) := by
  apply Nat.le_of_mul_le_mul_right _ hy'
  calc
    n ^ (k + l) * (x * y'') * y' = n ^ l * y'' * (n ^ k * (x * y')) := by ring
    _ ≤ n ^ l * y'' * (m ^ k * (x' * y)) := Nat.mul_le_mul_left _ h
    _ = m ^ k * y * (n ^ l * (x' * y'')) := by ring
    _ ≤ m ^ k * y * (m ^ l * (x'' * y')) := Nat.mul_le_mul_left _ h'
    _ = m ^ (k + l) * (x'' * y) * y' := by ring

theorem Close.trans (hb' : 0 < b') (h : Close k a b a' b') (h' : Close l a' b' c d) :
    Close (k + l) a b c d where
  le := pow_mul_le_trans hb' h.le h'.le
  ge := by
    have hswap := pow_mul_le_trans hb' h'.ge h.ge
    rwa [Nat.add_comm] at hswap

theorem pow_mul_le_add {n m x y : Nat} (hnm : n ≤ m) (h : n ^ k * x ≤ m ^ k * y) (j : Nat) :
    n ^ (k + j) * x ≤ m ^ (k + j) * y := by
  calc
    n ^ (k + j) * x = n ^ j * (n ^ k * x) := by ring
    _ ≤ m ^ j * (m ^ k * y) := Nat.mul_le_mul (Nat.pow_le_pow_left hnm j) h
    _ = m ^ (k + j) * y := by ring

theorem Close.add (h : Close k a b a' b') (j : Nat) : Close (k + j) a b a' b' where
  le := pow_mul_le_add (Nat.le_succ _) h.le j
  ge := pow_mul_le_add (Nat.le_succ _) h.ge j

/-! ### One rounding -/

theorem le_nearestRank_of_normal {num den : Nat} (hd : 0 < den)
    (hnormal : 2 ^ 52 * den ≤ num * quantaPerOne) : 2 ^ 52 ≤ nearestRank num den := by
  by_contra hsmall
  have hlast : quanta (2 ^ 52 - 1) + quanta (2 ^ 52 - 1 + 1) = 2 ^ 53 - 1 := by decide +kernel
  have hmid := le_midpoint hd (by decide +kernel) (Nat.le_pred_of_lt (Nat.lt_of_not_le hsmall))
  rw [Nat.pred_eq_sub_one, hlast] at hmid
  omega

theorem exists_normal_binade {rank : Nat} (h : 2 ^ 52 ≤ rank) :
    ∃ m e, quanta rank = m * 2 ^ e ∧ quanta (rank + 1) = (m + 1) * 2 ^ e ∧ 2 ^ 52 ≤ m := by
  obtain ⟨m, e, hm, hsucc, hrank, -, hnormal⟩ := exists_binade rank
  exact ⟨m, e, hm, hsucc, by omega⟩

theorem midpoint_close_below {rank : Nat} (h : 2 ^ 52 ≤ rank) :
    2 ^ 53 * (quanta rank + quanta (rank + 1)) ≤ (2 ^ 53 + 1) * (2 * quanta rank) := by
  obtain ⟨m, e, hm, hsucc, hlead⟩ := exists_normal_binade h
  rw [hm, hsucc]
  calc
    2 ^ 53 * (m * 2 ^ e + (m + 1) * 2 ^ e) = (2 ^ 53 * (2 * m + 1)) * 2 ^ e := by ring
    _ ≤ ((2 ^ 53 + 1) * (2 * m)) * 2 ^ e := Nat.mul_le_mul_right _ (by omega)
    _ = (2 ^ 53 + 1) * (2 * (m * 2 ^ e)) := by ring

theorem midpoint_close_above {rank : Nat} (h : 2 ^ 52 ≤ rank) :
    2 ^ 53 * (2 * quanta (rank + 1)) ≤ (2 ^ 53 + 1) * (quanta rank + quanta (rank + 1)) := by
  obtain ⟨m, e, hm, hsucc, hlead⟩ := exists_normal_binade h
  rw [hm, hsucc]
  calc
    2 ^ 53 * (2 * ((m + 1) * 2 ^ e)) = (2 ^ 53 * (2 * (m + 1))) * 2 ^ e := by ring
    _ ≤ ((2 ^ 53 + 1) * (2 * m + 1)) * 2 ^ e := Nat.mul_le_mul_right _ (by omega)
    _ = (2 ^ 53 + 1) * (m * 2 ^ e + (m + 1) * 2 ^ e) := by ring

theorem close_nearestRank {num den : Nat} (hd : 0 < den)
    (hnormal : 2 ^ 52 * den ≤ num * quantaPerOne) (hfinite : nearestRank num den < infinityRank) :
    Close 1 num den (quanta (nearestRank num den)) quantaPerOne := by
  have hrank := le_nearestRank_of_normal hd hnormal
  have hupper := le_midpoint hd hfinite (Nat.le_refl _)
  generalize hr : nearestRank num den = r at hrank hupper hfinite ⊢
  constructor
  · rw [Nat.pow_one, Nat.pow_one]
    apply Nat.le_of_mul_le_mul_left _ Nat.two_pos
    calc
      2 * (2 ^ 53 * (num * quantaPerOne)) = 2 ^ 53 * (2 * (num * quantaPerOne)) := by ring
      _ ≤ 2 ^ 53 * ((quanta r + quanta (r + 1)) * den) := Nat.mul_le_mul_left _ hupper
      _ = 2 ^ 53 * (quanta r + quanta (r + 1)) * den := by ring
      _ ≤ (2 ^ 53 + 1) * (2 * quanta r) * den := Nat.mul_le_mul_right _ (midpoint_close_below hrank)
      _ = 2 * ((2 ^ 53 + 1) * (quanta r * den)) := by ring
  · rw [Nat.pow_one, Nat.pow_one]
    by_cases hfirst : r = 2 ^ 52
    · -- below the least normal double the steps are no wider than above it
      have hquanta : quanta r = 2 ^ 52 := by
        rw [hfirst]
        rfl
      rw [hquanta]
      omega
    · obtain ⟨r', rfl⟩ : ∃ r', r = r' + 1 := ⟨r - 1, by omega⟩
      have hlower : (quanta r' + quanta (r' + 1)) * den ≤ 2 * (num * quantaPerOne) :=
        midpoint_le hd (by omega) (by omega)
      have hnormal' : 2 ^ 52 ≤ r' := by omega
      have hclose := midpoint_close_above hnormal'
      apply Nat.le_of_mul_le_mul_left _ Nat.two_pos
      calc
        2 * (2 ^ 53 * (quanta (r' + 1) * den)) = 2 ^ 53 * (2 * quanta (r' + 1)) * den := by ring
        _ ≤ (2 ^ 53 + 1) * (quanta r' + quanta (r' + 1)) * den := Nat.mul_le_mul_right _ hclose
        _ = (2 ^ 53 + 1) * ((quanta r' + quanta (r' + 1)) * den) := by ring
        _ ≤ (2 ^ 53 + 1) * (2 * (num * quantaPerOne)) := Nat.mul_le_mul_left _ hlower
        _ = 2 * ((2 ^ 53 + 1) * (num * quantaPerOne)) := by ring

/-! ### Whole numbers -/

theorem exists_normalized (h : 0 < s) (h' : s ≤ 2 ^ 53) {k : Nat} (hk : 52 ≤ k) :
    ∃ m e, s * 2 ^ k = m * 2 ^ e ∧ 2 ^ 52 ≤ m ∧ m < 2 ^ 53 ∧ e ≤ k + 1 := by
  by_cases hmax : s = 2 ^ 53
  · refine ⟨2 ^ 52, k + 1, ?_, by omega, by omega, Nat.le_refl _⟩
    rw [hmax]
    ring
  · have hlog : s.log2 ≤ 52 := by
      have hlt := (Nat.log2_lt (Nat.ne_of_gt h)).mpr (by omega : s < 2 ^ 53)
      omega
    have hsum : s.log2 + (52 - s.log2) = 52 := by omega
    refine ⟨s * 2 ^ (52 - s.log2), k - (52 - s.log2), ?_, ?_, ?_, by omega⟩
    · rw [Nat.mul_assoc, ← Nat.pow_add]
      congr 2
      omega
    · calc
        2 ^ 52 = 2 ^ s.log2 * 2 ^ (52 - s.log2) := by rw [← Nat.pow_add, hsum]
        _ ≤ s * 2 ^ (52 - s.log2) := Nat.mul_le_mul_right _ (Nat.log2_self_le (Nat.ne_of_gt h))
    · calc
        s * 2 ^ (52 - s.log2) < 2 ^ (s.log2 + 1) * 2 ^ (52 - s.log2) :=
          Nat.mul_lt_mul_of_pos_right Nat.lt_log2_self (Nat.two_pow_pos _)
        _ = 2 ^ 53 := by
          rw [← Nat.pow_add]
          congr 1
          omega

theorem exists_rank_of_whole {scale k : Nat} (hscale : scale = Nat.pow 2 k) (hk : 52 ≤ k)
    (hk' : k < 2000) (h : s ≤ 2 ^ 53) : ∃ r < infinityRank, quanta r = s * scale := by
  subst hscale
  rcases Nat.eq_zero_or_pos s with rfl | hpos
  · exact ⟨0, by decide, by rw [Nat.zero_mul]; rfl⟩
  · obtain ⟨m, e, heq, hm, hm', he⟩ := exists_normalized hpos h hk
    refine ⟨e * 2 ^ 52 + m, ?_, (quanta_of_binade hm hm' e).trans heq.symm⟩
    simp only [infinityRank, Nat.pow_eq]
    omega

/-- A whole number of at most 53 bits is a double, and so is its product with a power of two. -/
theorem exact_whole {j : Nat} (h : s ≤ 2 ^ 53) (hj : j ≤ 900) :
    nearestRank (s * 2 ^ j) 1 < infinityRank ∧
      quanta (nearestRank (s * 2 ^ j) 1) = s * 2 ^ j * quantaPerOne := by
  have hscale : ∀ {n k : Nat}, n = Nat.pow 2 k → 2 ^ j * n = Nat.pow 2 (j + k) := by
    rintro n k rfl
    exact (Nat.pow_add 2 j k).symm
  obtain ⟨r, hr, hquanta⟩ :=
    exists_rank_of_whole (hscale quantaPerOne_eq) (by omega) (by omega) h
  rw [← Nat.mul_assoc] at hquanta
  have hnearest : nearestRank (s * 2 ^ j) 1 = r :=
    nearestRank_exact hr Nat.one_pos (by rw [hquanta, Nat.mul_one])
  rw [hnearest]
  exact ⟨hr, hquanta⟩

theorem quanta_whole (h : s ≤ 2 ^ 53) : quanta (nearestRank s 1) = s * quantaPerOne := by
  have hexact := (exact_whole h (Nat.zero_le _)).2
  rwa [Nat.pow_zero, Nat.mul_one] at hexact

theorem close_whole (h : s ≤ 2 ^ 53) : Close 0 s 1 (quanta (nearestRank s 1)) quantaPerOne :=
  close_of_eq (by rw [quanta_whole h, Nat.mul_one])

/-! ### Ranks -/

/-- Distances between neighbouring doubles do not get smaller with the rank. -/
theorem quanta_convex (r : Nat) :
    quanta (r + 1) + quanta (r + 1) ≤ quanta r + quanta (r + 2) := by
  obtain ⟨m, e, hm, hsucc, hr, hlt, hnormal⟩ := exists_binade r
  obtain ⟨m', e', hm', hsucc', hr', hlt', hnormal'⟩ := exists_binade (r + 1)
  have hle : 2 ^ e ≤ 2 ^ e' := Nat.pow_le_pow_right (by decide) (by omega)
  rw [hsucc] at hm'
  rw [hsucc', hm, Nat.add_mul m', ← hm', hsucc, Nat.add_mul]
  omega

theorem nearestRank_le_add {N M j : Nat}
    (hgap : ∀ r, M * (quanta r + quanta (r + 1)) < N * (quanta (r + j) + quanta (r + j + 1)))
    (hb : 0 < b) (hd : 0 < d) (h : N * (c * b) ≤ M * (a * d)) :
    nearestRank c d ≤ nearestRank a b + j := by
  by_cases hinf : nearestRank a b + j < infinityRank
  · rw [nearestRank_le_iff hd hinf]
    have hle := le_midpoint hb (by omega) (Nat.le_refl (nearestRank a b))
    have hgap := hgap (nearestRank a b)
    generalize quanta (nearestRank a b) + quanta (nearestRank a b + 1) = mid at hle hgap
    generalize quanta (nearestRank a b + j) + quanta (nearestRank a b + j + 1) = mid' at hgap ⊢
    left
    apply Nat.lt_of_mul_lt_mul_right (a := N * b)
    calc
      2 * (c * quantaPerOne) * (N * b) = 2 * quantaPerOne * (N * (c * b)) := by ring
      _ ≤ 2 * quantaPerOne * (M * (a * d)) := Nat.mul_le_mul_left _ h
      _ = M * d * (2 * (a * quantaPerOne)) := by ring
      _ ≤ M * d * (mid * b) := Nat.mul_le_mul_left _ hle
      _ = b * d * (M * mid) := by ring
      _ < b * d * (N * mid') := Nat.mul_lt_mul_of_pos_left hgap (Nat.mul_pos hb hd)
      _ = mid' * d * (N * b) := by ring
  · have hle : nearestRank c d ≤ infinityRank := nearestRank_le
    omega

theorem two_steps (r : Nat) :
    (2 ^ 53 + 1) ^ 2 * (quanta r + quanta (r + 1)) <
      (2 ^ 53) ^ 2 * (quanta (r + 2) + quanta (r + 3)) := by
  obtain ⟨m, e, hm, hsucc, -, hlt, -⟩ := exists_binade r
  have hnext := quanta_convex r
  have hnext' : quanta (r + 2) + quanta (r + 2) ≤ quanta (r + 1) + quanta (r + 3) :=
    quanta_convex (r + 1)
  have hpos := Nat.two_pow_pos e
  have hle : m * 2 ^ e ≤ (2 ^ 53 - 1) * 2 ^ e := Nat.mul_le_mul_right _ (by omega)
  rw [Nat.add_mul, ← hm] at hsucc
  rw [← hm] at hle
  omega

theorem three_steps (r : Nat) :
    (2 ^ 53 + 1) ^ 3 * (quanta r + quanta (r + 1)) <
      (2 ^ 53) ^ 3 * (quanta (r + 3) + quanta (r + 4)) := by
  obtain ⟨m, e, hm, hsucc, hr, hlt, hnormal⟩ := exists_binade r
  have hnext := quanta_convex r
  have hnext' : quanta (r + 2) + quanta (r + 2) ≤ quanta (r + 1) + quanta (r + 3) :=
    quanta_convex (r + 1)
  have hnext'' : quanta (r + 3) + quanta (r + 3) ≤ quanta (r + 2) + quanta (r + 4) :=
    quanta_convex (r + 2)
  have hpos := Nat.two_pow_pos e
  rw [Nat.add_mul, ← hm] at hsucc
  by_cases hlast : m = 2 ^ 53 - 1
  · -- from the last double of a binade on the steps are twice as wide
    obtain ⟨m', e', hm', hsucc', hr', hlt', hnormal'⟩ := exists_binade (r + 1)
    obtain rfl : e' = e + 1 := by omega
    have hwide : quanta (r + 2) = quanta (r + 1) + 2 * 2 ^ e := by
      rw [hsucc', hm']
      ring
    rw [hlast] at hm
    omega
  · have hle : m * 2 ^ e ≤ (2 ^ 53 - 2) * 2 ^ e := Nat.mul_le_mul_right _ (by omega)
    rw [← hm] at hle
    omega

theorem Close.nearestRank_eq (h : Close 0 a b c d) (hb : 0 < b) (hd : 0 < d) :
    nearestRank a b = nearestRank c d := by
  have hle := h.le
  have hge := h.ge
  rw [Nat.pow_zero, Nat.pow_zero, Nat.one_mul, Nat.one_mul] at hle hge
  exact nearestRank_congr hb hd (Nat.le_antisymm hle hge)

theorem Close.nearestRank_le_two (h : Close 2 a b c d) (hb : 0 < b) (hd : 0 < d) :
    nearestRank c d ≤ nearestRank a b + 2 := nearestRank_le_add two_steps hb hd h.ge

theorem Close.nearestRank_le_three (h : Close 3 a b c d) (hb : 0 < b) (hd : 0 < d) :
    nearestRank c d ≤ nearestRank a b + 3 := nearestRank_le_add three_steps hb hd h.ge

end MicroLisp.Binary64
