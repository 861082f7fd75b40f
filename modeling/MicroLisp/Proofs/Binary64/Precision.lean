import Mathlib.Tactic.Ring
import MicroLisp.Proofs.Binary64.Midpoint
import MicroLisp.Proofs.Binary64.Shortest

/-!
# Seventeen digits are enough

On a decimal grid finer than the distances from a double to the doubles beside it, the
grid point nearest to the double reads back (`Finer.exists_reads_back`).  A grid of
seventeen digits is always that fine, and so is one of `10 ^ -324`: the shortest decimal
is found on one of the grids that are tried, and has no more digits and no lesser
exponent than that (`shortest_bounds`).
-/

namespace MicroLisp.Binary64

variable {tie : Tie} {x : Binary64} {grid : Int}

/-! ### Powers of ten -/

def tenUp (e : Int) : Nat := 10 ^ e.toNat

def tenDown (e : Int) : Nat := 10 ^ (-e).toNat

theorem tenUp_pos (e : Int) : 0 < tenUp e := Nat.pow_pos (by decide)

theorem tenDown_pos (e : Int) : 0 < tenDown e := Nat.pow_pos (by decide)

theorem tenUp_mul_tenDown_sub (e : Int) (k : Nat) :
    tenUp e * tenDown (e - k) = tenUp (e - k) * tenDown e * 10 ^ k := by
  have hsum : e.toNat + (-(e - k)).toNat = (e - k).toNat + (-e).toNat + k := by omega
  simp only [tenUp, tenDown, ← Nat.pow_add, hsum]

theorem pos_of_eq_two_pow {n k : Nat} (h : n = Nat.pow 2 k) : 0 < n := h ▸ Nat.two_pow_pos k

theorem quantaPerOne_pos : 0 < quantaPerOne := pos_of_eq_two_pow quantaPerOne_eq

/-! ### The decimals beside a double -/

theorem neighbours_eq (tie : Tie) (x : Binary64) (grid : Int) :
    neighbours tie x grid =
      let num := quanta x.rank * tenDown grid
      let den := quantaPerOne * tenUp grid
      let below : Decimal := ⟨x.negative, num / den, grid⟩
      let above : Decimal := ⟨x.negative, num / den + 1, grid⟩
      if 2 * (num % den) < den ||
          (2 * (num % den) = den && tie = .toEven && num / den % 2 = 0) then [below, above]
      else [above, below] := by
  cases grid with
  | ofNat k =>
    have hup : tenUp (.ofNat k) = Nat.pow 10 k := rfl
    have hdown : tenDown (.ofNat k) = 1 := by simp [tenDown]
    simp only [neighbours, ← quantaPerOne_eq, hup, hdown, Nat.mul_one]
  | negSucc k =>
    have hup : tenUp (.negSucc k) = 1 := rfl
    have hdown : tenDown (.negSucc k) = Nat.pow 10 (k + 1) := rfl
    simp only [neighbours, ← quantaPerOne_eq, hup, hdown, Nat.mul_one]

theorem of_mem_neighbours {d : Decimal} (h : d ∈ neighbours tie x grid) :
    d.negative = x.negative ∧ d.exponent = grid ∧
      d.digits ≤ quanta x.rank * tenDown grid / (quantaPerOne * tenUp grid) + 1 := by
  rw [neighbours_eq] at h
  dsimp only at h
  split at h
  all_goals
    simp only [List.mem_cons, List.not_mem_nil, or_false] at h
    rcases h with rfl | rfl
    · exact ⟨rfl, rfl, by simp⟩
    · exact ⟨rfl, rfl, by simp⟩

/-- One of the two is at most half a step away from the double. -/
theorem exists_near (tie : Tie) (x : Binary64) (grid : Int) :
    ∃ d ∈ neighbours tie x grid,
      2 * (d.digits * (quantaPerOne * tenUp grid)) ≤
          2 * (quanta x.rank * tenDown grid) + quantaPerOne * tenUp grid ∧
        2 * (quanta x.rank * tenDown grid) ≤
          2 * (d.digits * (quantaPerOne * tenUp grid)) + quantaPerOne * tenUp grid := by
  rw [neighbours_eq]
  generalize quanta x.rank * tenDown grid = num
  have hden : 0 < quantaPerOne * tenUp grid := Nat.mul_pos quantaPerOne_pos (tenUp_pos grid)
  generalize quantaPerOne * tenUp grid = den at hden ⊢
  have hsplit := Nat.div_add_mod' num den
  have hmod := Nat.mod_lt num hden
  by_cases hhalf : 2 * (num % den) ≤ den
  · refine ⟨⟨x.negative, num / den, grid⟩, ?_, ?_, ?_⟩
    · dsimp only
      split <;> simp
    · dsimp only
      omega
    · dsimp only
      omega
  · refine ⟨⟨x.negative, num / den + 1, grid⟩, ?_, ?_, ?_⟩
    · dsimp only
      split <;> simp
    · dsimp only
      rw [Nat.add_mul]
      omega
    · dsimp only
      rw [Nat.add_mul]
      omega

/-! ### Grids that are fine enough -/

/-- A step of the grid is less than the distances to the doubles on either side. -/
def Finer (grid : Int) (x : Binary64) : Prop :=
  ∀ r, r ≤ x.rank → x.rank ≤ r + 1 →
    quanta r * tenDown grid + quantaPerOne * tenUp grid < quanta (r + 1) * tenDown grid

theorem ofDecimal_of_near (hx : x.isFinite = true) (h : Finer grid x) {d : Decimal}
    (hsign : d.negative = x.negative) (hgrid : d.exponent = grid)
    (habove : 2 * (d.digits * (quantaPerOne * tenUp grid)) ≤
      2 * (quanta x.rank * tenDown grid) + quantaPerOne * tenUp grid)
    (hbelow : 2 * (quanta x.rank * tenDown grid) ≤
      2 * (d.digits * (quantaPerOne * tenUp grid)) + quantaPerOne * tenUp grid) :
    ofDecimal d = x := by
  have hfinite := rank_lt_of_isFinite hx
  have hscaled : d.numerator * quantaPerOne = d.digits * (quantaPerOne * tenUp grid) := by
    rw [Decimal.numerator, hgrid, tenUp]
    ring
  have hden : d.denominator = tenDown grid := by rw [Decimal.denominator, hgrid, tenDown]
  have hrank : nearestRank d.numerator d.denominator = x.rank := by
    rw [hden]
    apply nearestRank_eq_of_between (tenDown_pos grid) hfinite
    · have hnext := h x.rank (Nat.le_refl _) (Nat.le_succ _)
      rw [hscaled, Nat.add_mul]
      omega
    · intro r hr
      have hprev := h r (by omega) (by omega)
      rw [hscaled, Nat.add_mul]
      rw [← hr] at hprev
      omega
  rw [ofDecimal_eq_nearest]
  simp only [nearest, hrank, hsign]

theorem Finer.exists_reads_back (h : Finer grid x) (hx : x.isFinite = true) (tie : Tie) :
    ∃ d ∈ neighbours tie x grid, ofDecimal d = x := by
  obtain ⟨d, hmem, habove, hbelow⟩ := exists_near tie x grid
  obtain ⟨hsign, hgrid, -⟩ := of_mem_neighbours hmem
  exact ⟨d, hmem, ofDecimal_of_near hx h hsign hgrid habove hbelow⟩

theorem quanta_succ_le_gap (r : Nat) :
    2 ^ 53 * quanta r + quanta (r + 1) ≤ 2 ^ 53 * quanta (r + 1) := by
  obtain ⟨m, e, hm, hsucc, -, hlt, -⟩ := exists_binade r
  have hle : (m + 1) * 2 ^ e ≤ 2 ^ 53 * 2 ^ e := Nat.mul_le_mul_right _ hlt
  rw [hm, hsucc]
  rw [Nat.add_mul, Nat.one_mul] at hle ⊢
  omega

theorem finer_of_digits (h : quantaPerOne * tenUp grid * 2 ^ 53 < quanta x.rank * tenDown grid) :
    Finer grid x := by
  intro r hr hr'
  have hle : quanta x.rank * tenDown grid ≤ quanta (r + 1) * tenDown grid :=
    Nat.mul_le_mul_right _ (quanta_mono hr')
  have hgap : (2 ^ 53 * quanta r + quanta (r + 1)) * tenDown grid ≤
      2 ^ 53 * quanta (r + 1) * tenDown grid := Nat.mul_le_mul_right _ (quanta_succ_le_gap r)
  rw [Nat.add_mul, Nat.mul_assoc, Nat.mul_assoc] at hgap
  omega

theorem finer_of_quantum (h : quantaPerOne * tenUp grid < tenDown grid) : Finer grid x := by
  intro r hr hr'
  have hle : (quanta r + 1) * tenDown grid ≤ quanta (r + 1) * tenDown grid :=
    Nat.mul_le_mul_right _ (quanta_lt_succ r)
  rw [Nat.add_mul, Nat.one_mul] at hle
  omega

/-! ### The position of the point -/

theorem lt_pow_digitCount (n : Nat) : n < 10 ^ digitCount n :=
  (Nat.length_toDigits_le_iff (by decide) Nat.length_toDigits_pos).mp (Nat.le_refl _)

theorem pow_digitCount_le {n : Nat} (h : 0 < n) : 10 ^ (digitCount n - 1) ≤ n := by
  by_cases hone : digitCount n - 1 = 0
  · rw [hone]
    exact h
  · have hlength : ¬ digitCount n ≤ digitCount n - 1 := by omega
    rw [digitCount, Nat.length_toDigits_le_iff (by decide) (by unfold digitCount at hone; omega)]
      at hlength
    exact Nat.le_of_not_lt hlength

theorem digitCount_pos (n : Nat) : 0 < digitCount n := Nat.length_toDigits_pos

theorem pointPosition_bounds {num den : Nat} (hn : 0 < num) (hd : 0 < den) {point : Int}
    (hpoint : pointPosition num den = point) :
    num * tenDown point < den * tenUp point ∧
      den * tenUp (point - 1) ≤ num * tenDown (point - 1) := by
  unfold pointPosition at hpoint
  split at hpoint
  · next hle =>
    have hpos := digitCount_pos (num / den)
    have hupper := (Nat.div_lt_iff_lt_mul hd).mp (lt_pow_digitCount (num / den))
    have hlower := (Nat.le_div_iff_mul_le hd).mp
      (pow_digitCount_le (Nat.div_pos hle hd))
    have hup : point.toNat = digitCount (num / den) := by omega
    have hdown : (-point).toNat = 0 := by omega
    have hup' : (point - 1).toNat = digitCount (num / den) - 1 := by omega
    have hdown' : (-(point - 1)).toNat = 0 := by omega
    simp only [tenUp, tenDown, hup, hdown, hup', hdown', Nat.pow_zero, Nat.mul_one]
    exact ⟨Nat.mul_comm den _ ▸ hupper, Nat.mul_comm den _ ▸ hlower⟩
  · next hlt =>
    have hpos := digitCount_pos ((den - 1) / num)
    have hupper := (Nat.div_lt_iff_lt_mul hn).mp (lt_pow_digitCount ((den - 1) / num))
    have hlower := (Nat.le_div_iff_mul_le hn).mp
      (pow_digitCount_le (Nat.div_pos (by omega : num ≤ den - 1) hn))
    have hup : point.toNat = 0 := by omega
    have hdown : (-point).toNat = digitCount ((den - 1) / num) - 1 := by omega
    have hup' : (point - 1).toNat = 0 := by omega
    have hdown' : (-(point - 1)).toNat = digitCount ((den - 1) / num) := by omega
    simp only [tenUp, tenDown, hup, hdown, hup', hdown', Nat.pow_zero, Nat.mul_one]
    rw [Nat.mul_comm] at hupper hlower
    exact ⟨by omega, by omega⟩

/-! ### The search -/

theorem first_of_findSome? {α : Type} {f : Nat → Option α} {n : Nat} {a : α}
    (h : (List.range n).findSome? f = some a) :
    ∃ k < n, f k = some a ∧ ∀ j < k, f j = none := by
  induction n with
  | zero => simp at h
  | succ n ih =>
    rw [List.range_succ, List.findSome?_append] at h
    cases hf : (List.range n).findSome? f with
    | some b =>
      rw [hf, Option.some_or] at h
      obtain ⟨k, hk, hfk, hmin⟩ := ih (hf.trans h)
      exact ⟨k, Nat.lt_succ_of_lt hk, hfk, hmin⟩
    | none =>
      rw [hf, Option.none_or] at h
      have hnone : ∀ j < n, f j = none := by simpa using hf
      exact ⟨n, Nat.lt_succ_self n, by simpa using h, hnone⟩

variable {d : Decimal}

/-- The grid of `k + 1` digits. -/
def gridOf (x : Binary64) (k : Nat) : Int := pointPosition (quanta x.rank) quantaPerOne - (k + 1)

theorem find?_isSome_of_finer (tie : Tie) (hx : x.isFinite = true) (h : Finer grid x) :
    ((neighbours tie x grid).find? fun d => ofDecimal d = x).isSome = true := by
  obtain ⟨d, hmem, hd⟩ := h.exists_reads_back hx tie
  rw [List.find?_isSome]
  exact ⟨d, hmem, by simpa using hd⟩

theorem shortest?_eq (tie : Tie) (x : Binary64) :
    shortest? tie x = (List.range 17).findSome? fun n =>
      (neighbours tie x (gridOf x n)).find? fun d => ofDecimal d = x := by
  simp only [shortest?, gridOf, ← quantaPerOne_eq]

theorem quanta_pos {rank : Nat} (h : 0 < rank) : 0 < quanta rank := quanta_mono h

theorem quantaPerOne_lt_tenDown {e : Int} (h : e ≤ -324) : quantaPerOne < tenDown e := by
  obtain ⟨m, hm, hbase⟩ : ∃ m, m = 324 ∧ quantaPerOne < 10 ^ m :=
    ⟨324, rfl, by unfold quantaPerOne; decide +kernel⟩
  exact Nat.lt_of_lt_of_le hbase (Nat.pow_le_pow_right (by decide) (by omega))

theorem point_bounds (h : 0 < x.rank) {point : Int}
    (hpoint : pointPosition (quanta x.rank) quantaPerOne = point) : -323 ≤ point := by
  obtain ⟨hlt, -⟩ := pointPosition_bounds (quanta_pos h) quantaPerOne_pos hpoint
  by_contra hsmall
  have htiny := quantaPerOne_lt_tenDown (e := point) (by omega)
  have hup : tenUp point = 1 := by
    have hzero : point.toNat = 0 := by omega
    rw [tenUp, hzero, Nat.pow_zero]
  have hone : 1 * tenDown point ≤ quanta x.rank * tenDown point :=
    Nat.mul_le_mul_right _ (quanta_pos h)
  rw [hup] at hlt
  omega

theorem finer_gridOf (h : 0 < x.rank) : Finer (gridOf x 16) x := by
  obtain ⟨-, hle⟩ := pointPosition_bounds (quanta_pos h) quantaPerOne_pos rfl
  have hsub := tenUp_mul_tenDown_sub (pointPosition (quanta x.rank) quantaPerOne - 1) 16
  have hgrid : pointPosition (quanta x.rank) quantaPerOne - 1 - (16 : Nat) = gridOf x 16 := by
    rw [gridOf]
    omega
  rw [hgrid] at hsub
  generalize pointPosition (quanta x.rank) quantaPerOne - 1 = e at hle hsub
  have hscaled : quantaPerOne * tenUp (gridOf x 16) * 10 ^ 16 ≤
      quanta x.rank * tenDown (gridOf x 16) := by
    apply Nat.le_of_mul_le_mul_right _ (tenDown_pos e)
    calc
      quantaPerOne * tenUp (gridOf x 16) * 10 ^ 16 * tenDown e =
          quantaPerOne * tenUp e * tenDown (gridOf x 16) := by
        rw [Nat.mul_assoc quantaPerOne (tenUp e), hsub]
        ring
      _ ≤ quanta x.rank * tenDown e * tenDown (gridOf x 16) := Nat.mul_le_mul_right _ hle
      _ = quanta x.rank * tenDown (gridOf x 16) * tenDown e := by ring
  have hpos := Nat.mul_pos quantaPerOne_pos (tenUp_pos (gridOf x 16))
  apply finer_of_digits
  omega

theorem digits_le (h : 0 < x.rank) {k : Nat} (hd : d ∈ neighbours tie x (gridOf x k)) :
    d.digits ≤ 10 ^ (k + 1) := by
  obtain ⟨-, -, hdigits⟩ := of_mem_neighbours hd
  obtain ⟨hlt, -⟩ := pointPosition_bounds (quanta_pos h) quantaPerOne_pos rfl
  have hsub := tenUp_mul_tenDown_sub (pointPosition (quanta x.rank) quantaPerOne) (k + 1)
  have hgrid : pointPosition (quanta x.rank) quantaPerOne - (k + 1 : Nat) = gridOf x k := rfl
  rw [hgrid] at hsub
  generalize pointPosition (quanta x.rank) quantaPerOne = e at hlt hsub
  have hscaled : quanta x.rank * tenDown (gridOf x k) <
      10 ^ (k + 1) * (quantaPerOne * tenUp (gridOf x k)) := by
    apply Nat.lt_of_mul_lt_mul_right (a := tenDown e)
    calc
      quanta x.rank * tenDown (gridOf x k) * tenDown e =
          quanta x.rank * tenDown e * tenDown (gridOf x k) := by ring
      _ < quantaPerOne * tenUp e * tenDown (gridOf x k) :=
        Nat.mul_lt_mul_of_pos_right hlt (tenDown_pos _)
      _ = 10 ^ (k + 1) * (quantaPerOne * tenUp (gridOf x k)) * tenDown e := by
        rw [Nat.mul_assoc, hsub]
        ring
  have hdiv := (Nat.div_lt_iff_lt_mul (Nat.mul_pos quantaPerOne_pos (tenUp_pos _))).mpr hscaled
  omega

/-- Among the decimals of at most seventeen digits one reads back, and the search ends before the
grid gets finer than it needs to be for the least double. -/
theorem exists_shortest? (hx : x.isFinite = true) (h : 0 < x.rank) (tie : Tie) :
    ∃ d, shortest? tie x = some d ∧ d.negative = x.negative ∧ d.digits ≤ 10 ^ 17 ∧
      -324 ≤ d.exponent := by
  have hsome : (shortest? tie x).isSome = true := by
    rw [shortest?_eq, List.findSome?_isSome_iff]
    exact ⟨16, by decide, find?_isSome_of_finer tie hx (finer_gridOf h)⟩
  obtain ⟨d, hd⟩ := Option.isSome_iff_exists.mp hsome
  have hsearch := hd
  rw [shortest?_eq] at hsearch
  obtain ⟨k, hk, hfind, hmin⟩ := first_of_findSome? hsearch
  have hmem := List.mem_of_find?_eq_some hfind
  obtain ⟨hsign, hgrid, -⟩ := of_mem_neighbours hmem
  refine ⟨d, hd, hsign, ?_, ?_⟩
  · have hpow : 10 ^ (k + 1) ≤ 10 ^ 17 := Nat.pow_le_pow_right (by decide) hk
    exact Nat.le_trans (digits_le h hmem) hpow
  · by_contra hsmall
    have hpoint := point_bounds h rfl
    obtain ⟨j, hj⟩ : ∃ j : Nat, gridOf x j = -324 :=
      ⟨(pointPosition (quanta x.rank) quantaPerOne + 323).toNat, by rw [gridOf]; omega⟩
    have hjk : j < k := by
      rw [hgrid] at hsmall
      unfold gridOf at hj hsmall
      omega
    have hfiner : Finer (gridOf x j) x := by
      apply finer_of_quantum
      have hup : tenUp (gridOf x j) = 1 := by rw [hj]; rfl
      rw [hup, Nat.mul_one]
      exact quantaPerOne_lt_tenDown (by omega)
    have hfound := find?_isSome_of_finer tie hx hfiner
    rw [hmin j hjk] at hfound
    cases hfound

theorem shortest_bounds (hx : x.isFinite = true) (tie : Tie) :
    (x.shortest tie).negative = x.negative ∧ (x.shortest tie).digits ≤ 10 ^ 17 ∧
      -324 ≤ (x.shortest tie).exponent := by
  unfold shortest
  split
  · exact ⟨rfl, Nat.zero_le _, by simp⟩
  · next hz =>
    have hpos : 0 < x.rank := by
      simp only [isZero, decide_eq_true_eq] at hz
      omega
    obtain ⟨d, hd, hsign, hdigits, hexponent⟩ := exists_shortest? hx hpos tie
    rw [hd, Option.getD_some]
    obtain ⟨zeros, hzeros⟩ := d.exists_padded_trim
    rw [← hzeros] at hsign hdigits hexponent
    have hle : d.trim.digits * 1 ≤ d.trim.digits * 10 ^ zeros :=
      Nat.mul_le_mul_left _ (Nat.pow_pos (by decide))
    simp only [Decimal.padded] at hsign hdigits hexponent
    exact ⟨hsign, by omega, by omega⟩

end MicroLisp.Binary64
