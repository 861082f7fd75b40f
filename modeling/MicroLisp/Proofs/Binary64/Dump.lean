import MicroLisp.Proofs.Binary64.Error
import MicroLisp.Proofs.Binary64.Rational
import MicroLisp.Proofs.Binary64.Precision
import MicroLisp.Proofs.Binary64.Style
import MicroLisp.Token.Basic

/-!
# Doubles in a dump

A dump leaves out the sign of a positive exponent.  A double below `10 ^ 16` is written
without such an exponent and so is read back; from there on what is written has one and
is no numeral, though it would be one with the sign.
-/

namespace MicroLisp

/-! ### The leading digit -/

namespace Style

variable {d : Decimal} {k : Nat}

theorem numerator_lt_of_order (h : order d < k) : d.numerator < 10 ^ k * d.denominator := by
  have hexponent : Binary64.digitCount d.digits + d.exponent.toNat ≤ k + (-d.exponent).toNat := by
    unfold order at h
    unfold Binary64.digitCount
    omega
  calc
    d.numerator < 10 ^ Binary64.digitCount d.digits * 10 ^ d.exponent.toNat :=
      Nat.mul_lt_mul_of_pos_right (Binary64.lt_pow_digitCount _) (Nat.pow_pos (by decide))
    _ = 10 ^ (Binary64.digitCount d.digits + d.exponent.toNat) := (Nat.pow_add ..).symm
    _ ≤ 10 ^ (k + (-d.exponent).toNat) := Nat.pow_le_pow_right (by decide) hexponent
    _ = 10 ^ k * d.denominator := Nat.pow_add ..

theorem le_numerator_of_order (hd : 0 < d.digits) (h : k ≤ order d) :
    10 ^ k * d.denominator ≤ d.numerator := by
  have hcount := Binary64.digitCount_pos d.digits
  have hexponent : k + (-d.exponent).toNat ≤
      Binary64.digitCount d.digits - 1 + d.exponent.toNat := by
    unfold order at h
    unfold Binary64.digitCount at hcount ⊢
    omega
  calc
    10 ^ k * d.denominator = 10 ^ (k + (-d.exponent).toNat) := (Nat.pow_add ..).symm
    _ ≤ 10 ^ (Binary64.digitCount d.digits - 1 + d.exponent.toNat) :=
      Nat.pow_le_pow_right (by decide) hexponent
    _ = 10 ^ (Binary64.digitCount d.digits - 1) * 10 ^ d.exponent.toNat := Nat.pow_add ..
    _ ≤ d.numerator := Nat.mul_le_mul_right _ (Binary64.pow_digitCount_le hd)

end Style

namespace Binary64
open Numeral

variable {x : Binary64}

/-- The rank of `10 ^ 16`. -/
def boundRank : Nat := nearestRank (10 ^ 16) 1

theorem quanta_boundRank : quanta boundRank = 10 ^ 16 * quantaPerOne := by
  have hfactors : 5 ^ 16 * 2 ^ 16 = 10 ^ 16 := by decide
  rw [boundRank, ← hfactors]
  exact (exact_whole (by decide) (by decide)).2

theorem abs_toRat (x : Binary64) : |x.toRat| = quanta x.rank / 2 ^ 1074 := by
  rw [toRat, abs_div, abs_signed, abs_of_pos (two_pow_pos 1074)]

theorem abs_toRat_lt_iff : |x.toRat| < 10 ^ 16 ↔ x.rank < boundRank := by
  have hcast : ((10 ^ 16 * quantaPerOne : Nat) : ℚ) = 10 ^ 16 * 2 ^ 1074 := by
    rw [Nat.cast_mul, cast_quantaPerOne]
    norm_num
  rw [abs_toRat, div_lt_iff₀ (two_pow_pos 1074), ← hcast, ← quanta_boundRank, Nat.cast_lt]
  constructor
  · intro h
    by_contra hle
    exact Nat.not_lt_of_le (quanta_mono (Nat.le_of_not_lt hle)) h
  · intro h
    exact Nat.lt_of_lt_of_le (quanta_lt_succ x.rank) (quanta_mono h)

/-- The least magnitude that is not written positionally. -/
def bound (negative : Bool) : Binary64 := nearest negative (10 ^ 16) 1

theorem eq_bound (h : x.rank = boundRank) : x = bound x.negative := by
  obtain ⟨negative, rank, hlt⟩ := x
  rw [bound, nearest, mk.injEq]
  exact ⟨rfl, h⟩

theorem order_shortest_bound (negative : Bool) (tie : Tie) :
    Style.order ((bound negative).shortest tie) = 16 := by
  have hsearch : shortest? tie (bound negative) = some ⟨negative, 1, 16⟩ := by
    cases negative <;> cases tie <;> decide +kernel
  have hz : ¬ (bound negative).isZero = true := by
    cases negative <;> decide +kernel
  have hlast : ¬ (1 ≠ 0 ∧ 1 % 10 = 0) := by decide
  have hdigits : Nat.toDigits 10 1 = ['1'] := by decide
  rw [shortest, if_neg hz, hsearch, Option.getD_some, Decimal.trim, dif_neg hlast, Style.order,
    hdigits]
  rfl

theorem order_shortest_lt_iff (h : x.isFinite = true) (tie : Tie) :
    Style.order (x.shortest tie) < 16 ↔ |x.toRat| < 10 ^ 16 := by
  have hrank := rank_ofDecimal (x.shortest tie)
  have hden := (x.shortest tie).denominator_pos
  rw [ofDecimal_shortest h] at hrank
  rw [abs_toRat_lt_iff]
  constructor
  · intro horder
    have hle : x.rank ≤ boundRank := by
      have hnumerator := Style.numerator_lt_of_order (k := 16) horder
      rw [hrank, boundRank]
      exact nearestRank_mono hden Nat.one_pos (by omega)
    -- the bound itself is written with a leading digit of its own
    refine Nat.lt_of_le_of_ne hle fun heq => ?_
    rw [eq_bound heq, order_shortest_bound] at horder
    exact absurd horder (by decide)
  · intro hlt
    by_contra horder
    have hpos : 0 < (x.shortest tie).digits := by
      apply Nat.pos_of_ne_zero
      intro hzero
      have hexponent := exponent_shortest h hzero
      apply horder
      rw [Style.order, hexponent, hzero]
      decide
    have hnumerator := Style.le_numerator_of_order (k := 16) hpos (by omega)
    have hge : boundRank ≤ x.rank := by
      rw [hrank, boundRank]
      exact nearestRank_mono Nat.one_pos hden (by omega)
    omega

end Binary64

/-! ### The scientific form -/

namespace Style
open Numeral

theorem exponent?_digits {cs : List Char} (h : Digits cs) (hne : cs ≠ []) :
    exponent? ('e' :: cs) = none := by
  obtain ⟨c, cs, rfl⟩ := List.exists_cons_of_ne_nil hne
  have hc := h c List.mem_cons_self
  have hsign : ¬ (c = '+' ∨ c = '-') := by
    rintro (rfl | rfl)
    · cases hc
    · cases hc
  exact if_neg hsign

/-- Beyond the positional range a style only chooses whether there is a plus sign. -/
theorem exists_beyond (style : Style) {d : Decimal} {k : Nat}
    (hbeyond : style.greatestPositional < order d) (hk : order d = k) :
    ∃ whole fraction, Digits whole ∧ whole ≠ [] ∧ Digits fraction ∧
      ∀ plusSign, ({ style with plusSign := plusSign } : Style).decimal d =
        sign d.negative ++ (whole ++ (point fraction ++ 'e' :: exponent plusSign k)) := by
  have hdigits := writes_toDigits d.digits
  refine ⟨(Nat.toDigits 10 d.digits).take 1, (Nat.toDigits 10 d.digits).drop 1,
    fun c hc => hdigits.digits c (List.mem_of_mem_take hc), by simp,
    fun c hc => hdigits.digits c (List.mem_of_mem_drop hc), fun plusSign => ?_⟩
  have hform : ({ style with plusSign := plusSign } : Style).decimal d = sign d.negative ++
      if style.leastPositional ≤ order d ∧ order d ≤ style.greatestPositional then
        positional (Nat.toDigits 10 d.digits) (order d)
      else scientific plusSign (Nat.toDigits 10 d.digits) (order d) := rfl
  rw [hform, if_neg (by omega), scientific_eq, hk]

theorem mark_not_mem {negative : Bool} {whole fraction : List Char} (hwhole : Digits whole)
    (hfraction : Digits fraction) : 'e' ∉ sign negative ++ (whole ++ point fraction) := by
  have hdigits : ∀ {cs : List Char}, Digits cs → 'e' ∉ cs := fun h hmem => absurd (h 'e' hmem) (by decide)
  have hsign : 'e' ∉ sign negative := by cases negative <;> decide
  have hpoint : 'e' ∉ point fraction := by
    unfold point
    split
    · exact List.not_mem_nil
    · exact List.not_mem_cons_of_ne_of_not_mem (by decide) (hdigits hfraction)
  simp only [List.mem_append, not_or]
  exact ⟨hsign, hdigits hwhole, hpoint⟩

end Style

namespace Binary64
open Numeral

variable {x y : Binary64}

/-- The style of dumps with the plus sign that numerals need. -/
def signedStyle : Style := { dumpStyle with plusSign := true }

theorem decimal?_write_signed (h : x.isFinite = true) :
    ∃ d, decimal? (signedStyle.write x) = some d ∧ ofDecimal d = x := Style.read_write rfl h

theorem decimal?_write_dump (h : x.isFinite = true) (hlt : |x.toRat| < 10 ^ 16) :
    ∃ d, decimal? (dumpStyle.write x) = some d ∧ ofDecimal d = x := by
  have horder := (order_shortest_lt_iff h dumpStyle.tie).mpr hlt
  have hform : Style.order (x.shortest dumpStyle.tie) < 0 ∨
      dumpStyle.leastPositional ≤ Style.order (x.shortest dumpStyle.tie) ∧
        Style.order (x.shortest dumpStyle.tie) ≤ dumpStyle.greatestPositional := by
    have hleast : dumpStyle.leastPositional = -4 := rfl
    have hgreatest : dumpStyle.greatestPositional = 15 := rfl
    omega
  obtain ⟨zeros, hzeros, -⟩ :=
    Style.decimal?_decimal dumpStyle (x.shortest dumpStyle.tie) (Or.inr hform)
  exact ⟨_, hzeros, by rw [ofDecimal_padded, ofDecimal_shortest h]⟩

/-- A double that is written with a positive exponent: all that keeps it from being a numeral is the
sign of the exponent. -/
theorem write_dump_beyond (h : x.isFinite = true) (hge : 10 ^ 16 ≤ |x.toRat|) :
    decimal? (dumpStyle.write x) = none ∧
      ∃ front digits, 'e' ∉ front ∧ Digits digits ∧ digits ≠ [] ∧
        dumpStyle.write x = front ++ 'e' :: digits ∧
        signedStyle.write x = front ++ 'e' :: '+' :: digits := by
  have horder : ¬ Style.order (x.shortest dumpStyle.tie) < 16 := by
    rw [order_shortest_lt_iff h]
    exact not_lt.mpr hge
  obtain ⟨k, hk⟩ := Int.eq_ofNat_of_zero_le (a := Style.order (x.shortest dumpStyle.tie)) (by omega)
  have hgreatest : dumpStyle.greatestPositional = 15 := rfl
  obtain ⟨whole, fraction, hwhole, hne, hfraction, hform⟩ :=
    Style.exists_beyond dumpStyle (d := x.shortest dumpStyle.tie) (by omega) hk
  have hexponent := writes_toDigits k
  have hdump : dumpStyle.write x = sign (x.shortest dumpStyle.tie).negative ++
      (whole ++ (point fraction ++ 'e' :: Nat.toDigits 10 k)) := hform false
  have hsigned : signedStyle.write x = sign (x.shortest dumpStyle.tie).negative ++
      (whole ++ (point fraction ++ 'e' :: '+' :: Nat.toDigits 10 k)) := hform true
  refine ⟨?_, sign (x.shortest dumpStyle.tie).negative ++ (whole ++ point fraction),
    Nat.toDigits 10 k, Style.mark_not_mem hwhole hfraction, hexponent.digits, hexponent.ne_nil,
    ?_, ?_⟩
  · rw [hdump, decimal?_mantissa _ hwhole hne hfraction (stops_cons rfl _) (by simp),
      Style.exponent?_digits hexponent.digits hexponent.ne_nil, Option.map_none]
  · rw [hdump, List.append_assoc, List.append_assoc]
  · rw [hsigned, List.append_assoc, List.append_assoc]

theorem inNumeral_of_mem_write (h : x.isFinite = true) {c : Char} (hc : c ∈ dumpStyle.write x) :
    InNumeral c := by
  by_cases hlt : |x.toRat| < 10 ^ 16
  · obtain ⟨d, hd, -⟩ := decimal?_write_dump h hlt
    exact of_mem_decimal? hd hc
  · obtain ⟨-, front, digits, -, -, -, hdump, hsigned⟩ := write_dump_beyond h (not_lt.mp hlt)
    obtain ⟨d, hd, -⟩ := decimal?_write_signed h
    apply of_mem_decimal? hd
    rw [hdump, List.mem_append, List.mem_cons] at hc
    rw [hsigned, List.mem_append, List.mem_cons, List.mem_cons]
    tauto

/-- What a dump writes for a finite double is a numeral with or without a plus sign put to its
exponent, so it tells the double. -/
theorem write_dump_injective (hx : x.isFinite = true) (hy : y.isFinite = true)
    (h : dumpStyle.write x = dumpStyle.write y) : x = y := by
  by_cases hltx : |x.toRat| < 10 ^ 16
  · obtain ⟨d, hd, rfl⟩ := decimal?_write_dump hx hltx
    by_cases hlty : |y.toRat| < 10 ^ 16
    · obtain ⟨e, he, rfl⟩ := decimal?_write_dump hy hlty
      rw [h, he] at hd
      rw [Option.some.inj hd]
    · rw [h, (write_dump_beyond hy (not_lt.mp hlty)).1] at hd
      cases hd
  · obtain ⟨hnone, front, digits, hfront, hdigits, -, hdump, hsigned⟩ :=
      write_dump_beyond hx (not_lt.mp hltx)
    by_cases hlty : |y.toRat| < 10 ^ 16
    · obtain ⟨e, he, -⟩ := decimal?_write_dump hy hlty
      rw [← h, hnone] at he
      cases he
    · obtain ⟨-, front', digits', hfront', hdigits', -, hdump', hsigned'⟩ :=
        write_dump_beyond hy (not_lt.mp hlty)
      have hmark : 'e' ∉ digits := fun hmem => absurd (hdigits 'e' hmem) (by decide)
      rw [hdump, hdump'] at h
      obtain ⟨rfl, -, rfl⟩ := (List.append_cons_inj_of_notMem hfront hmark).mp h
      obtain ⟨d, hd, hread⟩ := decimal?_write_signed hx
      obtain ⟨e, he, hread'⟩ := decimal?_write_signed hy
      rw [hsigned, ← hsigned', he] at hd
      rw [← hread, ← hread', Option.some.inj hd]

/-! ### Any double -/

theorem dumpText_of_finite (h : x.isFinite = true) :
    x.dumpText = String.ofList (dumpStyle.write x) := by
  simp only [isFinite, decide_eq_true_eq] at h
  have hnan : ¬ x.isNaN = true := by
    simp only [isNaN, decide_eq_true_eq]
    omega
  have hinf : ¬ x.isInfinite = true := by
    simp only [isInfinite, decide_eq_true_eq]
    omega
  rw [dumpText, if_neg hnan, if_neg hinf]

theorem dumpText_of_not_finite (h : x.isFinite = false) :
    x.dumpText = if x.isNaN then "NaN" else if x.negative then "-inf" else "inf" := by
  unfold dumpText
  split_ifs with hnan hinf hneg
  all_goals first
    | rfl
    | simp only [isFinite, isNaN, isInfinite, decide_eq_true_eq, decide_eq_false_iff_not] at *
      omega

theorem eq_of_infinite (hx : x.isInfinite = true) (hy : y.isInfinite = true)
    (h : x.negative = y.negative) : x = y := by
  obtain ⟨negative, rank, hrank⟩ := x
  obtain ⟨negative', rank', hrank'⟩ := y
  simp only [isInfinite, decide_eq_true_eq] at hx hy h
  simp only [mk.injEq]
  exact ⟨h, hx.trans hy.symm⟩

theorem dumpText_ne_of_finite (hx : x.isFinite = true) (hy : y.isFinite = false) :
    x.dumpText ≠ y.dumpText := by
  obtain ⟨c, hc, hmark⟩ := Style.mark_mem_decimal dumpStyle (x.shortest dumpStyle.tie)
  intro h
  rw [dumpText_of_finite hx, dumpText_of_not_finite hy] at h
  have hmem : c ∈ (String.ofList (dumpStyle.write x)).toList := by
    rw [String.toList_ofList]
    exact hc
  rw [h] at hmem
  revert hmem
  split_ifs
  all_goals
    rcases hmark with rfl | rfl
    all_goals decide

/-- Doubles other than NaNs are told apart by a dump. -/
theorem dumpText_injective (hx : x.isNaN = false) (hy : y.isNaN = false)
    (h : x.dumpText = y.dumpText) : x = y := by
  have hinfinite {z : Binary64} (hz : z.isNaN = false) (hz' : z.isFinite = false) :
      z.isInfinite = true := by
    simp only [isNaN, isFinite, isInfinite, decide_eq_false_iff_not, decide_eq_true_eq] at hz hz' ⊢
    omega
  cases hfx : x.isFinite with
  | true =>
    cases hfy : y.isFinite with
    | true =>
      rw [dumpText_of_finite hfx, dumpText_of_finite hfy] at h
      exact write_dump_injective hfx hfy (String.ofList_injective h)
    | false => exact absurd h (dumpText_ne_of_finite hfx hfy)
  | false =>
    cases hfy : y.isFinite with
    | true => exact absurd h.symm (dumpText_ne_of_finite hfy hfx)
    | false =>
      apply eq_of_infinite (hinfinite hx hfx) (hinfinite hy hfy)
      rw [dumpText_of_not_finite hfx, dumpText_of_not_finite hfy, hx, hy] at h
      revert h
      cases x.negative <;> cases y.negative <;> decide

end Binary64
end MicroLisp
