import Mathlib.Tactic.Ring
import MicroLisp.Binary64.Style
import MicroLisp.Proofs.Binary64.Shortest
import MicroLisp.Proofs.Grammar.Numeral

/-!
# Written doubles are numerals

What a style writes for a decimal is a numeral of the same value, as long as an
exponent carries its sign (`decimal?_decimal`): either form spells the digits of the
decimal around a point, with zeros put to their end when the point lies behind all
of them.  So a finite double that is written is read again bit for bit
(`read_write`).
-/

namespace MicroLisp.Style
open Numeral

variable {cs : List Char} {n : Nat}

/-- The decimal with these digits, the first of which has exponent `e`. -/
def leading (negative : Bool) (n : Nat) (cs : List Char) (e : Int) : Decimal :=
  ⟨negative, n, e - (cs.length - 1 : Nat)⟩

/-! ### Exponents -/

theorem exponent?_exponent {plusSign : Bool} {e : Int} (h : plusSign = true ∨ e < 0) :
    exponent? ('e' :: exponent plusSign e) = some e := by
  cases e with
  | ofNat k =>
    have hplus : plusSign = true := h.resolve_right (Int.not_lt.mpr (Int.natCast_nonneg k))
    simp only [exponent, hplus, ↓reduceIte, List.singleton_append, exponent?, true_or,
      (writes_toDigits k).integer?_plus]
    rfl
  | negSucc k =>
    have hinteger := (writes_toDigits (k + 1)).integer?_sign true
    simp only [exponent, exponent?, or_true, ↓reduceIte]
    exact hinteger

/-! ### The two forms -/

theorem scientific_eq (plusSign : Bool) (cs : List Char) (e : Int) :
    scientific plusSign cs e =
      cs.take 1 ++ (point (cs.drop 1) ++ 'e' :: exponent plusSign e) := by
  rw [scientific, List.append_assoc]
  rfl

theorem decimal?_scientific (negative : Bool) (h : Writes n cs) {plusSign : Bool} {e : Int}
    (he : plusSign = true ∨ e < 0) :
    decimal? (sign negative ++ scientific plusSign cs e) =
      some (leading negative n cs e) := by
  have hne : cs.take 1 ≠ [] := by
    simpa using h.ne_nil
  rw [scientific_eq, decimal?_spelled negative (fun c hc => h.digits c (List.mem_of_mem_take hc))
    hne (fun c hc => h.digits c (List.mem_of_mem_drop hc)) (exponent?_exponent he) (stops_cons rfl _)
    (by simp), List.take_append_drop, h.value, List.length_drop, leading]

theorem exponent?_nil : exponent? [] = some 0 := rfl

theorem decimal?_positional (negative : Bool) {whole fraction : List Char}
    (hwhole : Digits whole) (hne : whole ≠ []) (hfraction : Digits fraction) (hne' : fraction ≠ []) :
    decimal? (sign negative ++ (whole ++ '.' :: fraction)) =
      some ⟨negative, Nat.ofDigitChars 10 (whole ++ fraction) 0, 0 - fraction.length⟩ := by
  have hspelled := decimal?_spelled negative hwhole hne hfraction exponent?_nil stops_nil
    (by simp)
  rwa [point, if_neg hne', List.append_nil] at hspelled

/-- The point lies among the digits, or behind all of them and in front of a single zero. -/
theorem decimal?_positional_ofNat (negative : Bool) (h : Writes n cs) (k : Nat) :
    ∃ zeros, decimal? (sign negative ++ positional cs (.ofNat k)) =
        some ((leading negative n cs k).padded zeros) ∧
      (zeros = 0 ∨ ((leading negative n cs k).padded zeros).exponent = -1) := by
  have hlen := List.length_pos_iff.mpr h.ne_nil
  by_cases hdrop : cs.drop (k + 1) = []
  · have hle := List.drop_eq_nil_iff.mp hdrop
    have hform : positional cs (.ofNat k) =
        (cs ++ List.replicate (k + 1 - cs.length) '0') ++ '.' :: ['0'] := by
      simp only [positional, hdrop, List.take_of_length_le hle, ↓reduceIte]
    have hvalue : Nat.ofDigitChars 10 (cs ++ List.replicate (k + 1 - cs.length) '0' ++ ['0']) 0 =
        n * 10 ^ (k + 1 - cs.length + 1) := by
      rw [Nat.ofDigitChars_append, Nat.ofDigitChars_append, h.value,
        Nat.ofDigitChars_replicate_zero, Nat.ofDigitChars_cons, Nat.ofDigitChars_nil, Nat.sub_self,
        Nat.add_zero, Nat.pow_succ]
      ring
    refine ⟨k + 1 - cs.length + 1, ?_, Or.inr ?_⟩
    · rw [hform, decimal?_positional negative (h.digits.append (digits_zeros _)) (by simp [h.ne_nil])
        digits_zero (by simp), hvalue]
      simp only [leading, Decimal.padded, List.length_singleton, Option.some.injEq,
        Decimal.mk.injEq, true_and]
      omega
    · simp only [leading, Decimal.padded]
      omega
  · have hlt : k + 1 < cs.length := by
      rw [List.drop_eq_nil_iff] at hdrop
      omega
    have hform : positional cs (.ofNat k) = cs.take (k + 1) ++ '.' :: cs.drop (k + 1) := by
      simp [positional, hdrop, Nat.min_eq_left (Nat.le_of_lt hlt)]
    have hne : cs.take (k + 1) ≠ [] := by simp [h.ne_nil]
    refine ⟨0, ?_, Or.inl rfl⟩
    rw [hform, decimal?_positional negative (fun c hc => h.digits c (List.mem_of_mem_take hc)) hne
      (fun c hc => h.digits c (List.mem_of_mem_drop hc)) hdrop, List.take_append_drop, h.value,
      Decimal.padded_zero]
    simp only [leading, List.length_drop, Option.some.injEq, Decimal.mk.injEq, true_and]
    omega

/-- The point lies in front of all digits. -/
theorem decimal?_positional_negSucc (negative : Bool) (h : Writes n cs) (k : Nat) :
    decimal? (sign negative ++ positional cs (.negSucc k)) =
      some (leading negative n cs (.negSucc k)) := by
  have hlen := List.length_pos_iff.mpr h.ne_nil
  have hvalue : Nat.ofDigitChars 10 (['0'] ++ (List.replicate k '0' ++ cs)) 0 = n := by
    rw [List.singleton_append, Nat.ofDigitChars_cons, Nat.ofDigitChars_append,
      Nat.ofDigitChars_replicate_zero, Nat.sub_self, Nat.mul_zero, h.value]
  have hform : positional cs (.negSucc k) = ['0'] ++ '.' :: (List.replicate k '0' ++ cs) := rfl
  rw [hform, decimal?_positional negative digits_zero (by simp)
    ((digits_zeros k).append h.digits) (by simp [h.ne_nil]), hvalue]
  simp only [leading, List.length_append, List.length_replicate, Option.some.injEq,
    Decimal.mk.injEq, true_and]
  omega

/-! ### Writing and reading -/

/-- The exponent of the leading digit. -/
def order (d : Decimal) : Int := d.exponent + (Nat.toDigits 10 d.digits).length - 1

theorem leading_order (d : Decimal) :
    leading d.negative d.digits (Nat.toDigits 10 d.digits) (order d) = d := by
  obtain ⟨negative, digits, exponent⟩ := d
  have hlen : 0 < (Nat.toDigits 10 digits).length := Nat.length_toDigits_pos
  simp only [leading, order, Decimal.mk.injEq, true_and]
  omega

/-- What a style writes is read as the same decimal, but for zeros at the end of its digits.  There
are such zeros only in the positional form, and the last of them stands behind the point. -/
theorem decimal?_decimal (style : Style) (d : Decimal)
    (h : style.plusSign = true ∨ order d < 0 ∨
      style.leastPositional ≤ order d ∧ order d ≤ style.greatestPositional) :
    ∃ zeros, decimal? (style.decimal d) = some (d.padded zeros) ∧
      (zeros = 0 ∨ (d.padded zeros).exponent = -1 ∧ order d ≤ style.greatestPositional) := by
  have hwrites := writes_toDigits d.digits
  have hd := leading_order d
  have hform : style.decimal d = sign d.negative ++ style.magnitude d := rfl
  have hmagnitude : style.magnitude d =
      if style.leastPositional ≤ order d ∧ order d ≤ style.greatestPositional then
        positional (Nat.toDigits 10 d.digits) (order d)
      else scientific style.plusSign (Nat.toDigits 10 d.digits) (order d) := rfl
  rw [hform, hmagnitude]
  split
  · next hrange =>
    generalize order d = e at hd hrange
    cases e with
    | ofNat k =>
      obtain ⟨zeros, hzeros, hcases⟩ := decimal?_positional_ofNat d.negative hwrites k
      exact ⟨zeros, hd ▸ hzeros, hcases.imp_right fun hlast => ⟨hd ▸ hlast, hrange.2⟩⟩
    | negSucc k =>
      refine ⟨0, ?_, Or.inl rfl⟩
      rw [decimal?_positional_negSucc d.negative hwrites k, hd, Decimal.padded_zero]
  · next hrange =>
    have hsign : style.plusSign = true ∨ order d < 0 := by
      rcases h with hplus | hneg | hpos
      · exact Or.inl hplus
      · exact Or.inr hneg
      · exact absurd hpos hrange
    refine ⟨0, ?_, Or.inl rfl⟩
    rw [decimal?_scientific d.negative hwrites hsign, hd, Decimal.padded_zero]

theorem mark_mem_decimal (style : Style) (d : Decimal) :
    ∃ c ∈ style.decimal d, c = '.' ∨ c = 'e' := by
  have hmagnitude : ∃ c ∈ style.magnitude d, c = '.' ∨ c = 'e' := by
    simp only [magnitude]
    split
    · refine ⟨'.', ?_, Or.inl rfl⟩
      unfold positional
      split <;> simp
    · exact ⟨'e', by simp [scientific], Or.inr rfl⟩
  obtain ⟨c, hc, hmark⟩ := hmagnitude
  exact ⟨c, List.mem_append_right _ hc, hmark⟩

theorem read_write {style : Style} (hplus : style.plusSign = true) {x : Binary64}
    (h : x.isFinite = true) :
    ∃ d, decimal? (style.write x) = some d ∧ Binary64.ofDecimal d = x := by
  obtain ⟨zeros, hzeros, -⟩ := decimal?_decimal style (x.shortest style.tie) (Or.inl hplus)
  refine ⟨_, hzeros, ?_⟩
  rw [Binary64.ofDecimal_padded, Binary64.ofDecimal_shortest h]

end MicroLisp.Style
