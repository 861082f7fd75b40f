import Mathlib.Algebra.Group.Int.Defs
import MicroLisp.Proofs.Binary64.Shortest
import MicroLisp.Proofs.Binary64.Text
import MicroLisp.Word

/-!
# What words stand for

The cases of `Word.classify`, from either side: a word that is an integer numeral
with a value that fits stands for that integer, and any other numeral for a float;
a symbol is a word under its own spelling, and a float is always a number.  No decimal
numeral fails to denote a double, so none of them is left to be a symbol (`classify_eq`).
The grammar of numerals tells which case it is (`classify_eq_iff`).  An integer numeral is out of
range exactly if its digits write too large a number for its sign.
-/

namespace MicroLisp.Word
open Numeral

variable {word : List Char}

theorem not_numeral_hash {word : List Char} (h : '#' ∈ word) :
    integer? word = none ∧ decimal? word = none := by
  rw [Option.eq_none_iff_forall_ne_some, Option.eq_none_iff_forall_ne_some]
  refine ⟨fun n hn => ?_, fun d hd => ?_⟩
  · exact absurd (of_mem_integer? hn h) (by decide)
  · rcases of_mem_decimal? hd h with hc | hc | hc | hc | hc
    all_goals exact absurd hc (by decide)

theorem ne_hash_of_numeral (h : '#' ∉ word) : word ≠ ['#', 't'] ∧ word ≠ ['#', 'f'] := by
  constructor
  · rintro rfl
    exact h (by decide)
  · rintro rfl
    exact h (by decide)

/-- A decimal numeral is a float, since each of them denotes a double. -/
theorem classify_eq (word : List Char) :
    classify word =
      if word = ['#', 't'] then .boolean true
      else if word = ['#', 'f'] then .boolean false
      else match (integer? word).bind fit? with
        | some n => .int n
        | none =>
          match decimal? word with
          | some d => .float (Binary64.ofDecimal d)
          | none => .symbol (String.ofList word) := by
  have hread : (if (decimal? word).isSome then Binary64.ofText? word else none) =
      (decimal? word).map Binary64.ofDecimal := by
    cases hd : decimal? word with
    | none => rfl
    | some d => exact (isDecimal_of_decimal? hd).ofText?
  rw [classify, hread]
  cases decimal? word with
  | none => rfl
  | some d => rfl

theorem classify_of_integer? {n : Int} {v : Int64} (hn : integer? word = some n)
    (hv : fit? n = some v) : classify word = .int v := by
  have hhash : '#' ∉ word := by
    intro h
    rw [(not_numeral_hash h).1] at hn
    cases hn
  obtain ⟨htrue, hfalse⟩ := ne_hash_of_numeral hhash
  simp only [classify_eq, htrue, hfalse, ↓reduceIte, hn, hv, Option.bind_some]

theorem classify_of_decimal? {d : Decimal} (hn : integer? word = none)
    (hd : decimal? word = some d) : classify word = .float (Binary64.ofDecimal d) := by
  have hhash : '#' ∉ word := by
    intro h
    rw [(not_numeral_hash h).2] at hd
    cases hd
  obtain ⟨htrue, hfalse⟩ := ne_hash_of_numeral hhash
  simp only [classify_eq, htrue, hfalse, ↓reduceIte, hn, hd, Option.bind_none]

theorem eq_of_classify_eq_symbol {s : String} (h : classify word = .symbol s) :
    s = String.ofList word := by
  rw [classify_eq] at h
  split_ifs at h
  split at h
  · cases h
  · split at h
    · cases h
    · exact (Token.symbol.inj h).symm

theorem isNaN_of_classify_eq_float {x : Binary64} (h : classify word = .float x) :
    x.isNaN = false := by
  rw [classify_eq] at h
  split_ifs at h
  split at h
  · cases h
  · split at h
    · next d hd =>
      rw [← Token.float.inj h]
      exact Binary64.isNaN_ofDecimal d
    · cases h

/-! ### Numerals out of range -/

/-- Digits, with a sign or without one, that write a number outside the sixty-four bit integers. -/
def Exceeds (word : List Char) : Prop :=
  ∃ n digits, Writes n digits ∧
    (word = '-' :: digits ∧ 2 ^ 63 < n ∨ (word = digits ∨ word = '+' :: digits) ∧ 2 ^ 63 ≤ n)

theorem fit?_eq_none_iff {n : Int} : fit? n = none ↔ n < -2 ^ 63 ∨ 2 ^ 63 ≤ n := by
  have hmin : Int64.minValue.toInt = -2 ^ 63 := rfl
  have hmax : Int64.maxValue.toInt = 2 ^ 63 - 1 := rfl
  rw [fit?, hmin, hmax]
  split
  · next h => simp only [reduceCtorEq, false_iff]; omega
  · next h => simp only [true_iff]; omega

theorem outOfRange_iff_of_integer? {n : Int} (h : integer? word = some n) :
    outOfRange word = true ↔ n < -2 ^ 63 ∨ 2 ^ 63 ≤ n := by
  rw [outOfRange, h, Option.any_some, Option.isNone_iff_eq_none, fit?_eq_none_iff]

theorem outOfRange_iff : outOfRange word = true ↔ Exceeds word := by
  constructor
  · intro h
    cases hn : integer? word with
    | none =>
      rw [outOfRange, hn] at h
      cases h
    | some n =>
      have hrange := (outOfRange_iff_of_integer? hn).mp h
      obtain ⟨hs, hwrites⟩ := isInteger_of_integer? hn
      refine ⟨_, _, hwrites, ?_⟩
      cases hs with
      | none =>
        simp only [signed, Bool.false_eq_true, if_false] at hrange
        exact Or.inr ⟨Or.inl rfl, by omega⟩
      | plus =>
        simp only [signed, Bool.false_eq_true, if_false] at hrange
        exact Or.inr ⟨Or.inr rfl, by omega⟩
      | minus =>
        simp only [signed, if_true] at hrange
        exact Or.inl ⟨rfl, by omega⟩
  · rintro ⟨m, digits, hwrites, ⟨rfl, hm⟩ | ⟨rfl | rfl, hm⟩⟩
    · refine (outOfRange_iff_of_integer? (hwrites.integer?_sign true)).mpr ?_
      simp only [signed, if_true]
      omega
    · refine (outOfRange_iff_of_integer? (hwrites.integer?_sign false)).mpr ?_
      simp only [signed, Bool.false_eq_true, if_false]
      omega
    · refine (outOfRange_iff_of_integer? hwrites.integer?_plus).mpr ?_
      omega

/-! ### The grammar of words -/

/-- What a word stands for, by the grammar of numerals. -/
inductive Reading (word : List Char) : Token → Prop
  | boolean (b : Bool) : word = ['#', if b then 't' else 'f'] → Reading word (.boolean b)
  | int (v : Int64) : IsInteger word v.toInt → Reading word (.int v)
  | float {d : Decimal} : IsDecimal word d → (∀ v : Int64, ¬ IsInteger word v.toInt) →
      Reading word (.float (Binary64.ofDecimal d))
  | symbol : (∀ b : Bool, word ≠ ['#', if b then 't' else 'f']) → (∀ d, ¬ IsDecimal word d) →
      Reading word (.symbol (String.ofList word))

theorem fit?_eq_some_iff {n : Int} {v : Int64} : fit? n = some v ↔ v.toInt = n := by
  constructor
  · intro h
    unfold fit? at h
    split_ifs at h with hrange
    obtain rfl := Option.some.inj h
    have hmax : Int64.maxValue.toInt = 2 ^ 63 - 1 := rfl
    exact Int64.toInt_ofInt_of_le hrange.1 (by omega)
  · rintro rfl
    exact fit?_toInt v

theorem bind_fit?_eq_some_iff {v : Int64} :
    (integer? word).bind fit? = some v ↔ IsInteger word v.toInt := by
  simp only [Option.bind_eq_some_iff, integer?_eq_some_iff, fit?_eq_some_iff, exists_eq_right']

theorem reading_classify (word : List Char) : Reading word (classify word) := by
  rw [classify_eq]
  split_ifs with htrue hfalse
  · exact .boolean true htrue
  · exact .boolean false hfalse
  split
  · next v hv => exact .int v (bind_fit?_eq_some_iff.mp hv)
  · next hnone =>
    have hint : ∀ v : Int64, ¬ IsInteger word v.toInt := by
      intro v hv
      rw [bind_fit?_eq_some_iff.mpr hv] at hnone
      cases hnone
    split
    · next d hd => exact .float (isDecimal_of_decimal? hd) hint
    · next hd =>
      refine .symbol (fun b => ?_) (decimal?_eq_none_iff.mp hd)
      cases b
      · exact hfalse
      · exact htrue

theorem not_isDecimal_boolean (b : Bool) (d : Decimal) :
    ¬ IsDecimal ['#', if b then 't' else 'f'] d := by
  intro h
  have hmem : '#' ∈ ['#', if b then 't' else 'f'] := List.mem_cons_self
  have hnone := (not_numeral_hash hmem).2
  rw [h.decimal?] at hnone
  cases hnone

theorem Reading.unique {t u : Token} (ht : Reading word t) (hu : Reading word u) : t = u := by
  cases ht with
  | boolean b hb =>
    subst hb
    cases hu with
    | boolean b' hb' => revert b b'; decide
    | int v hv =>
      obtain ⟨d, hd, -⟩ := hv.exists_isDecimal
      exact absurd hd (not_isDecimal_boolean b d)
    | float hd _ => exact absurd hd (not_isDecimal_boolean b _)
    | symbol hb' _ => exact absurd rfl (hb' b)
  | int v hv =>
    obtain ⟨d, hd, -⟩ := hv.exists_isDecimal
    cases hu with
    | boolean b hb => exact absurd (hb ▸ hd) (not_isDecimal_boolean b d)
    | int v' hv' =>
      have hsame := Option.some.inj (hv.integer?.symm.trans hv'.integer?)
      rw [Int64.toInt_inj.mp hsame]
    | float _ hint => exact absurd hv (hint v)
    | symbol _ hnone => exact absurd hd (hnone d)
  | float hd hint =>
    cases hu with
    | boolean b hb => exact absurd (hb ▸ hd) (not_isDecimal_boolean b _)
    | int v hv => exact absurd hv (hint v)
    | float hd' _ => rw [hd.unique hd']
    | symbol _ hnone => exact absurd hd (hnone _)
  | symbol hb hnone =>
    cases hu with
    | boolean b hb' => exact absurd hb' (hb b)
    | int v hv =>
      obtain ⟨d, hd, -⟩ := hv.exists_isDecimal
      exact absurd hd (hnone d)
    | float hd _ => exact absurd hd (hnone _)
    | symbol => rfl

theorem classify_eq_iff {t : Token} : classify word = t ↔ Reading word t :=
  ⟨fun h => h ▸ reading_classify word, (reading_classify word).unique⟩

theorem classify_eq_boolean_iff {b : Bool} :
    classify word = .boolean b ↔ word = ['#', if b then 't' else 'f'] := by
  rw [classify_eq_iff]
  constructor
  · rintro ⟨⟩
    assumption
  · exact .boolean b

theorem classify_eq_int_iff {v : Int64} : classify word = .int v ↔ IsInteger word v.toInt := by
  rw [classify_eq_iff]
  constructor
  · rintro ⟨⟩
    assumption
  · exact .int v

theorem exists_classify_eq_int_iff {n : Int} :
    (∃ v : Int64, v.toInt = n ∧ classify word = .int v) ↔
      IsInteger word n ∧ -2 ^ 63 ≤ n ∧ n ≤ 2 ^ 63 - 1 := by
  constructor
  · rintro ⟨v, rfl, hv⟩
    exact ⟨classify_eq_int_iff.mp hv, v.minValue_le_toInt, v.toInt_le⟩
  · rintro ⟨h, hmin, hmax⟩
    have hv : (Int64.ofInt n).toInt = n := Int64.toInt_ofInt_of_le hmin (by omega)
    exact ⟨Int64.ofInt n, hv, classify_eq_int_iff.mpr (hv.symm ▸ h)⟩

theorem classify_eq_float_iff {x : Binary64} :
    classify word = .float x ↔ (∃ d, IsDecimal word d ∧ Binary64.ofDecimal d = x) ∧
      ∀ n, ¬ (IsInteger word n ∧ -2 ^ 63 ≤ n ∧ n ≤ 2 ^ 63 - 1) := by
  rw [classify_eq_iff]
  constructor
  · rintro ⟨⟩
    next d hd hint =>
    refine ⟨⟨d, hd, rfl⟩, fun n hn => ?_⟩
    obtain ⟨v, rfl, hv⟩ := exists_classify_eq_int_iff.mpr hn
    exact hint v hn.1
  · rintro ⟨⟨d, hd, rfl⟩, hint⟩
    exact .float hd fun v hv => hint v.toInt ⟨hv, v.minValue_le_toInt, v.toInt_le⟩

theorem classify_eq_symbol_iff {s : String} :
    classify word = .symbol s ↔
      s = String.ofList word ∧ (∀ b : Bool, word ≠ ['#', if b then 't' else 'f']) ∧
        ∀ d, ¬ IsDecimal word d := by
  rw [classify_eq_iff]
  constructor
  · rintro ⟨⟩
    next hb hnone => exact ⟨rfl, hb, hnone⟩
  · rintro ⟨rfl, hb, hnone⟩
    exact .symbol hb hnone

end MicroLisp.Word
