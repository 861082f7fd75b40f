import MicroLisp.Binary64.Text
import MicroLisp.Proofs.Grammar.Numeral

/-!
# Which texts denote a double

A text denotes a double by the grammar of general use, and by no other
(`isSome_ofText?_iff`).  Decimal numerals are part of that grammar, and each of them
denotes its own number, rounded (`IsDecimal.ofText?`).
-/

namespace MicroLisp
open Numeral

variable {word : List Char} {d : Decimal} {negative : Bool} {s whole fraction m digits : List Char}

namespace Binary64

/-! ### Numerals -/

theorem ofText?_of_decimalBy? (h : decimalBy? freeExponent? word = some d) :
    ofText? word = some (ofDecimal d) := by
  rw [ofText?, h]

theorem freeExponent?_letter {letter : Char} (h : letter = 'e' ∨ letter = 'E') (digits : List Char) :
    freeExponent? (letter :: digits) = integer? digits := if_pos h

/-- A letter that begins an exponent is not part of the mantissa. -/
theorem stops_letter {letter : Char} (h : letter = 'e' ∨ letter = 'E') (digits : List Char) :
    Stops (letter :: digits) ∧ (letter :: digits).head? ≠ some '.' := by
  obtain rfl | rfl := h
  · exact ⟨stops_cons rfl digits, by simp⟩
  · exact ⟨stops_cons rfl digits, by simp⟩

theorem ofText?_plain (hs : Sign negative s) (hm : Mantissa whole fraction m) :
    ofText? (s ++ m) =
      some (ofDecimal ⟨negative, Nat.ofDigitChars 10 (whole ++ fraction) 0, 0 - fraction.length⟩) := by
  have hread := decimalBy?_append freeExponent? hs hm stops_nil (by simp)
  rw [List.append_nil] at hread
  exact ofText?_of_decimalBy? hread

theorem ofText?_scaled (hs : Sign negative s) (hm : Mantissa whole fraction m) {letter : Char}
    (hletter : letter = 'e' ∨ letter = 'E') {e : Int} (he : IsInteger digits e) :
    ofText? (s ++ (m ++ letter :: digits)) =
      some (ofDecimal
        ⟨negative, Nat.ofDigitChars 10 (whole ++ fraction) 0, e - fraction.length⟩) := by
  obtain ⟨hstops, hpoint⟩ := stops_letter hletter digits
  have hread := decimalBy?_append freeExponent? hs hm hstops hpoint
  rw [freeExponent?_letter hletter, he.integer?, Option.map_some] at hread
  exact ofText?_of_decimalBy? hread

/-! ### Names -/

theorem named?_eq_none_iff {name : List Char} :
    named? negative name = none ↔ String.ofList (name.map Char.toLower) ∉ ["inf", "infinity", "nan"] := by
  unfold named?
  split
  · next h => simp [h]
  · next h => simp [h]
  · next h => simp [h]
  · next hinf hinfinity hnan =>
    simp only [List.mem_cons, List.not_mem_nil, or_false, not_or, true_iff]
    exact ⟨hinf, hinfinity, hnan⟩

/-- No name begins with a sign. -/
theorem not_sign_of_named {name : List Char}
    (h : String.ofList (name.map Char.toLower) ∈ ["inf", "infinity", "nan"]) :
    ∀ c, name.head? = some c → c ≠ '+' ∧ c ≠ '-' := by
  intro c hc
  have hnames : ∀ s ∈ ["inf", "infinity", "nan"],
      s.toList.head? ≠ some '+' ∧ s.toList.head? ≠ some '-' := by
    decide
  obtain ⟨hplus, hminus⟩ := hnames _ h
  rw [String.toList_ofList, List.head?_map, hc] at hplus hminus
  constructor
  · rintro rfl
    exact hplus rfl
  · rintro rfl
    exact hminus rfl

theorem isSome_ofText?_named (hs : Sign negative s) {name : List Char}
    (h : String.ofList (name.map Char.toLower) ∈ ["inf", "infinity", "nan"]) :
    (ofText? (s ++ name)).isSome = true := by
  rw [ofText?, splitSign_append hs (not_sign_of_named h)]
  split
  · rfl
  · rw [Option.isSome_iff_ne_none]
    exact fun hnone => named?_eq_none_iff.mp hnone h

end Binary64

open Binary64

/-! ### The grammar -/

theorem Numeral.DenotesDouble.isSome_ofText? (h : DenotesDouble word) :
    (ofText? word).isSome = true := by
  cases h with
  | plain hs hm => rw [ofText?_plain hs hm, Option.isSome_some]
  | scaled hs hm hletter hs' hw => rw [ofText?_scaled hs hm hletter (.intro hs' hw), Option.isSome_some]
  | named hs hname => exact isSome_ofText?_named hs hname

theorem Binary64.isSome_ofText?_iff : (ofText? word).isSome = true ↔ DenotesDouble word := by
  refine ⟨fun h => ?_, fun h => h.isSome_ofText?⟩
  unfold ofText? at h
  split at h
  · next d hd =>
    obtain ⟨negative, s, whole, fraction, m, x, e, hs, hm, he, rfl, -⟩ := exists_parts hd
    cases x with
    | nil =>
      rw [List.append_nil]
      exact .plain hs hm
    | cons letter digits =>
      by_cases hletter : letter = 'e' ∨ letter = 'E'
      · rw [freeExponent?_letter hletter] at he
        obtain ⟨hs', hw⟩ := isInteger_of_integer? he
        exact .scaled hs hm hletter hs' hw
      · rw [freeExponent?, if_neg hletter] at he
        cases he
  -- no numeral, so there is a name behind the sign
  · obtain ⟨s, hs, hword⟩ := exists_sign word
    rw [hword]
    refine .named hs ?_
    by_contra hname
    have hnone : (named? (splitSign word).1 (splitSign word).2).isSome = true := h
    rw [named?_eq_none_iff.mpr hname] at hnone
    cases hnone

/-- A decimal numeral denotes the double next to its number. -/
theorem Numeral.IsDecimal.ofText? (h : IsDecimal word d) : ofText? word = some (ofDecimal d) := by
  obtain ⟨hs, hm, hx⟩ := h
  cases hx with
  | none =>
    rw [List.append_nil]
    exact ofText?_plain hs hm
  | plus hw => exact ofText?_scaled hs hm (Or.inl rfl) (.intro .plus hw)
  | minus hw => exact ofText?_scaled hs hm (Or.inl rfl) (.intro .minus hw)

end MicroLisp
