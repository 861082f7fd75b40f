import Mathlib.Algebra.Group.Nat.Defs
import Mathlib.Data.List.TakeWhile
import MicroLisp.Numeral

/-!
# Digits, and what numerals are made of

Digits and signs in front of other characters are taken off as they stand, so that an
integer is read back from its digits (`Writes.integer?_sign`).  No other characters than
digits, signs, the point and the `e` occur in a numeral, and in an integer numeral only
digits and signs.
-/

namespace MicroLisp.Numeral

/-- The characters of numerals. -/
def InNumeral (c : Char) : Prop :=
  c.isDigit = true ∨ c = '+' ∨ c = '-' ∨ c = '.' ∨ c = 'e'

def Digits (cs : List Char) : Prop := ∀ c ∈ cs, c.isDigit = true

/-- Digits that write a natural number. -/
structure Writes (n : Nat) (cs : List Char) : Prop where
  digits : Digits cs
  ne_nil : cs ≠ []
  value : Nat.ofDigitChars 10 cs 0 = n

/-- What follows digits does not go on with one. -/
def Stops (cs : List Char) : Prop := ∀ c, cs.head? = some c → c.isDigit = false

def sign (negative : Bool) : List Char := if negative then ['-'] else []

/-- Digits behind a point; nothing at all when there are none. -/
def point (fraction : List Char) : List Char := if fraction = [] then [] else '.' :: fraction

variable {cs whole fraction rest word : List Char}

/-! ### Digits -/

theorem Digits.append {ds : List Char} (h : Digits cs) (h' : Digits ds) : Digits (cs ++ ds) := by
  intro c hc
  rcases List.mem_append.mp hc with hc | hc
  · exact h c hc
  · exact h' c hc

theorem digits_toDigits (n : Nat) : Digits (Nat.toDigits 10 n) := fun _ hc =>
  Nat.isDigit_of_mem_toDigits (by decide) (by decide) hc

theorem writes_toDigits (n : Nat) : Writes n (Nat.toDigits 10 n) where
  digits := digits_toDigits n
  ne_nil := Nat.toDigits_ne_nil
  value := Nat.ofDigitChars_ten_toDigits

theorem digits_zeros (n : Nat) : Digits (List.replicate n '0') := by
  intro c hc
  rw [(List.mem_replicate.mp hc).2]
  rfl

theorem digits_zero : Digits ['0'] := digits_zeros 1

theorem stops_nil : Stops [] := by
  intro c hc
  cases hc

theorem stops_cons {c : Char} (h : c.isDigit = false) (cs : List Char) : Stops (c :: cs) := by
  intro d hd
  obtain rfl := Option.some.inj hd
  exact h

theorem span_digits (h : Digits cs) (hrest : Stops rest) :
    (cs ++ rest).takeWhile Char.isDigit = cs ∧ (cs ++ rest).dropWhile Char.isDigit = rest := by
  rw [List.takeWhile_append_of_pos h, List.dropWhile_append_of_pos h]
  cases rest with
  | nil => exact ⟨List.append_nil cs, rfl⟩
  | cons c rest =>
    have hc := hrest c rfl
    rw [List.takeWhile_cons_of_neg (by simp [hc]), List.dropWhile_cons_of_neg (by simp [hc])]
    exact ⟨List.append_nil cs, rfl⟩

theorem Digits.not_sign (h : Digits cs) (hne : cs ≠ []) (rest : List Char) :
    ∀ c, (cs ++ rest).head? = some c → c ≠ '+' ∧ c ≠ '-' := by
  intro c hc
  obtain ⟨d, tail, rfl⟩ := List.exists_cons_of_ne_nil hne
  obtain rfl := Option.some.inj hc
  have hd := h d List.mem_cons_self
  constructor
  · rintro rfl
    cases hd
  · rintro rfl
    cases hd

theorem splitSign_of_not_sign (h : ∀ c, word.head? = some c → c ≠ '+' ∧ c ≠ '-') :
    splitSign word = (false, word) := by
  unfold splitSign
  split
  · exact absurd rfl (h '-' rfl).2
  · exact absurd rfl (h '+' rfl).1
  · rfl

theorem splitSign_sign (negative : Bool) (h : Digits cs) (hne : cs ≠ []) (rest : List Char) :
    splitSign (sign negative ++ (cs ++ rest)) = (negative, cs ++ rest) := by
  cases negative with
  | true => rfl
  | false => exact splitSign_of_not_sign (h.not_sign hne rest)

theorem ofDigitChars_lt (h : Digits cs) (start : Nat) :
    Nat.ofDigitChars 10 cs start < (start + 1) * 10 ^ cs.length := by
  induction cs generalizing start with
  | nil => simp
  | cons c cs ih =>
    have hc := h c List.mem_cons_self
    have hnine : c.toNat - '0'.toNat ≤ 9 := by
      simp only [Char.isDigit, Bool.and_eq_true, decide_eq_true_eq, UInt32.le_iff_toNat_le] at hc
      have hle : c.toNat ≤ 57 := hc.2
      have hzero : '0'.toNat = 48 := rfl
      omega
    have htail := ih (fun d hd => h d (List.mem_cons_of_mem c hd)) (10 * start + (c.toNat - '0'.toNat))
    rw [Nat.ofDigitChars_cons, List.length_cons, Nat.pow_succ, Nat.mul_comm _ 10, ← Nat.mul_assoc]
    exact Nat.lt_of_lt_of_le htail (Nat.mul_le_mul_right _ (by omega))

theorem le_ofDigitChars (cs : List Char) (start : Nat) : start ≤ Nat.ofDigitChars 10 cs start := by
  induction cs generalizing start with
  | nil => exact Nat.le_refl _
  | cons c cs ih =>
    rw [Nat.ofDigitChars_cons]
    have htail := ih (10 * start + (c.toNat - '0'.toNat))
    omega

/-- The digits of a number begin with a zero only if that is all of them. -/
theorem toDigits_of_head?_eq_zero {n : Nat} (h : (Nat.toDigits 10 n).head? = some '0') :
    Nat.toDigits 10 n = ['0'] := by
  obtain ⟨cs, hcs⟩ : ∃ cs, Nat.toDigits 10 n = '0' :: cs := by
    rwa [List.head?_eq_some_iff] at h
  by_cases hnil : cs = []
  · rw [hcs, hnil]
  · have hdigits : Digits cs := fun c hc => digits_toDigits n c (hcs ▸ List.mem_cons_of_mem _ hc)
    have hvalue : Nat.ofDigitChars 10 cs 0 = n := by
      have hn := (writes_toDigits n).value
      rwa [hcs, Nat.ofDigitChars_cons, Nat.sub_self, Nat.add_zero] at hn
    have hlt := ofDigitChars_lt hdigits 0
    rw [hvalue, Nat.zero_add, Nat.one_mul] at hlt
    have hlength := (Nat.length_toDigits_le_iff (by decide) (List.length_pos_iff.mpr hnil)).mpr hlt
    rw [hcs, List.length_cons] at hlength
    omega

/-! ### Integers -/

theorem Writes.integer?_sign {n : Nat} (h : Writes n cs) (negative : Bool) :
    integer? (sign negative ++ cs) = some (signed negative n) := by
  have hsplit : splitSign (sign negative ++ cs) = (negative, cs) := by
    have hsign := splitSign_sign negative h.digits h.ne_nil []
    rwa [List.append_nil] at hsign
  have hall : cs.all Char.isDigit = true := List.all_eq_true.mpr h.digits
  simp only [integer?, hsplit, h.ne_nil, hall, h.value, ne_eq, not_false_eq_true, and_self,
    ↓reduceIte]

theorem Writes.integer?_plus {n : Nat} (h : Writes n cs) : integer? ('+' :: cs) = some (n : Int) := by
  have hall : cs.all Char.isDigit = true := List.all_eq_true.mpr h.digits
  simp only [integer?, splitSign, h.ne_nil, hall, h.value, ne_eq, not_false_eq_true, and_self,
    ↓reduceIte]
  rfl

theorem signed_natAbs (n : Int) : signed (decide (n < 0)) n.natAbs = n := by
  simp only [signed, decide_eq_true_eq]
  split
  · omega
  · omega

theorem fit?_toInt (n : Int64) : fit? n.toInt = some n := by
  rw [fit?, if_pos ⟨n.minValue_le_toInt, n.toInt_le⟩, Int64.ofInt_toInt]

theorem mem_of_splitSign {c : Char} (h : c ∈ word) :
    c ∈ (splitSign word).2 ∨ c = '+' ∨ c = '-' := by
  unfold splitSign
  split
  · rcases List.mem_cons.mp h with hc | hc
    · exact Or.inr (Or.inr hc)
    · exact Or.inl hc
  · rcases List.mem_cons.mp h with hc | hc
    · exact Or.inr (Or.inl hc)
    · exact Or.inl hc
  · exact Or.inl h

theorem of_mem_integer? {n : Int} (h : integer? word = some n) {c : Char} (hc : c ∈ word) :
    c.isDigit = true ∨ c = '+' ∨ c = '-' := by
  simp only [integer?] at h
  split at h
  · next hdigits =>
    exact (mem_of_splitSign hc).imp_left (List.all_eq_true.mp hdigits.2 c)
  · cases h

theorem ne_nil_of_integer? {n : Int} (h : integer? word = some n) : word ≠ [] := by
  rintro rfl
  cases h

theorem integer?_eq_none {c : Char} (hc : c ∈ word) (hmark : c = '.' ∨ c = 'e') :
    integer? word = none := by
  rw [Option.eq_none_iff_forall_ne_some]
  intro n hn
  have hdigit := of_mem_integer? hn hc
  rcases hmark with rfl | rfl
  · exact absurd hdigit (by decide)
  · exact absurd hdigit (by decide)

/-! ### Decimals -/

theorem of_mem_exponent? {e : Int} (h : exponent? rest = some e) {c : Char} (hc : c ∈ rest) :
    InNumeral c := by
  unfold exponent? at h
  split at h
  · cases hc
  · next s digits =>
    split at h
    · rcases List.mem_cons.mp hc with rfl | hc
      · exact Or.inr (Or.inr (Or.inr (Or.inr rfl)))
      · rcases of_mem_integer? h hc with hd | hp | hm
        · exact Or.inl hd
        · exact Or.inr (Or.inl hp)
        · exact Or.inr (Or.inr (Or.inl hm))
    · cases h
  · cases h

theorem mem_of_splitFraction {c : Char} (h : c ∈ rest) :
    c ∈ (splitFraction rest).2 ∨ InNumeral c := by
  unfold splitFraction
  split
  · next cs =>
    rcases List.mem_cons.mp h with hc | hc
    · exact Or.inr (Or.inr (Or.inr (Or.inr (Or.inl hc))))
    · rw [← List.takeWhile_append_dropWhile (p := Char.isDigit) (l := cs)] at hc
      rcases List.mem_append.mp hc with hc | hc
      · exact Or.inr (Or.inl (List.mem_takeWhile_imp hc))
      · exact Or.inl hc
  · exact Or.inl h

theorem of_mem_decimal? {d : Decimal} (h : decimal? word = some d) {c : Char} (hc : c ∈ word) :
    InNumeral c := by
  simp only [decimal?, decimalBy?] at h
  split at h
  · cases h
  · obtain ⟨e, he, -⟩ := Option.map_eq_some_iff.mp h
    rcases mem_of_splitSign hc with hbody | hp | hm
    · rw [← List.takeWhile_append_dropWhile (p := Char.isDigit) (l := (splitSign word).2)] at hbody
      rcases List.mem_append.mp hbody with hd | hrest
      · exact Or.inl (List.mem_takeWhile_imp hd)
      · rcases mem_of_splitFraction hrest with hexp | hin
        · exact of_mem_exponent? he hexp
        · exact hin
    · exact Or.inr (Or.inl hp)
    · exact Or.inr (Or.inr (Or.inl hm))

theorem ne_nil_of_decimal? {d : Decimal} (h : decimal? word = some d) : word ≠ [] := by
  rintro rfl
  cases h

end MicroLisp.Numeral
