import MicroLisp.Json.Number
import MicroLisp.Proofs.Binary64.Style

/-!
# Numbers are read as they were written

A number in canonical form is read back from its spelling (`read?_spelling`), and the
spelling is at the same time a decimal numeral (`decimal?_spelling`).  Integers and the
written forms of doubles are such spellings.  As long as the digits fit the reader's
significand, the number is read as the double that scaling them gives
(`toBinary64?_eq`).
-/

namespace MicroLisp.Json.Number
open Numeral

variable {n : Number} {rest : List Char}

/-! ### Spelling -/

def fractionText : Option (List Char) → List Char
  | none => []
  | some digits => '.' :: digits

def exponentText : Option Int → List Char
  | none => []
  | some e => 'e' :: Style.exponent true e

def spelling (n : Number) : List Char :=
  sign n.negative ++ (n.whole ++ (fractionText n.fraction ++ exponentText n.exponent))

/-- The form in which numbers are written. -/
structure Canonical (n : Number) : Prop where
  whole : Digits n.whole
  ne_nil : n.whole ≠ []
  leading : n.whole.head? = some '0' → n.whole = ['0']
  fraction : ∀ digits, n.fraction = some digits → Digits digits ∧ digits ≠ []

def Stop (rest : List Char) : Prop :=
  ∀ c, rest.head? = some c → c.isDigit = false ∧ c ≠ '.' ∧ c ≠ 'e' ∧ c ≠ 'E'

theorem Stop.stops (h : Stop rest) : Stops rest := fun c hc => (h c hc).1

theorem stops_exponentText (e : Option Int) (hrest : Stop rest) : Stops (exponentText e ++ rest) := by
  cases e with
  | none => exact hrest.stops
  | some e => exact stops_cons rfl _

/-! ### Reading a spelling -/

theorem readExponent?_digits (h : Stop rest) (plus : Bool) (k : Nat) :
    readExponent? ('e' :: (if plus then '+' else '-') :: (Nat.toDigits 10 k ++ rest)) =
      some (some (signed (!plus) k), rest) := by
  have hwrites := writes_toDigits k
  obtain ⟨htake, hdrop⟩ := span_digits hwrites.digits h.stops
  have hsplit : splitSign ((if plus then '+' else '-') :: (Nat.toDigits 10 k ++ rest)) =
      (!plus, Nat.toDigits 10 k ++ rest) := by
    cases plus
    · rfl
    · rfl
  simp only [readExponent?, true_or, ↓reduceIte, hsplit, htake, hdrop, hwrites.ne_nil, hwrites.value]

theorem readExponent?_exponentText (h : Stop rest) (e : Option Int) :
    readExponent? (exponentText e ++ rest) = some (e, rest) := by
  rcases e with _ | k | k
  · cases rest with
    | nil => rfl
    | cons c rest =>
      obtain ⟨-, -, he, hE⟩ := h c rfl
      simp only [exponentText, List.nil_append, readExponent?, he, hE, or_self, ↓reduceIte]
  · exact readExponent?_digits h true k
  · exact readExponent?_digits h false (k + 1)

theorem readFraction?_fractionText {f : Option (List Char)}
    (hf : ∀ digits, f = some digits → Digits digits ∧ digits ≠ []) (hrest : Stops rest)
    (hpoint : rest.head? ≠ some '.') :
    readFraction? (fractionText f ++ rest) = some (f, rest) := by
  cases f with
  | none =>
    rw [fractionText, List.nil_append]
    unfold readFraction?
    split
    · exact absurd rfl hpoint
    · rfl
  | some digits =>
    obtain ⟨hdigits, hne⟩ := hf digits rfl
    obtain ⟨htake, hdrop⟩ := span_digits hdigits hrest
    simp only [fractionText, List.cons_append, readFraction?, htake, hdrop, hne, ↓reduceIte]

theorem head?_exponentText (h : Stop rest) (e : Option Int) :
    (exponentText e ++ rest).head? ≠ some '.' := by
  cases e with
  | none =>
    intro hpoint
    exact (h '.' hpoint).2.1 rfl
  | some e =>
    intro hpoint
    exact absurd (Option.some.inj hpoint) (by decide)

theorem stops_fractionText (f : Option (List Char)) (hrest : Stops rest) :
    Stops (fractionText f ++ rest) := by
  cases f with
  | none => exact hrest
  | some digits => exact stops_cons rfl _

theorem readUnsigned?_spelled (h : n.Canonical) (hrest : Stop rest) :
    readUnsigned? n.negative (n.whole ++ (fractionText n.fraction ++ (exponentText n.exponent ++ rest))) =
      some (n, rest) := by
  have hexponent := stops_exponentText n.exponent hrest
  obtain ⟨htake, hdrop⟩ := span_digits h.whole (stops_fractionText n.fraction hexponent)
  have hwhole : ¬ (n.whole = [] ∨ n.whole.head? = some '0' ∧ n.whole ≠ ['0']) := by
    rintro (hnil | ⟨hzero, hne⟩)
    · exact h.ne_nil hnil
    · exact hne (h.leading hzero)
  simp only [readUnsigned?, htake, hdrop, hwhole, ↓reduceIte,
    readFraction?_fractionText h.fraction hexponent (head?_exponentText hrest n.exponent),
    readExponent?_exponentText hrest]

theorem read?_spelling (h : n.Canonical) (hrest : Stop rest) :
    read? (n.spelling ++ rest) = some (n, rest) := by
  have hunsigned := readUnsigned?_spelled h hrest
  rw [spelling, List.append_assoc, List.append_assoc, List.append_assoc]
  cases hsign : n.negative with
  | true =>
    rw [hsign] at hunsigned
    exact hunsigned
  | false =>
    rw [hsign] at hunsigned
    obtain ⟨c, tail, hc⟩ := List.exists_cons_of_ne_nil h.ne_nil
    have hdigit := h.whole c (hc ▸ List.mem_cons_self)
    rw [hc] at hunsigned ⊢
    simp only [sign, Bool.false_eq_true, ↓reduceIte, List.nil_append, List.cons_append] at hunsigned ⊢
    unfold read?
    split
    · next heq =>
      obtain rfl := (List.cons.inj heq).1
      cases hdigit
    · exact hunsigned

/-! ### The value of a spelling -/

def decimal (n : Number) : Decimal :=
  ⟨n.negative, Nat.ofDigitChars 10 (n.whole ++ n.fraction.getD []) 0,
    n.exponent.getD 0 - (n.fraction.getD []).length⟩

theorem decimal?_spelling (h : n.Canonical) : decimal? n.spelling = some n.decimal := by
  have hstop : Stop [] := by
    intro c hc
    cases hc
  have hfraction : fractionText n.fraction = point (n.fraction.getD []) ∧
      Digits (n.fraction.getD []) := by
    cases hf : n.fraction with
    | none => exact ⟨rfl, fun c hc => absurd hc List.not_mem_nil⟩
    | some digits =>
      obtain ⟨hdigits, hne⟩ := h.fraction digits hf
      exact ⟨(if_neg hne).symm, hdigits⟩
  have hexponent : exponent? (exponentText n.exponent) = some (n.exponent.getD 0) := by
    cases n.exponent with
    | none => rfl
    | some e => exact Style.exponent?_exponent (Or.inl rfl)
  have hstops := stops_exponentText n.exponent hstop
  have hpoint := head?_exponentText hstop n.exponent
  rw [List.append_nil] at hstops hpoint
  rw [spelling, hfraction.1]
  exact decimal?_spelled n.negative h.whole h.ne_nil hfraction.2 hexponent hstops hpoint

/-! ### Integers -/

def ofInt (m : Int) : Number := ⟨decide (m < 0), Nat.toDigits 10 m.natAbs, none, none⟩

theorem spelling_ofInt (m : Int) :
    (ofInt m).spelling = sign (decide (m < 0)) ++ Nat.toDigits 10 m.natAbs := by
  simp [spelling, ofInt, fractionText, exponentText]

theorem canonical_ofInt (m : Int) : (ofInt m).Canonical where
  whole := digits_toDigits _
  ne_nil := Nat.toDigits_ne_nil
  leading := toDigits_of_head?_eq_zero
  fraction := fun _ h => nomatch h

theorem toInt64?_ofInt (v : Int64) : (ofInt v.toInt).toInt64? = some v := by
  have hvalue := (writes_toDigits v.toInt.natAbs).value
  have hnonzero : ¬ (decide (v.toInt < 0) = true ∧ v.toInt.natAbs = 0) := by
    rw [decide_eq_true_eq]
    omega
  simp only [toInt64?, ofInt, hvalue, and_self, ↓reduceIte, hnonzero, signed_natAbs, fit?_toInt]

/-! ### Written doubles -/

/-- The number that a style writes for a decimal. -/
def ofDecimal (style : Style) (d : Decimal) : Number :=
  let digits := Nat.toDigits 10 d.digits
  let e := Style.order d
  if style.leastPositional ≤ e ∧ e ≤ style.greatestPositional then
    match e with
    | .ofNat k =>
      ⟨d.negative, digits.take (k + 1) ++ List.replicate (k + 1 - (digits.take (k + 1)).length) '0',
        some (if digits.drop (k + 1) = [] then ['0'] else digits.drop (k + 1)), none⟩
    | .negSucc k => ⟨d.negative, ['0'], some (List.replicate k '0' ++ digits), none⟩
  else
    ⟨d.negative, digits.take 1, if digits.drop 1 = [] then none else some (digits.drop 1), some e⟩

theorem spelling_ofDecimal {style : Style} (hplus : style.plusSign = true) (d : Decimal) :
    (ofDecimal style d).spelling = style.decimal d := by
  have hform : style.decimal d = sign d.negative ++ style.magnitude d := rfl
  have hmagnitude : style.magnitude d =
      if style.leastPositional ≤ Style.order d ∧ Style.order d ≤ style.greatestPositional then
        Style.positional (Nat.toDigits 10 d.digits) (Style.order d)
      else Style.scientific style.plusSign (Nat.toDigits 10 d.digits) (Style.order d) := rfl
  rw [hform, hmagnitude, hplus]
  unfold ofDecimal
  dsimp only
  split
  · generalize Style.order d = e
    cases e with
    | ofNat k => simp [spelling, Style.positional, fractionText, exponentText]
    | negSucc k => simp [spelling, Style.positional, fractionText, exponentText]
  · rw [Style.scientific]
    by_cases hdrop : (Nat.toDigits 10 d.digits).drop 1 = []
    · simp only [spelling, hdrop, ↓reduceIte, fractionText, exponentText, List.nil_append,
        List.append_nil]
    · simp only [spelling, hdrop, ↓reduceIte, fractionText, exponentText, List.append_assoc]

theorem order_of_head?_eq_zero {d : Decimal} (h : d.digits = 0 → d.exponent = 0)
    (hzero : (Nat.toDigits 10 d.digits).head? = some '0') :
    Nat.toDigits 10 d.digits = ['0'] ∧ Style.order d = 0 := by
  have hdigits := toDigits_of_head?_eq_zero hzero
  have hvalue := (writes_toDigits d.digits).value
  rw [hdigits] at hvalue
  have hexponent := h hvalue.symm
  refine ⟨hdigits, ?_⟩
  rw [Style.order, hdigits, hexponent]
  rfl

theorem canonical_ofDecimal (style : Style) {d : Decimal} (h : d.digits = 0 → d.exponent = 0) :
    (ofDecimal style d).Canonical := by
  have hdigits := digits_toDigits d.digits
  have hne : Nat.toDigits 10 d.digits ≠ [] := Nat.toDigits_ne_nil
  have htake (k : Nat) : Digits ((Nat.toDigits 10 d.digits).take k) :=
    fun c hc => hdigits c (List.mem_of_mem_take hc)
  have hdrop (k : Nat) : Digits ((Nat.toDigits 10 d.digits).drop k) :=
    fun c hc => hdigits c (List.mem_of_mem_drop hc)
  have hzero := order_of_head?_eq_zero h
  unfold ofDecimal
  dsimp only
  split
  · generalize Style.order d = e at hzero
    cases e with
    | ofNat k =>
      refine ⟨(htake _).append (digits_zeros _), by simp [hne], fun hhead => ?_, ?_⟩
      · have hfirst : (Nat.toDigits 10 d.digits).head? = some '0' := by
          cases hds : Nat.toDigits 10 d.digits with
          | nil => exact absurd hds hne
          | cons c ds => simpa [hds] using hhead
        obtain ⟨hone, horder⟩ := hzero hfirst
        obtain rfl : k = 0 := Int.ofNat.inj horder
        simp [hone]
      · intro ds hds
        obtain rfl := Option.some.inj hds
        split
        · exact ⟨digits_zero, by simp⟩
        · next hnil => exact ⟨hdrop _, hnil⟩
    | negSucc k =>
      refine ⟨digits_zero, by simp, fun _ => rfl, ?_⟩
      intro ds hds
      obtain rfl := Option.some.inj hds
      exact ⟨(digits_zeros k).append hdigits, by simp [hne]⟩
  · refine ⟨htake 1, by simp [hne], fun hhead => ?_, ?_⟩
    · have hfirst : (Nat.toDigits 10 d.digits).head? = some '0' := by
        rwa [List.head?_take, if_neg (by decide)] at hhead
      obtain ⟨hone, -⟩ := hzero hfirst
      simp [hone]
    · intro ds hds
      dsimp only at hds
      split at hds
      · cases hds
      · next hnil =>
        obtain rfl := Option.some.inj hds
        exact ⟨hdrop 1, hnil⟩

theorem decimal_ofDecimal {style : Style} (hplus : style.plusSign = true) {d : Decimal}
    (h : d.digits = 0 → d.exponent = 0) :
    ∃ zeros, (ofDecimal style d).decimal = d.padded zeros ∧
      (zeros = 0 ∨ (d.padded zeros).exponent = -1 ∧ Style.order d ≤ style.greatestPositional) := by
  obtain ⟨zeros, hzeros, hcases⟩ := Style.decimal?_decimal style d (Or.inl hplus)
  have hdecimal := decimal?_spelling (canonical_ofDecimal style h)
  rw [spelling_ofDecimal hplus, hzeros] at hdecimal
  exact ⟨zeros, (Option.some.inj hdecimal).symm, hcases⟩

/-! ### Reading doubles -/

theorem gather_eq {ds : List Char} {start : Nat}
    (h : Nat.ofDigitChars 10 ds start ≤ maxSignificand) :
    gather start ds = (Nat.ofDigitChars 10 ds start, []) := by
  induction ds generalizing start with
  | nil => rfl
  | cons d ds ih =>
    rw [Nat.ofDigitChars_cons] at h ⊢
    have hnext := Nat.le_trans (le_ofDigitChars ds _) h
    simp only [gather, hnext, ↓reduceIte, ih h]

/-- All digits are gathered and scaled at the end. -/
theorem toBinary64?_eq (h : n.decimal.digits ≤ maxSignificand) :
    n.toBinary64? = (scale? (.ofNat n.decimal.digits) n.decimal.exponent).map
      fun x => { x with negative := n.negative } := by
  simp only [decimal, Nat.ofDigitChars_append] at h ⊢
  have hwhole : gather 0 n.whole = (Nat.ofDigitChars 10 n.whole 0, []) :=
    gather_eq (Nat.le_trans (le_ofDigitChars _ _) h)
  simp only [toBinary64?, hwhole, gather_eq h, List.length_nil]
  simp

end MicroLisp.Json.Number
