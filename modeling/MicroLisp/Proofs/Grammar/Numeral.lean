import Mathlib.Tactic.SplitIfs
import MicroLisp.Proofs.Numeral

/-!
# The language of numerals

Numerals by how they are spelled: an optional sign, digits with at most one point among
or beside them, an optional exponent.  The two readers of numerals take exactly these
words, each for the number that it spells (`integer?_eq_some_iff`,
`decimal?_eq_some_iff`), and an integer numeral is a decimal numeral as well.  A decimal
spelled out of a sign, digits, a fraction and an exponent is read as the number it spells
(`decimal?_spelled`).
-/

namespace MicroLisp.Numeral

/-- A sign that can be left out in front of a positive number. -/
inductive Sign : Bool → List Char → Prop
  | none : Sign false []
  | plus : Sign false ['+']
  | minus : Sign true ['-']

/-- Digits with a point that can be left out, by those in front of it and those behind it. -/
inductive Mantissa : List Char → List Char → List Char → Prop
  | whole {whole : List Char} : Digits whole → whole ≠ [] → Mantissa whole [] whole
  | point {whole fraction : List Char} :
      Digits whole → whole ≠ [] → Digits fraction → Mantissa whole fraction (whole ++ '.' :: fraction)
  | fraction {fraction : List Char} :
      Digits fraction → fraction ≠ [] → Mantissa [] fraction ('.' :: fraction)

/-- A power of ten, with its sign; none at all stands for the power zero. -/
inductive Exponent : Int → List Char → Prop
  | none : Exponent 0 []
  | plus {n : Nat} {digits : List Char} : Writes n digits → Exponent n ('e' :: '+' :: digits)
  | minus {n : Nat} {digits : List Char} : Writes n digits → Exponent (-n) ('e' :: '-' :: digits)

inductive IsInteger : List Char → Int → Prop
  | intro {negative : Bool} {s digits : List Char} {n : Nat} :
      Sign negative s → Writes n digits → IsInteger (s ++ digits) (signed negative n)

/-- Every digit behind the point lowers the exponent by one. -/
inductive IsDecimal : List Char → Decimal → Prop
  | intro {negative : Bool} {s whole fraction m x : List Char} {e : Int} :
      Sign negative s → Mantissa whole fraction m → Exponent e x →
      IsDecimal (s ++ (m ++ x))
        ⟨negative, Nat.ofDigitChars 10 (whole ++ fraction) 0, e - fraction.length⟩

/-- What denotes a double in general use: the exponent may have a capital letter and no sign, and
there are names for infinity and NaN, in letters of either case. -/
inductive DenotesDouble : List Char → Prop
  | plain {negative : Bool} {s whole fraction m : List Char} :
      Sign negative s → Mantissa whole fraction m → DenotesDouble (s ++ m)
  | scaled {negative negative' : Bool} {s s' whole fraction m digits : List Char} {letter : Char}
      {n : Nat} : Sign negative s → Mantissa whole fraction m → letter = 'e' ∨ letter = 'E' →
      Sign negative' s' → Writes n digits → DenotesDouble (s ++ (m ++ letter :: (s' ++ digits)))
  | named {negative : Bool} {s name : List Char} :
      Sign negative s → String.ofList (name.map Char.toLower) ∈ ["inf", "infinity", "nan"] →
      DenotesDouble (s ++ name)

variable {negative : Bool} {s whole fraction m x digits word : List Char} {e n : Int} {d : Decimal}

/-! ### Parts of a numeral -/

theorem splitSign_append (h : Sign negative s) (hstart : ∀ c, word.head? = some c → c ≠ '+' ∧ c ≠ '-') :
    splitSign (s ++ word) = (negative, word) := by
  cases h with
  | plus | minus => rfl
  | none => exact splitSign_of_not_sign hstart

theorem exists_sign (word : List Char) :
    ∃ s, Sign (splitSign word).1 s ∧ word = s ++ (splitSign word).2 := by
  unfold splitSign
  split
  · exact ⟨['-'], .minus, rfl⟩
  · exact ⟨['+'], .plus, rfl⟩
  · exact ⟨[], .none, rfl⟩

theorem Mantissa.not_sign (h : Mantissa whole fraction m) (rest : List Char) :
    ∀ c, (m ++ rest).head? = some c → c ≠ '+' ∧ c ≠ '-' := by
  cases h with
  | whole hw hne => exact hw.not_sign hne rest
  | point hw hne hf =>
    rw [List.append_assoc]
    exact hw.not_sign hne _
  | fraction hf hne =>
    intro c hc
    obtain rfl := Option.some.inj hc
    decide

theorem Exponent.stops (h : Exponent e x) : Stops x ∧ x.head? ≠ some '.' := by
  cases h with
  | none => exact ⟨stops_nil, by simp⟩
  | plus | minus => exact ⟨stops_cons rfl _, by simp⟩

theorem Exponent.exponent? (h : Exponent e x) : exponent? x = some e := by
  cases h with
  | none => rfl
  | plus hw =>
    simp only [Numeral.exponent?, true_or, if_true]
    exact hw.integer?_plus
  | minus hw =>
    simp only [Numeral.exponent?, or_true, if_true]
    exact hw.integer?_sign true

theorem Mantissa.split (h : Mantissa whole fraction m) (hx : Stops x) (hpoint : x.head? ≠ some '.') :
    (m ++ x).takeWhile Char.isDigit = whole ∧
      splitFraction ((m ++ x).dropWhile Char.isDigit) = (fraction, x) := by
  cases h with
  | whole hw hne =>
    obtain ⟨htake, hdrop⟩ := span_digits hw hx
    have hnone : splitFraction x = ([], x) := by
      unfold splitFraction
      split
      · exact absurd rfl hpoint
      · rfl
    rw [htake, hdrop]
    exact ⟨rfl, hnone⟩
  | point hw hne hf =>
    obtain ⟨htake, hdrop⟩ := span_digits hw (stops_cons (c := '.') rfl (fraction ++ x))
    obtain ⟨htake', hdrop'⟩ := span_digits hf hx
    rw [List.append_assoc, List.cons_append, htake, hdrop, splitFraction, htake', hdrop']
    exact ⟨rfl, rfl⟩
  | fraction hf hne =>
    obtain ⟨htake, hdrop⟩ := span_digits hf hx
    have hstop : ('.' :: (fraction ++ x)).takeWhile Char.isDigit = [] ∧
        ('.' :: (fraction ++ x)).dropWhile Char.isDigit = '.' :: (fraction ++ x) :=
      ⟨List.takeWhile_cons_of_neg (by decide), List.dropWhile_cons_of_neg (by decide)⟩
    rw [List.cons_append, hstop.1, hstop.2, splitFraction, htake, hdrop]
    exact ⟨rfl, rfl⟩

theorem Mantissa.ne_nil (h : Mantissa whole fraction m) : ¬ (whole = [] ∧ fraction = []) := by
  cases h with
  | whole hw hne => exact fun hnil => hne hnil.1
  | point hw hne hf => exact fun hnil => hne hnil.1
  | fraction hf hne => exact fun hnil => hne hnil.2

theorem digits_takeWhile (cs : List Char) : Digits (cs.takeWhile Char.isDigit) :=
  fun _ hc => List.mem_takeWhile_imp hc

/-- What is split off at the digits and the point is a mantissa, unless there are no digits. -/
theorem exists_mantissa {body : List Char}
    (hne : ¬ (body.takeWhile Char.isDigit = [] ∧
      (splitFraction (body.dropWhile Char.isDigit)).1 = [])) :
    ∃ m, Mantissa (body.takeWhile Char.isDigit) (splitFraction (body.dropWhile Char.isDigit)).1 m ∧
      body = m ++ (splitFraction (body.dropWhile Char.isDigit)).2 := by
  have hbody : body = body.takeWhile Char.isDigit ++ body.dropWhile Char.isDigit :=
    List.takeWhile_append_dropWhile.symm
  have hw := digits_takeWhile body
  generalize body.takeWhile Char.isDigit = whole at hbody hne hw ⊢
  generalize body.dropWhile Char.isDigit = behind at hbody hne ⊢
  rcases hsplit : splitFraction behind with ⟨fraction, rest⟩
  rw [hsplit] at hne
  unfold splitFraction at hsplit
  split at hsplit
  · next cs =>
    obtain ⟨rfl, rfl⟩ := Prod.mk.inj hsplit
    have hcs : cs = cs.takeWhile Char.isDigit ++ cs.dropWhile Char.isDigit :=
      List.takeWhile_append_dropWhile.symm
    have hf := digits_takeWhile cs
    by_cases hnil : whole = []
    · subst hnil
      refine ⟨_, .fraction hf fun h => hne ⟨rfl, h⟩, ?_⟩
      rw [hbody, List.nil_append, List.cons_append, ← hcs]
    · refine ⟨_, .point hw hnil hf, ?_⟩
      rw [hbody, List.append_assoc, List.cons_append, ← hcs]
  · obtain ⟨rfl, rfl⟩ := Prod.mk.inj hsplit
    exact ⟨_, .whole hw fun h => hne ⟨h, rfl⟩, hbody⟩

/-! ### Integers -/

theorem writes_of_all (h : digits ≠ [] ∧ digits.all Char.isDigit = true) :
    Writes (Nat.ofDigitChars 10 digits 0) digits :=
  ⟨List.all_eq_true.mp h.2, h.1, rfl⟩

theorem IsInteger.integer? (h : IsInteger word n) : integer? word = some n := by
  obtain ⟨hs, hw⟩ := h
  cases hs with
  | none => exact hw.integer?_sign false
  | plus => exact hw.integer?_plus
  | minus => exact hw.integer?_sign true

theorem isInteger_of_integer? (h : integer? word = some n) : IsInteger word n := by
  simp only [integer?] at h
  split_ifs at h with hdigits
  obtain rfl := Option.some.inj h
  obtain ⟨s, hs, hword⟩ := exists_sign word
  have hinteger := IsInteger.intro hs (writes_of_all hdigits)
  rwa [← hword] at hinteger

theorem integer?_eq_some_iff : integer? word = some n ↔ IsInteger word n :=
  ⟨isInteger_of_integer?, IsInteger.integer?⟩

theorem exponent_of_integer? {sign : Char} (hsign : sign = '+' ∨ sign = '-')
    (h : integer? (sign :: digits) = some e) : Exponent e ('e' :: sign :: digits) := by
  rcases hsign with rfl | rfl
  · simp only [integer?, splitSign] at h
    split_ifs at h with hdigits
    obtain rfl := Option.some.inj h
    exact .plus (writes_of_all hdigits)
  · simp only [integer?, splitSign] at h
    split_ifs at h with hdigits
    obtain rfl := Option.some.inj h
    exact .minus (writes_of_all hdigits)

theorem exponent_of_exponent? (h : exponent? x = some e) : Exponent e x := by
  unfold exponent? at h
  split at h
  · obtain rfl := Option.some.inj h
    exact .none
  · next sign digits =>
    split_ifs at h with hsign
    exact exponent_of_integer? hsign h
  · cases h

/-! ### Decimals -/

/-- Behind a sign and a mantissa, what follows decides whether there is a numeral. -/
theorem decimalBy?_append (read : List Char → Option Int) (hs : Sign negative s)
    (hm : Mantissa whole fraction m) (hx : Stops x) (hpoint : x.head? ≠ some '.') :
    decimalBy? read (s ++ (m ++ x)) = (read x).map fun e =>
      ⟨negative, Nat.ofDigitChars 10 (whole ++ fraction) 0, e - fraction.length⟩ := by
  obtain ⟨htake, hdrop⟩ := hm.split hx hpoint
  simp only [decimalBy?, splitSign_append hs (hm.not_sign _), htake, hdrop, hm.ne_nil, if_false]

/-- However exponents are read, what is read is a sign, a mantissa and an exponent. -/
theorem exists_parts {read : List Char → Option Int} (h : decimalBy? read word = some d) :
    ∃ negative s whole fraction m x e, Sign negative s ∧ Mantissa whole fraction m ∧
      read x = some e ∧ word = s ++ (m ++ x) ∧
      d = ⟨negative, Nat.ofDigitChars 10 (whole ++ fraction) 0, e - fraction.length⟩ := by
  simp only [decimalBy?] at h
  split_ifs at h with hne
  obtain ⟨e, he, rfl⟩ := Option.map_eq_some_iff.mp h
  obtain ⟨s, hs, hword⟩ := exists_sign word
  obtain ⟨m, hm, hbody⟩ := exists_mantissa hne
  refine ⟨_, s, _, _, m, _, e, hs, hm, he, ?_, rfl⟩
  rw [← hbody, ← hword]

theorem IsDecimal.decimal? (h : IsDecimal word d) : decimal? word = some d := by
  obtain ⟨hs, hm, hx⟩ := h
  obtain ⟨hstops, hpoint⟩ := hx.stops
  rw [Numeral.decimal?, decimalBy?_append _ hs hm hstops hpoint, hx.exponent?, Option.map_some]

theorem isDecimal_of_decimal? (h : decimal? word = some d) : IsDecimal word d := by
  obtain ⟨negative, s, whole, fraction, m, x, e, hs, hm, he, rfl, rfl⟩ := exists_parts h
  exact .intro hs hm (exponent_of_exponent? he)

theorem decimal?_eq_some_iff : decimal? word = some d ↔ IsDecimal word d :=
  ⟨isDecimal_of_decimal?, IsDecimal.decimal?⟩

theorem decimal?_eq_none_iff : decimal? word = none ↔ ∀ d, ¬ IsDecimal word d := by
  rw [Option.eq_none_iff_forall_ne_some]
  exact forall_congr' fun d => not_congr decimal?_eq_some_iff

theorem IsDecimal.unique {d' : Decimal} (h : IsDecimal word d) (h' : IsDecimal word d') : d = d' :=
  Option.some.inj (h.decimal?.symm.trans h'.decimal?)

theorem IsDecimal.negative_iff (h : IsDecimal word d) :
    d.negative = true ↔ word.head? = some '-' := by
  obtain ⟨hs, hm, hx⟩ := h
  cases hs with
  | plus | minus => simp
  | none =>
    rw [List.nil_append]
    simp only [Bool.false_eq_true, false_iff]
    exact fun hminus => (hm.not_sign _ '-' hminus).2 rfl

theorem IsDecimal.denotesDouble (h : IsDecimal word d) : DenotesDouble word := by
  obtain ⟨hs, hm, hx⟩ := h
  cases hx with
  | none =>
    rw [List.append_nil]
    exact .plain hs hm
  | plus hw => exact .scaled hs hm (Or.inl rfl) .plus hw
  | minus hw => exact .scaled hs hm (Or.inl rfl) .minus hw

/-- An integer numeral is a decimal numeral without a point and an exponent. -/
theorem IsInteger.exists_isDecimal (h : IsInteger word n) :
    ∃ d, IsDecimal word d ∧ n = signed d.negative d.digits ∧ d.exponent = 0 := by
  obtain ⟨hs, hw⟩ := h
  have hdecimal := IsDecimal.intro hs (.whole hw.digits hw.ne_nil) .none
  rw [List.append_nil, hw.value] at hdecimal
  exact ⟨_, hdecimal, rfl, rfl⟩

/-! ### Decimals as they are written -/

theorem sign_sign (negative : Bool) : Sign negative (sign negative) := by
  cases negative with
  | true => exact .minus
  | false => exact .none

theorem mantissa_point (hwhole : Digits whole) (hne : whole ≠ []) (hfraction : Digits fraction) :
    Mantissa whole fraction (whole ++ Numeral.point fraction) := by
  by_cases hnil : fraction = []
  · rw [Numeral.point, if_pos hnil, List.append_nil, hnil]
    exact .whole hwhole hne
  · rw [Numeral.point, if_neg hnil]
    exact .point hwhole hne hfraction

theorem decimal?_mantissa (negative : Bool) (hwhole : Digits whole) (hne : whole ≠ [])
    (hfraction : Digits fraction) (hx : Stops x) (hpoint : x.head? ≠ some '.') :
    decimal? (sign negative ++ (whole ++ (Numeral.point fraction ++ x))) = (exponent? x).map fun e =>
      ⟨negative, Nat.ofDigitChars 10 (whole ++ fraction) 0, e - fraction.length⟩ := by
  rw [← List.append_assoc whole]
  exact decimalBy?_append _ (sign_sign negative) (mantissa_point hwhole hne hfraction) hx hpoint

/-- A decimal is read as it is spelled: the digits on either side of the point are one number, and
those behind it lower the exponent. -/
theorem decimal?_spelled (negative : Bool) (hwhole : Digits whole) (hne : whole ≠ [])
    (hfraction : Digits fraction) (he : exponent? x = some e) (hx : Stops x)
    (hpoint : x.head? ≠ some '.') :
    decimal? (sign negative ++ (whole ++ (Numeral.point fraction ++ x))) =
      some ⟨negative, Nat.ofDigitChars 10 (whole ++ fraction) 0, e - fraction.length⟩ := by
  rw [decimal?_mantissa negative hwhole hne hfraction hx hpoint, he, Option.map_some]

end MicroLisp.Numeral
