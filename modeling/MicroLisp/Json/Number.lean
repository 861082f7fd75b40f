import MicroLisp.Binary64.Rounding
import MicroLisp.Numeral

/-!
# JSON numbers

A number is kept as it is written.  As an integer it has an exact value.  As a
double it has the value that a fast reader gives it: digits are gathered in a
significand of sixty-four bits, digits beyond those only move the exponent or are
dropped, and the significand is rounded to a double before it is scaled by a power
of ten that has itself been rounded.  Long or far scaled numbers can so miss the
nearest double.
-/

namespace MicroLisp.Json

structure Number where
  negative : Bool
  whole : List Char
  /-- The digits behind the point, if there is one. -/
  fraction : Option (List Char)
  exponent : Option Int
deriving DecidableEq

namespace Number

/-! ### Reading the written form -/

/-- The digits behind a point, of which there has to be one, and the rest. -/
def readFraction? : List Char → Option (Option (List Char) × List Char)
  | '.' :: cs =>
    let digits := cs.takeWhile Char.isDigit
    if digits = [] then none else some (some digits, cs.dropWhile Char.isDigit)
  | cs => some (none, cs)

/-- The exponent behind an `e` of either case, its sign optional, and the rest. -/
def readExponent? : List Char → Option (Option Int × List Char)
  | [] => some (none, [])
  | c :: cs =>
    if c = 'e' ∨ c = 'E' then
      let (negative, body) := Numeral.splitSign cs
      let digits := body.takeWhile Char.isDigit
      if digits = [] then none
      else
        some (some (Numeral.signed negative (Nat.ofDigitChars 10 digits 0)),
          body.dropWhile Char.isDigit)
    else some (none, c :: cs)

/-- A number behind its sign, and what follows it.  The digits before the point do
not begin with a zero unless that is all of them. -/
def readUnsigned? (negative : Bool) (text : List Char) : Option (Number × List Char) :=
  let whole := text.takeWhile Char.isDigit
  if whole = [] ∨ whole.head? = some '0' ∧ whole ≠ ['0'] then none
  else
    match readFraction? (text.dropWhile Char.isDigit) with
    | none => none
    | some (fraction, afterFraction) =>
      match readExponent? afterFraction with
      | none => none
      | some (exponent, rest) => some (⟨negative, whole, fraction, exponent⟩, rest)

def read? : List Char → Option (Number × List Char)
  | '-' :: cs => readUnsigned? true cs
  | cs => readUnsigned? false cs

theorem suffix_of_readFraction? {text tail : List Char} {f : Option (List Char)}
    (h : readFraction? text = some (f, tail)) : tail <:+ text := by
  unfold readFraction? at h
  split at h
  · next cs =>
    dsimp only at h
    split at h
    · simp at h
    · simp only [Option.some.injEq, Prod.mk.injEq] at h
      exact h.2 ▸ (List.dropWhile_suffix _).trans (List.suffix_cons _ _)
  · simp only [Option.some.injEq, Prod.mk.injEq] at h
    exact h.2 ▸ List.suffix_refl _

theorem suffix_of_readExponent? {text tail : List Char} {e : Option Int}
    (h : readExponent? text = some (e, tail)) : tail <:+ text := by
  unfold readExponent? at h
  split at h
  · simp only [Option.some.injEq, Prod.mk.injEq] at h
    exact h.2 ▸ List.suffix_refl _
  · next c cs =>
    split at h
    · simp only at h
      split at h
      · simp at h
      · simp only [Option.some.injEq, Prod.mk.injEq] at h
        exact h.2 ▸ ((List.dropWhile_suffix _).trans (Numeral.splitSign_suffix cs)).trans
          (List.suffix_cons _ _)
    · simp only [Option.some.injEq, Prod.mk.injEq] at h
      exact h.2 ▸ List.suffix_refl _

theorem length_dropWhile_lt {p : Char → Bool} {cs : List Char} (h : cs.takeWhile p ≠ []) :
    (cs.dropWhile p).length < cs.length := by
  have hsum := congrArg List.length (List.takeWhile_append_dropWhile (p := p) (l := cs))
  have hpos := List.length_pos_iff.mpr h
  rw [List.length_append] at hsum
  omega

theorem length_of_readUnsigned? {text tail : List Char} {negative : Bool} {n : Number}
    (h : readUnsigned? negative text = some (n, tail)) : tail.length < text.length := by
  unfold readUnsigned? at h
  dsimp only at h
  split at h
  · simp at h
  · next hw =>
    split at h
    · simp at h
    · next f afterFraction hf =>
      split at h
      · simp at h
      · next e rest he =>
        simp only [Option.some.injEq, Prod.mk.injEq] at h
        obtain ⟨-, rfl⟩ := h
        have h1 := (suffix_of_readExponent? he).length_le
        have h2 := (suffix_of_readFraction? hf).length_le
        have h3 := length_dropWhile_lt fun hnil => hw (Or.inl hnil)
        omega

theorem length_of_read? {text tail : List Char} {n : Number}
    (h : read? text = some (n, tail)) : tail.length < text.length := by
  unfold read? at h
  split at h
  · exact Nat.lt_succ_of_lt (length_of_readUnsigned? h)
  · exact length_of_readUnsigned? h

/-! ### As an integer -/

/-- The value of a number without point and exponent, if it fits.  Minus zero is no
integer. -/
def toInt64? (n : Number) : Option Int64 :=
  if n.fraction = none ∧ n.exponent = none then
    let magnitude := Nat.ofDigitChars 10 n.whole 0
    if n.negative ∧ magnitude = 0 then none
    else Numeral.fit? (Numeral.signed n.negative magnitude)
  else none

/-! ### As a double -/

def maxSignificand : Nat := UInt64.size - 1

/-- Appends digits to a significand for as long as it stays in range; the digits
that are left over follow. -/
def gather (significand : Nat) : List Char → Nat × List Char
  | [] => (significand, [])
  | d :: ds =>
    let next := 10 * significand + (d.toNat - '0'.toNat)
    if next ≤ maxSignificand then gather next ds else (significand, d :: ds)

/-- A double multiplied by a power of ten, with `none` for a product out of range. -/
def scaleUp? (x : Binary64) (k : Nat) : Option Binary64 :=
  if k ≤ 308 then
    let product := x.mul (.ofNat (Nat.pow 10 k))
    if product.isFinite then some product else none
  else if x.isZero then some x
  else none

/-- A double divided by a power of ten, `308` places at a time. -/
def scaleDown (x : Binary64) (k : Nat) : Binary64 :=
  if _h : k ≤ 308 then x.div (.ofNat (Nat.pow 10 k))
  else if x.isZero then x
  else scaleDown (x.div (.ofNat (Nat.pow 10 308))) (k - 308)
termination_by k

def scale? (x : Binary64) (exponent : Int) : Option Binary64 :=
  match exponent with
  | .ofNat k => scaleUp? x k
  | .negSucc k => some (scaleDown x (k + 1))

/-- The double that a number is read as; `none` for one out of range. -/
def toBinary64? (n : Number) : Option Binary64 :=
  let (upper, unread) := gather 0 n.whole
  let fraction := n.fraction.getD []
  let (significand, dropped) := gather upper fraction
  let exponent : Int :=
    n.exponent.getD 0 + unread.length - (fraction.length - dropped.length)
  (scale? (.ofNat significand) exponent).map fun x => { x with negative := n.negative }

end Number
end MicroLisp.Json
