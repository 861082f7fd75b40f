import MicroLisp.Proofs.Lexer.RoundTrip
import MicroLisp.Proofs.Token.Dump

/-!
# Reading dumped numbers again

Every integer is read back from the way a dump shows it.  So is a finite double below
`10 ^ 16`, with its bits; any other double is shown as a word that is read as a symbol
(`tokens_dumped`).
-/

namespace MicroLisp

open Numeral Grammar

namespace Lexer

/-- A text that is one word. -/
theorem tokens_of_isWord {w : List Char} (h : IsWord w) :
    (ofText (String.ofList w)).tokens = .ok [Word.classify w] := by
  have hend : Parses [] [] (.closed []) [] := .ending (.closed (.blank .nil))
  have hparse := Parses.piece .nil (.word h) (fun _ => breaks_nil) hend
  obtain ⟨htokens, hfailure⟩ := drain_ofText (String.ofList w)
  rw [List.nil_append, List.append_nil] at hparse
  rw [String.toList_ofList, hparse.scanAll_eq] at htokens hfailure
  exact tokens_eq_ok_iff.mpr ⟨hfailure, htokens⟩

theorem tokens_of_integer? {w : List Char} {n : Int} {v : Int64} (hn : integer? w = some n)
    (hv : fit? n = some v) : (ofText (String.ofList w)).tokens = .ok [.int v] := by
  rw [tokens_of_isWord (isWord_of_integer? hn), Word.classify_of_integer? hn hv]

theorem tokens_of_decimal? {w : List Char} {d : Decimal} {c : Char} (hd : decimal? w = some d)
    (hc : c ∈ w) (hmark : c = '.' ∨ c = 'e') :
    (ofText (String.ofList w)).tokens = .ok [.float (Binary64.ofDecimal d)] := by
  rw [tokens_of_isWord (isWord_of_decimal? hd),
    Word.classify_of_decimal? (integer?_eq_none hc hmark) hd]

theorem tokens_of_not_decimal? {w : List Char} (hw : ∀ c ∈ w, InNumeral c) (hne : w ≠ [])
    (hd : decimal? w = none) :
    (ofText (String.ofList w)).tokens = .ok [.symbol (String.ofList w)] := by
  have hhash : ∀ b : Bool, w ≠ ['#', if b then 't' else 'f'] := by
    rintro b rfl
    have hin := hw '#' List.mem_cons_self
    exact absurd hin (by simp [InNumeral])
  rw [tokens_of_isWord (isWord_of_inNumeral hne hw),
    Word.classify_eq_symbol_iff.mpr ⟨rfl, hhash, decimal?_eq_none_iff.mp hd⟩]

theorem tokens_dumpText_below {x : Binary64} (h : x.isFinite = true) (hlt : |x.toRat| < 10 ^ 16) :
    (ofText x.dumpText).tokens = .ok [.float x] := by
  obtain ⟨d, hd, hx⟩ := Binary64.decimal?_write_dump h hlt
  obtain ⟨c, hc, hmark⟩ : ∃ c ∈ Binary64.dumpStyle.write x, c = '.' ∨ c = 'e' :=
    Style.mark_mem_decimal _ _
  rw [Binary64.dumpText_of_finite h, tokens_of_decimal? hd hc hmark, hx]

theorem tokens_dumpText_beyond {x : Binary64} (h : x.isFinite = true) (hge : 10 ^ 16 ≤ |x.toRat|) :
    (ofText x.dumpText).tokens = .ok [.symbol x.dumpText] ∧
      ∃ front digits, 'e' ∉ front ∧ Digits digits ∧ digits ≠ [] ∧
        x.dumpText = String.ofList (front ++ 'e' :: digits) ∧
        (ofText (String.ofList (front ++ 'e' :: '+' :: digits))).tokens = .ok [.float x] := by
  obtain ⟨hnone, front, digits, hfront, hdigits, hne, hdump, hsigned⟩ :=
    Binary64.write_dump_beyond h hge
  obtain ⟨d, hd, hx⟩ := Binary64.decimal?_write_signed h
  rw [hsigned] at hd
  have hmark : 'e' ∈ front ++ 'e' :: '+' :: digits := by simp
  have hread := tokens_of_decimal? hd hmark (Or.inr rfl)
  have hne' : Binary64.dumpStyle.write x ≠ [] := by simp [hdump]
  have hsymbol :=
    tokens_of_not_decimal? (fun _ => Binary64.inNumeral_of_mem_write h) hne' hnone
  rw [hx] at hread
  rw [← Binary64.dumpText_of_finite h] at hsymbol
  exact ⟨hsymbol, front, digits, hfront, hdigits, hne,
    by rw [Binary64.dumpText_of_finite h, hdump], hread⟩

theorem tokens_dumpText_of_not_finite {x : Binary64} (h : x.isFinite = false) :
    (ofText x.dumpText).tokens = .ok [.symbol x.dumpText] := by
  have hword : ∀ {s : String}, s.toList ≠ [] → s.toList.head? ≠ some '"' →
      s.toList.all (fun a => !endsWord a) = true → Word.classify s.toList = .symbol s →
      (ofText s).tokens = .ok [.symbol s] := by
    intro s hne hstart hinside hclassify
    have hread := tokens_of_isWord
      ⟨hne, hstart, fun a ha => by simpa using List.all_eq_true.mp hinside a ha⟩
    rwa [String.ofList_toList, hclassify] at hread
  rw [Binary64.dumpText_of_not_finite h]
  split_ifs
  all_goals exact hword (by decide) (by decide) rfl rfl

/-- What a dump shows of a number, read on its own.  From `10 ^ 16` on the exponent of a double has no
sign, which is all that the numeral lacks. -/
theorem tokens_dumped :
    (∀ n : Int64,
      (Token.int n).dumpText = "<Lexeme, type: int, value: " ++ intText n.toInt ++ ">" ∧
      (ofText (intText n.toInt)).tokens = .ok [.int n]) ∧
    ∀ x : Binary64,
      (Token.float x).dumpText = "<Lexeme, type: float, value: " ++ x.dumpText ++ ">" ∧
      (x.isFinite = true → |x.toRat| < 10 ^ 16 → (ofText x.dumpText).tokens = .ok [.float x]) ∧
      (x.isFinite = true → 10 ^ 16 ≤ |x.toRat| →
        (ofText x.dumpText).tokens = .ok [.symbol x.dumpText] ∧
        ∃ front digits, 'e' ∉ front ∧ Digits digits ∧ digits ≠ [] ∧
          x.dumpText = String.ofList (front ++ 'e' :: digits) ∧
          (ofText (String.ofList (front ++ 'e' :: '+' :: digits))).tokens = .ok [.float x]) ∧
      (x.isFinite = false → (ofText x.dumpText).tokens = .ok [.symbol x.dumpText]) := by
  refine ⟨fun n => ⟨?_, ?_⟩, fun x => ⟨?_, fun h hlt => tokens_dumpText_below h hlt,
    fun h hge => tokens_dumpText_beyond h hge, fun h => tokens_dumpText_of_not_finite h⟩⟩
  · exact (Token.dumpText_of_valueText? rfl).trans (by rw [String.append_assoc]; rfl)
  · have hread := tokens_of_integer? (integer?_intText n.toInt) (fit?_toInt n)
    rwa [String.ofList_toList] at hread
  · exact (Token.dumpText_of_valueText? rfl).trans (by simp [Token.kind, Kind.name])

/-- The least and the greatest double that is read back, a zero with its sign, and what is not. -/
theorem tokens_dumped_limits :
    (ofText "5e-324").tokens = .ok [.float ⟨false, 1, by decide⟩] ∧
      (ofText "-9999999999999998.0").tokens =
        .ok [.float (Binary64.ofDecimal ⟨true, 9999999999999998, 0⟩)] ∧
      (ofText "-0.0").tokens = .ok [.float (Binary64.zero true)] ∧
      (ofText "-1e16").tokens = .ok [.symbol "-1e16"] ∧
      (ofText "NaN").tokens = .ok [.symbol "NaN"] := by
  obtain ⟨-, hfloat⟩ := tokens_dumped
  have hbelow : ∀ {x : Binary64} {text : String}, x.isFinite = true → x.rank < Binary64.boundRank →
      x.dumpText = text → (ofText text).tokens = .ok [.float x] := by
    rintro x _ h hrank rfl
    exact (hfloat x).2.1 h (Binary64.abs_toRat_lt_iff.mpr hrank)
  have hbeyond : ∀ {x : Binary64} {text : String}, x.isFinite = true → Binary64.boundRank ≤ x.rank →
      x.dumpText = text → (ofText text).tokens = .ok [.symbol text] := by
    rintro x _ h hrank rfl
    refine ((hfloat x).2.2.1 h (not_lt.mp fun hlt => ?_)).1
    exact Nat.not_lt_of_le hrank (Binary64.abs_toRat_lt_iff.mp hlt)
  have hnan : (⟨false, Binary64.infinityRank + 1, by decide⟩ : Binary64).dumpText = "NaN" := rfl
  refine ⟨hbelow rfl (by decide +kernel) (by decide +kernel), hbelow (by decide +kernel)
    (by decide +kernel) (by decide +kernel), hbelow rfl (by decide +kernel) (by decide +kernel),
    hbeyond (x := Binary64.bound true) (by decide +kernel) (Nat.le_refl _) (by decide +kernel), ?_⟩
  rw [← hnan]
  exact (hfloat _).2.2.2 rfl

end Lexer
end MicroLisp
