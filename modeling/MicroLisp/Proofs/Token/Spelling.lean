import MicroLisp.Proofs.Binary64.Style
import MicroLisp.Proofs.Grammar.Lexeme
import MicroLisp.Proofs.Word
import MicroLisp.Token.Json

/-!
# Spellings of tokens

One spelling for each token: literals as they are written in a dump or in JSON, a
string between quotes with its escapes put back, a symbol as it is.  A token that
can be read at all is read from its own spelling, unless it is an infinite float
(`Lexeme.respelled`).
-/

namespace MicroLisp
open Numeral

/-! ### Writing -/

/-- A character in a string literal. -/
def escaped (a : Char) : List Char :=
  match escapes.find? fun e => e.2 = a with
  | some (letter, _) => ['\\', letter]
  | none => [a]

theorem toList_intText (n : Int) :
    (intText n).toList = sign (decide (n < 0)) ++ Nat.toDigits 10 n.natAbs := by
  unfold intText sign
  split <;> simp_all [Nat.repr]

theorem integer?_intText (n : Int) : integer? (intText n).toList = some n := by
  rw [toList_intText, (writes_toDigits n.natAbs).integer?_sign, signed_natAbs]

namespace Token

def spelling : Token → List Char
  | .int n => (intText n.toInt).toList
  | .float x => x.jsonText
  | .string s => '"' :: (s.toList.flatMap escaped ++ ['"'])
  | .boolean b => ['#', if b then 't' else 'f']
  | .symbol s => s.toList
  | .leftParen => ['(']
  | .rightParen => [')']
  | .quote => ['\'']

end Token

namespace Grammar

variable {l w : List Char} {t : Token}

/-! ### Strings -/

theorem Encoding.escaped {enc value : List Char} (h : Encoding enc value) (a : Char) :
    Encoding (escaped a ++ enc) (a :: value) := by
  unfold MicroLisp.escaped
  split
  · next letter b hfind =>
    have hmem := List.mem_of_find?_eq_some hfind
    obtain rfl : b = a := by simpa using List.find?_some hfind
    exact .escape hmem h
  · next hfind =>
    -- the quote and the backslash are among the characters that have an escape
    have hne : ∀ e ∈ escapes, e.2 ≠ a := by simpa using hfind
    exact .raw (hne ('"', '"') (by decide)).symm (hne ('\\', '\\') (by decide)).symm h

theorem encoding_flatMap_escaped (value : List Char) :
    Encoding (value.flatMap MicroLisp.escaped) value := by
  induction value with
  | nil => exact .nil
  | cons a value ih =>
    rw [List.flatMap_cons]
    exact ih.escaped a

/-! ### Numerals -/

theorem endsWord_of_inNumeral {c : Char} (h : InNumeral c) : endsWord c = false := by
  rcases h with hd | rfl | rfl | rfl | rfl
  · by_contra hends
    simp only [endsWord, isBlank, Bool.or_eq_true, decide_eq_true_eq, Bool.not_eq_false] at hends
    rcases hends with ((((((((rfl | rfl) | rfl) | rfl) | rfl) | rfl) | rfl) | rfl) | rfl) | rfl
    all_goals exact absurd hd (by decide)
  all_goals rfl

theorem isWord_of_inNumeral (hne : w ≠ []) (h : ∀ c ∈ w, InNumeral c) : IsWord w where
  ne_nil := hne
  start := by
    intro hquote
    have hin := h '"' (List.mem_of_mem_head? hquote)
    exact absurd hin (by simp [InNumeral])
  inside := fun c hc => endsWord_of_inNumeral (h c hc)

theorem isWord_of_integer? {n : Int} (h : integer? w = some n) : IsWord w := by
  refine isWord_of_inNumeral (ne_nil_of_integer? h) fun c hc => ?_
  rcases of_mem_integer? h hc with hd | hp | hm
  · exact Or.inl hd
  · exact Or.inr (Or.inl hp)
  · exact Or.inr (Or.inr (Or.inl hm))

theorem isWord_of_decimal? {d : Decimal} (h : decimal? w = some d) : IsWord w :=
  isWord_of_inNumeral (ne_nil_of_decimal? h) fun _ hc => of_mem_decimal? h hc

theorem lexeme_int (n : Int64) : Lexeme (Token.int n).spelling (.int n) := by
  have hinteger := integer?_intText n.toInt
  have hlexeme := Lexeme.word (isWord_of_integer? hinteger)
  rwa [Word.classify_of_integer? hinteger (fit?_toInt n)] at hlexeme

theorem lexeme_float {x : Binary64} (h : x.isFinite = true) :
    Lexeme (Token.float x).spelling (.float x) := by
  have hspelling : (Token.float x).spelling = Binary64.jsonStyle.write x := if_pos h
  have hplus : Binary64.jsonStyle.plusSign = true := rfl
  obtain ⟨d, hd, hx⟩ := Style.read_write hplus h
  -- its point or its exponent keeps the spelling from being taken for an integer
  obtain ⟨c, hc, hmark⟩ : ∃ c ∈ Binary64.jsonStyle.write x, c = '.' ∨ c = 'e' :=
    Style.mark_mem_decimal _ _
  have hlexeme := Lexeme.word (isWord_of_decimal? hd)
  rwa [Word.classify_of_decimal? (integer?_eq_none hc hmark) hd, hx, ← hspelling] at hlexeme

/-! ### Any token -/

theorem lexeme_boolean (b : Bool) : Lexeme (Token.boolean b).spelling (.boolean b) := by
  have hword : IsWord (Token.boolean b).spelling := by
    refine ⟨List.cons_ne_nil _ _, by simp [Token.spelling], ?_⟩
    rw [Token.spelling, List.forall_mem_cons, List.forall_mem_singleton]
    cases b
    · exact ⟨rfl, rfl⟩
    · exact ⟨rfl, rfl⟩
  have hlexeme := Lexeme.word hword
  cases b
  · exact hlexeme
  · exact hlexeme

theorem lexeme_string (s : String) : Lexeme (Token.string s).spelling (.string s) := by
  have hlexeme := Lexeme.string (encoding_flatMap_escaped s.toList)
  rwa [String.ofList_toList] at hlexeme

theorem Lexeme.symbol {s : String} (h : Lexeme l t) (ht : t = .symbol s) :
    IsWord s.toList ∧ Word.classify s.toList = .symbol s := by
  cases h with
  | word hw =>
    rw [Word.eq_of_classify_eq_symbol ht, String.toList_ofList]
    rw [Word.eq_of_classify_eq_symbol ht] at ht
    exact ⟨hw, ht⟩
  | leftParen | rightParen | quote | string => cases ht

theorem Lexeme.isNaN {x : Binary64} (h : Lexeme l t) (ht : t = .float x) : x.isNaN = false := by
  cases h with
  | word hw => exact Word.isNaN_of_classify_eq_float ht
  | leftParen | rightParen | quote | string => cases ht

theorem Lexeme.respelled (h : Lexeme l t) (hx : ∀ x, t = .float x → x.isInfinite = false) :
    Lexeme t.spelling t := by
  cases t with
  | int n => exact lexeme_int n
  | float x =>
    have hnan := h.isNaN rfl
    have hinf := hx x rfl
    refine lexeme_float (decide_eq_true ?_)
    simp only [Binary64.isNaN, Binary64.isInfinite, decide_eq_false_iff_not] at hnan hinf
    omega
  | string s => exact lexeme_string s
  | boolean b => exact lexeme_boolean b
  | symbol s =>
    obtain ⟨hword, hclassify⟩ := h.symbol rfl
    have hlexeme := Lexeme.word hword
    rwa [hclassify] at hlexeme
  | leftParen => exact .leftParen
  | rightParen => exact .rightParen
  | quote => exact .quote

end Grammar
end MicroLisp
