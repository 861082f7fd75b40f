import MicroLisp.Proofs.Binary64.Dump
import MicroLisp.Proofs.Token.Json

/-!
# Tokens in a dump

What a dump shows of a token is its kind and its value, each behind a fixed text.  No
kind is the beginning of another one followed by a comma or a bracket, so both can be
told from it (`eq_of_dumpText_eq`).
-/

namespace MicroLisp.Token

variable {t u : Token}

/-- The part of a dump behind the kind. -/
def valuePart (t : Token) : List Char :=
  match t.valueText? with
  | some v => ", value: ".toList ++ v.toList
  | none => []

theorem toList_dumpText (t : Token) :
    t.dumpText.toList =
      "<Lexeme, type: ".toList ++ (t.kind.name.toList ++ (t.valuePart ++ ['>'])) := by
  unfold dumpText valuePart
  cases t.valueText? <;> simp

theorem dumpText_of_valueText? {v : String} (h : t.valueText? = some v) :
    t.dumpText = "<Lexeme, type: " ++ t.kind.name ++ ", value: " ++ v ++ ">" := by
  rw [← String.toList_inj, toList_dumpText, valuePart, h]
  simp

/-- The characters that can follow a kind. -/
def endsKind (c : Char) : Bool := c = ',' || c = '>'

theorem not_endsKind_of_mem_name (k : Kind) : ∀ c ∈ k.name.toList, (!endsKind c) = true :=
  List.all_eq_true.mp (by cases k <;> rfl)

theorem takeWhile_valuePart (t : Token) :
    (t.valuePart ++ ['>']).takeWhile (fun c => !endsKind c) = [] := by
  unfold valuePart
  cases t.valueText? <;> rfl

theorem parts_of_dumpText_eq (h : t.dumpText = u.dumpText) :
    t.kind = u.kind ∧ t.valuePart = u.valuePart := by
  have hparts : t.kind.name.toList ++ (t.valuePart ++ ['>']) =
      u.kind.name.toList ++ (u.valuePart ++ ['>']) := by
    have hlist := congrArg String.toList h
    rw [toList_dumpText, toList_dumpText] at hlist
    exact List.append_cancel_left hlist
  have hname := congrArg (List.takeWhile fun c => !endsKind c) hparts
  rw [List.takeWhile_append_of_pos (not_endsKind_of_mem_name _),
    List.takeWhile_append_of_pos (not_endsKind_of_mem_name _), takeWhile_valuePart,
    takeWhile_valuePart, List.append_nil, List.append_nil] at hname
  rw [hname] at hparts
  have hback := ofName?_name t.kind
  rw [String.toList_inj.mp hname, ofName?_name] at hback
  exact ⟨(Option.some.inj hback).symm,
    List.append_cancel_right (List.append_cancel_left hparts)⟩

theorem valueText_of_valuePart_eq {v w : String} (ht : t.valueText? = some v)
    (hu : u.valueText? = some w) (h : t.valuePart = u.valuePart) : v = w := by
  rw [valuePart, valuePart, ht, hu] at h
  exact String.toList_inj.mp (List.append_cancel_left h)

theorem intText_injective : Function.Injective intText := by
  intro m n h
  have hread := integer?_intText m
  rw [h, integer?_intText] at hread
  exact (Option.some.inj hread).symm

theorem eq_of_dumpText_eq (ht : ∀ x, t = .float x → x.isNaN = false)
    (hu : ∀ x, u = .float x → x.isNaN = false) (h : t.dumpText = u.dumpText) : t = u := by
  obtain ⟨hkind, hvalue⟩ := parts_of_dumpText_eq h
  have hsame : ∀ {v w : String}, t.valueText? = some v → u.valueText? = some w → v = w :=
    fun htext htext' => valueText_of_valuePart_eq htext htext' hvalue
  cases t <;> cases u <;> cases hkind
  case int.int m n => rw [Int64.toInt_inj.mp (intText_injective (hsame rfl rfl))]
  case float.float x y =>
    rw [Binary64.dumpText_injective (ht x rfl) (hu y rfl) (hsame rfl rfl)]
  case string.string s s' => rw [hsame rfl rfl]
  case boolean.boolean b b' =>
    have hbool := hsame rfl rfl
    revert hbool
    cases b <;> cases b' <;> decide
  case symbol.symbol s s' => rw [hsame rfl rfl]
  all_goals rfl

/-! ### Newlines -/

/-- The newlines in the value of a string. -/
def newlines : Token → Nat
  | .string s => s.toList.count '\n'
  | _ => 0

theorem newline_not_mem_intText (n : Int) : '\n' ∉ (intText n).toList := by
  intro hmem
  exact absurd (Numeral.of_mem_integer? (integer?_intText n) hmem) (by decide)

theorem newline_not_mem_dumpText (x : Binary64) : '\n' ∉ x.dumpText.toList := by
  cases h : x.isFinite with
  | true =>
    rw [Binary64.dumpText_of_finite h, String.toList_ofList]
    intro hmem
    exact absurd (Binary64.inNumeral_of_mem_write h hmem) (by simp [Numeral.InNumeral])
  | false =>
    rw [Binary64.dumpText_of_not_finite h]
    split_ifs
    all_goals decide

theorem count_valuePart {v : String} (h : t.valueText? = some v) :
    t.valuePart.count '\n' = v.toList.count '\n' := by
  have hfixed : ", value: ".toList.count '\n' = 0 := by decide
  rw [valuePart, h, List.count_append, hfixed, Nat.zero_add]

theorem count_valuePart_eq (hsymbol : ∀ s, t = .symbol s → '\n' ∉ s.toList) :
    t.valuePart.count '\n' = t.newlines := by
  cases t with
  | int n =>
    exact (count_valuePart rfl).trans (List.count_eq_zero.mpr (newline_not_mem_intText n.toInt))
  | float x => exact (count_valuePart rfl).trans (List.count_eq_zero.mpr (newline_not_mem_dumpText x))
  | string s => exact count_valuePart rfl
  | boolean b => cases b <;> rfl
  | symbol s => exact (count_valuePart rfl).trans (List.count_eq_zero.mpr (hsymbol s rfl))
  | leftParen | rightParen | quote => rfl

/-- A dump of a token has the newlines of its value, which only a string has. -/
theorem count_dumpText (hsymbol : ∀ s, t = .symbol s → '\n' ∉ s.toList) :
    t.dumpText.toList.count '\n' = t.newlines := by
  have hfixed : "<Lexeme, type: ".toList.count '\n' = 0 := by decide
  have hname : t.kind.name.toList.count '\n' = 0 := by
    cases t.kind <;> decide
  have hlast : ['>'].count '\n' = 0 := by decide
  rw [toList_dumpText, List.count_append, List.count_append, List.count_append, hfixed, hname,
    hlast, count_valuePart_eq hsymbol, Nat.zero_add, Nat.zero_add, Nat.add_zero]

end MicroLisp.Token
