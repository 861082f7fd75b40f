import MicroLisp.Json.Text
import MicroLisp.Json.Value

/-!
# Lexemes of JSON

A document is first cut into its brackets, marks and scalars; white space between
them disappears here.
-/

namespace MicroLisp.Json

/-- A bracket, a mark or a scalar. -/
inductive Lexeme
  | beginArray
  | endArray
  | beginObject
  | endObject
  | colon
  | comma
  | scalar (value : Scalar)
deriving DecidableEq

/-- Space, tab, newline and carriage return. -/
def isSpace (c : Char) : Bool := c = ' ' || c = '\t' || c = '\n' || c = '\r'

/-- The lexeme in front of a text and what follows it. -/
def lexeme? : List Char → Option (Lexeme × List Char)
  | '[' :: rest => some (.beginArray, rest)
  | ']' :: rest => some (.endArray, rest)
  | '{' :: rest => some (.beginObject, rest)
  | '}' :: rest => some (.endObject, rest)
  | ':' :: rest => some (.colon, rest)
  | ',' :: rest => some (.comma, rest)
  | 'n' :: 'u' :: 'l' :: 'l' :: rest => some (.scalar .null, rest)
  | 't' :: 'r' :: 'u' :: 'e' :: rest => some (.scalar (.bool true), rest)
  | 'f' :: 'a' :: 'l' :: 's' :: 'e' :: rest => some (.scalar (.bool false), rest)
  | '"' :: rest =>
    (parts? rest).map fun (us, tail) => (.scalar (.string ((textOf? us).map String.ofList)), tail)
  | text => (Number.read? text).map fun (n, tail) => (.scalar (.number n), tail)

/-! ### A lexeme takes something off the text -/

theorem length_of_parts? {text tail : List Char} {us : List Part}
    (h : parts? text = some (us, tail)) : tail.length < text.length := by
  fun_induction parts? text generalizing us with
  | case1 => simp at h
  | case2 rest => simp_all
  | case3 a b c d rest ih =>
    simp only [Option.bind_eq_some_iff, Option.map_eq_some_iff, Prod.exists, Prod.mk.injEq] at h
    obtain ⟨n, -, vs, t, ht, -, rfl⟩ := h
    have := ih ht
    simp only [List.length_cons]
    omega
  | case4 e rest he ih =>
    simp only [Option.bind_eq_some_iff, Option.map_eq_some_iff, Prod.exists, Prod.mk.injEq] at h
    obtain ⟨n, -, vs, t, ht, -, rfl⟩ := h
    have := ih ht
    simp only [List.length_cons]
    omega
  | case5 c rest => simp at h
  | case6 c rest hq hu he hc ih =>
    simp only [Option.map_eq_some_iff, Prod.exists, Prod.mk.injEq] at h
    obtain ⟨vs, t, ht, -, rfl⟩ := h
    have := ih ht
    simp only [List.length_cons]
    omega

theorem length_of_lexeme? {text tail : List Char} {l : Lexeme}
    (h : lexeme? text = some (l, tail)) : tail.length < text.length := by
  unfold lexeme? at h
  split at h
  case h_10 rest =>
    simp only [Option.map_eq_some_iff, Prod.exists, Prod.mk.injEq] at h
    obtain ⟨us, t, ht, -, rfl⟩ := h
    exact Nat.lt_succ_of_lt (length_of_parts? ht)
  case h_11 =>
    simp only [Option.map_eq_some_iff, Prod.exists, Prod.mk.injEq] at h
    obtain ⟨n, t, ht, -, rfl⟩ := h
    exact Number.length_of_read? ht
  all_goals
    simp only [Option.some.injEq, Prod.mk.injEq] at h
    obtain ⟨-, rfl⟩ := h
    simp only [List.length_cons]
    omega

/-- The lexemes of a text; `none` if it holds anything else but space between them. -/
def lexemes? : List Char → Option (List Lexeme)
  | [] => some []
  | c :: rest =>
    if isSpace c then lexemes? rest
    else
      match _h : lexeme? (c :: rest) with
      | none => none
      | some (l, tail) => (lexemes? tail).map (l :: ·)
termination_by text => text.length
decreasing_by
  · exact Nat.lt_succ_self _
  · exact length_of_lexeme? _h

end MicroLisp.Json
