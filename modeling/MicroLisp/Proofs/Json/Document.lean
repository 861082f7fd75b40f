import MicroLisp.Proofs.Json.Container
import MicroLisp.Proofs.Json.Text

/-!
# Documents are read as they were written

The spelling of a lexeme is read as that lexeme (`Lexeme.Spelled.lexemes?`), and an object
whose members are written one behind the other as that object (`parse?_objectText`).  What
is written so has no control characters in it (`objectText_no_control`).
-/

namespace MicroLisp.Json
open Number

variable {l : Lexeme} {w rest : List Char}

/-! ### Lexemes -/

/-- How lexemes are written; arrays are not. -/
inductive Lexeme.Spelled : Lexeme → List Char → Prop
  | beginObject : Spelled .beginObject ['{']
  | endObject : Spelled .endObject ['}']
  | colon : Spelled .colon [':']
  | comma : Spelled .comma [',']
  | null : Spelled (.scalar .null) ['n', 'u', 'l', 'l']
  | bool (b : Bool) : Spelled (.scalar (.bool b)) (if b then "true" else "false").toList
  | string (s : String) : Spelled (.scalar (.string (some s))) (quoted s.toList)
  | number {n : Number} : n.Canonical → Spelled (.scalar (.number n)) n.spelling

theorem Number.Canonical.exists_head {n : Number} (h : n.Canonical) :
    ∃ c cs, n.spelling = c :: cs ∧ (c.isDigit = true ∨ c = '-') := by
  unfold spelling Numeral.sign
  cases n.negative with
  | true => exact ⟨'-', _, rfl, Or.inr rfl⟩
  | false =>
    obtain ⟨c, cs, hc⟩ := List.exists_cons_of_ne_nil h.ne_nil
    rw [hc]
    exact ⟨c, _, rfl, Or.inl (h.whole c (hc ▸ List.mem_cons_self))⟩

/-- The lexeme can end in front of `rest`: only a number could go on there. -/
def Lexeme.EndsAt (l : Lexeme) (rest : List Char) : Prop :=
  ∀ n, l = .scalar (.number n) → Stop rest

theorem Lexeme.Spelled.lexeme? (h : l.Spelled w) (hrest : l.EndsAt rest) :
    lexeme? (w ++ rest) = some (l, rest) := by
  cases h with
  | beginObject => rfl
  | endObject => rfl
  | colon => rfl
  | comma => rfl
  | null => rfl
  | bool b =>
    cases b
    · rfl
    · rfl
  | string s =>
    obtain ⟨us, hparts, htext⟩ := parts?_quoted s.toList rest
    have hform : quoted s.toList ++ rest = '"' :: (s.toList.flatMap escape ++ '"' :: rest) := by
      simp [quoted]
    rw [hform, MicroLisp.Json.lexeme?, hparts, Option.map_some]
    dsimp only
    rw [htext, Option.map_some, String.ofList_toList]
  | number hn =>
    obtain ⟨c, cs, hspelling, hc⟩ := hn.exists_head
    have hread := read?_spelling hn (hrest _ rfl)
    rw [hspelling, List.cons_append] at hread ⊢
    rw [lexeme?_number hc, hread, Option.map_some]

theorem Lexeme.Spelled.exists_head (h : l.Spelled w) : ∃ c cs, w = c :: cs ∧ isSpace c = false := by
  cases h with
  | beginObject | endObject | colon | comma | null => exact ⟨_, _, rfl, rfl⟩
  | bool b =>
    cases b
    · exact ⟨'f', _, rfl, rfl⟩
    · exact ⟨'t', _, rfl, rfl⟩
  | string s => exact ⟨'"', _, rfl, rfl⟩
  | number hn =>
    obtain ⟨c, cs, hspelling, hc⟩ := hn.exists_head
    refine ⟨c, cs, hspelling, ?_⟩
    by_contra hspace
    simp only [isSpace, Bool.or_eq_true, decide_eq_true_eq, Bool.not_eq_false] at hspace
    rcases hspace with ((rfl | rfl) | rfl) | rfl
    all_goals exact absurd hc (by decide)

theorem Lexeme.Spelled.lexemes? (h : l.Spelled w) : lexemes? w = some [l] := by
  obtain ⟨c, cs, rfl, hspace⟩ := h.exists_head
  have hend : l.EndsAt [] := fun _ _ c hc => by cases hc
  have hlexeme := h.lexeme? hend
  rw [List.append_nil] at hlexeme
  rw [lexemes?_of_lexeme? hlexeme hspace, Json.lexemes?]
  rfl

/-! ### Objects -/

structure Member where
  key : String
  value : Scalar
  text : List Char
  spelled : (Lexeme.scalar value).Spelled text

namespace Member

def write (m : Member) : List Char := quoted m.key.toList ++ ':' :: m.text

def entry (m : Member) : Option String × Json := (some m.key, .scalar m.value)

end Member

def furtherText (ms : List Member) : List Char := ms.flatMap (fun m => ',' :: m.write) ++ ['}']

def objectText (m : Member) (ms : List Member) : List Char := '{' :: (m.write ++ furtherText ms)

theorem Member.memberText (m : Member) : MemberText (m.key, .scalar m.value) m.write :=
  .mk (Lexeme.Spelled.string m.key).lexemes? (valueText_scalar m.spelled.lexemes?)

theorem separated_members (m : Member) (ms : List Member) :
    Separated MemberText ((m :: ms).map fun m => (m.key, .scalar m.value))
      (m.write ++ ms.flatMap fun m => ',' :: m.write) := by
  induction ms generalizing m with
  | nil =>
    rw [List.flatMap_nil, List.append_nil]
    exact .one m.memberText
  | cons m' ms ih => exact .more m.memberText (ih m')

theorem parse?_objectText (m : Member) (ms : List Member) :
    parse? (objectText m ms) = some (.object ((m :: ms).map Member.entry)) := by
  have hparse := (ContainerText.object (separated_members m ms) spaces_nil spaces_nil).parse?
  rw [List.nil_append, List.append_assoc, ofMembers, List.map_map] at hparse
  exact hparse

/-! ### No control characters -/

theorem Number.Canonical.no_control {n : Number} (h : n.Canonical) : ∀ c ∈ n.spelling, 32 ≤ c.toNat := by
  intro c hc
  rcases Numeral.of_mem_decimal? (decimal?_spelling h) hc with hdigit | rfl | rfl | rfl | rfl
  · simp only [Char.isDigit, Bool.and_eq_true, decide_eq_true_eq, UInt32.le_iff_toNat_le] at hdigit
    have hle : 48 ≤ c.toNat := hdigit.1
    omega
  all_goals decide

theorem Lexeme.Spelled.no_control (h : l.Spelled w) : ∀ c ∈ w, 32 ≤ c.toNat := by
  cases h with
  | beginObject | endObject | colon | comma | null => exact no_control_of_all (by decide)
  | bool b =>
    cases b
    · exact no_control_of_all (by decide)
    · exact no_control_of_all (by decide)
  | string s => exact quoted_no_control s.toList
  | number hn => exact hn.no_control

theorem Member.no_control (m : Member) : ∀ c ∈ m.write, 32 ≤ c.toNat := by
  intro c hc
  simp only [Member.write, List.mem_append, List.mem_cons] at hc
  rcases hc with hkey | rfl | htext
  · exact quoted_no_control m.key.toList c hkey
  · decide
  · exact m.spelled.no_control c htext

theorem objectText_no_control (m : Member) (ms : List Member) :
    ∀ c ∈ objectText m ms, 32 ≤ c.toNat := by
  intro c hc
  simp only [objectText, furtherText, List.mem_cons, List.mem_append, List.mem_flatMap,
    List.not_mem_nil, or_false] at hc
  rcases hc with rfl | hfirst | ⟨m', -, rfl | hfurther⟩ | rfl
  · decide
  · exact m.no_control c hfirst
  · decide
  · exact m'.no_control c hfurther
  · decide

end MicroLisp.Json
