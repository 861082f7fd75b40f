import MicroLisp.Proofs.Json.Document
import MicroLisp.Proofs.Json.Double
import MicroLisp.Proofs.Token.Spelling

/-!
# Tokens in JSON are read back

What is written for a token is an object whose members are read again one by one
(`ofJsonText?_jsonText`).  A token without a float comes back as it was.  A float comes
back as the double that its digits are scaled to, which is not always the same one; an
infinity or a NaN does not come back at all.
-/

namespace MicroLisp
open Json

/-! ### The document of a token -/

def Binary64.jsonScalar (x : Binary64) : Scalar :=
  if x.isFinite then .number x.jsonNumber else .null

theorem Binary64.spelled_jsonText (x : Binary64) :
    (Lexeme.scalar x.jsonScalar).Spelled x.jsonText := by
  unfold jsonScalar jsonText
  split
  · next hx =>
    have hspelled := Lexeme.Spelled.number (canonical_jsonNumber hx)
    rwa [spelling_jsonNumber] at hspelled
  · exact .null

theorem Binary64.eq_of_jsonScalar_eq {x y : Binary64} (hx : x.isNaN = false) (hy : y.isNaN = false)
    (h : x.jsonScalar = y.jsonScalar) : x = y ∨ x.isInfinite = true ∧ y.isInfinite = true := by
  have hinfinite {z : Binary64} (hz : z.isNaN = false) (hz' : ¬ z.isFinite = true) :
      z.isInfinite = true := by
    simp only [isNaN, isFinite, isInfinite, decide_eq_false_iff_not, decide_eq_true_eq] at hz hz' ⊢
    omega
  unfold jsonScalar at h
  split at h
  · next hfx =>
    split at h
    · next hfy =>
      have hread := ofDecimal_jsonNumber hfx
      rw [Scalar.number.inj h, ofDecimal_jsonNumber hfy] at hread
      exact Or.inl hread.symm
    · cases h
  · next hfx =>
    split at h
    · cases h
    · next hfy => exact Or.inr ⟨hinfinite hx hfx, hinfinite hy hfy⟩

theorem spelled_intText (n : Int) :
    (Lexeme.scalar (.number (.ofInt n))).Spelled (intText n).toList := by
  have hspelled := Lexeme.Spelled.number (Number.canonical_ofInt n)
  rwa [Number.spelling_ofInt, ← toList_intText] at hspelled

namespace Token

def kindMember (k : Kind) : Member :=
  ⟨"type", .string (some k.name), quoted k.name.toList, .string k.name⟩

/-- The member with the value of a token, if it has one. -/
def valueMember? : Token → Option Member
  | .int n => some ⟨"value", .number (.ofInt n.toInt), (intText n.toInt).toList, spelled_intText _⟩
  | .float x => some ⟨"value", x.jsonScalar, x.jsonText, x.spelled_jsonText⟩
  | .string s | .symbol s => some ⟨"value", .string (some s), quoted s.toList, .string s⟩
  | .boolean b => some ⟨"value", .bool b, (if b then "true" else "false").toList, .bool b⟩
  | .leftParen | .rightParen | .quote => none

theorem toList_jsonText (t : Token) :
    t.jsonText.toList = objectText (kindMember t.kind) t.valueMember?.toList := by
  have hkind : ∀ k : Kind, quoted k.name.toList = '"' :: (k.name.toList ++ ['"']) := by
    intro k
    cases k
    all_goals rfl
  have htype : quoted ['t', 'y', 'p', 'e'] = ['"', 't', 'y', 'p', 'e', '"'] := rfl
  have hvalue : quoted ['v', 'a', 'l', 'u', 'e'] = ['"', 'v', 'a', 'l', 'u', 'e', '"'] := rfl
  rw [objectText, Member.write, kindMember]
  dsimp only
  rw [hkind, jsonText]
  cases t <;> simp [furtherText, valueMember?, Member.write, jsonValue?, htype, hvalue]

theorem parse?_jsonText (t : Token) :
    Json.parse? t.jsonText.toList =
      some (.object ((kindMember t.kind :: t.valueMember?.toList).map Member.entry)) := by
  rw [toList_jsonText, parse?_objectText]

theorem jsonText_no_control (t : Token) : ∀ c ∈ t.jsonText.toList, 32 ≤ c.toNat := by
  rw [toList_jsonText]
  exact objectText_no_control _ _

theorem ofName?_name (k : Kind) : Kind.ofName? k.name = some k := by
  cases k
  all_goals rfl

theorem key_of_valueMember? {t : Token} {m : Member} (h : t.valueMember? = some m) :
    m.key = "value" := by
  cases t
  case leftParen | rightParen | quote => cases h
  all_goals
    obtain rfl := Option.some.inj h
    rfl

/-- What is read back from a token in JSON: its kind comes back, and its value is read under it. -/
theorem ofJsonText?_jsonText (t : Token) :
    ofJsonText? t.jsonText = ofParts? t.kind (t.valueMember?.map fun m => .scalar m.value) := by
  have hkind : Kind.ofJson? (.scalar (.string (some t.kind.name))) = some t.kind :=
    ofName?_name t.kind
  rw [ofJsonText?, parse?_jsonText, Option.bind_some]
  cases hvalue : t.valueMember? with
  | none =>
    simp [ofJson?, Member.entry, kindMember, hkind]
  | some m =>
    have hkey := key_of_valueMember? hvalue
    simp [ofJson?, Member.entry, kindMember, hkind, hkey]

/-! ### Coming back -/

theorem ofJsonText?_of_not_float {t : Token} (h : ∀ x, t ≠ .float x) :
    ofJsonText? t.jsonText = some t := by
  rw [ofJsonText?_jsonText]
  cases t with
  | float x => exact absurd rfl (h x)
  | int n =>
    have hread := Number.toInt64?_ofInt n
    simp only [valueMember?, Option.map_some, kind, ofParts?, ofValue?, hread]
  | string s | symbol s | boolean b | leftParen | rightParen | quote => rfl

theorem ofJsonText?_float (x : Binary64) :
    ofJsonText? (Token.float x).jsonText =
      if x.isFinite then x.jsonNumber.toBinary64?.map .float else none := by
  rw [ofJsonText?_jsonText]
  simp only [valueMember?, Option.map_some, kind, ofParts?, Binary64.jsonScalar]
  split
  · rfl
  · rfl

/-! ### Different tokens are written differently -/

/-- Tokens that are the same in JSON: all infinities are `null` there. -/
def SameInJson (t u : Token) : Prop :=
  t = u ∨ ∃ x y, t = .float x ∧ u = .float y ∧ x.isInfinite = true ∧ y.isInfinite = true

theorem members_of_jsonText_eq {t u : Token} (h : t.jsonText = u.jsonText) :
    t.kind = u.kind ∧ t.valueMember?.map Member.value = u.valueMember?.map Member.value := by
  have hparse := parse?_jsonText t
  rw [h, parse?_jsonText u] at hparse
  simp only [Option.some.injEq, Json.object.injEq, List.map_cons, List.cons.injEq] at hparse
  obtain ⟨hkind, hvalue⟩ := hparse
  constructor
  · have hname : u.kind.name = t.kind.name := by
      simpa [Member.entry, kindMember] using hkind
    have hback := ofName?_name t.kind
    rw [← hname, ofName?_name] at hback
    exact (Option.some.inj hback).symm
  · generalize t.valueMember? = m at hvalue ⊢
    generalize u.valueMember? = m' at hvalue ⊢
    cases m with
    | none =>
      cases m' with
      | none => rfl
      | some m' => cases hvalue
    | some m =>
      cases m' with
      | none => cases hvalue
      | some m' =>
        simp only [Option.toList_some, List.map_cons, List.map_nil, Member.entry, List.cons.injEq,
          Prod.mk.injEq, Json.scalar.injEq] at hvalue
        rw [Option.map_some, Option.map_some, hvalue.1.2]

theorem kind_eq_float_iff {t : Token} : t.kind = .float ↔ ∃ x, t = .float x := by
  cases t <;> simp [kind]

theorem same_of_jsonText_eq {t u : Token} (ht : ∀ x, t = .float x → x.isNaN = false)
    (hu : ∀ x, u = .float x → x.isNaN = false) (h : t.jsonText = u.jsonText) : SameInJson t u := by
  obtain ⟨hkind, hvalue⟩ := members_of_jsonText_eq h
  by_cases hfloat : t.kind = .float
  · obtain ⟨x, rfl⟩ := kind_eq_float_iff.mp hfloat
    obtain ⟨y, rfl⟩ := kind_eq_float_iff.mp (hkind ▸ hfloat)
    have hscalar : x.jsonScalar = y.jsonScalar := by simpa [valueMember?] using hvalue
    rcases Binary64.eq_of_jsonScalar_eq (ht x rfl) (hu y rfl) hscalar with rfl | ⟨hx, hy⟩
    · exact Or.inl rfl
    · exact Or.inr ⟨x, y, rfl, rfl, hx, hy⟩
  · -- no other kind loses anything on the way through JSON
    have hback : ∀ {v : Token}, v.kind ≠ .float → ofJsonText? v.jsonText = some v := by
      intro v hv
      exact ofJsonText?_of_not_float fun x hx => hv (kind_eq_float_iff.mpr ⟨x, hx⟩)
    have hread := hback hfloat
    rw [h, hback (hkind ▸ hfloat)] at hread
    exact Or.inl (Option.some.inj hread).symm

/-! ### The round trip -/

/-- Everything but a float comes back as it was written.  A finite float comes back as the double
that its digits, taken as one number, are scaled to: it has the same sign, and its magnitude is the
same when both the digits and the power of ten are doubles, and otherwise two ranks away at most, or
three if the digits are too many for a double and scaled far down.  Any other float is written as
`null` and refused. -/
theorem ofJsonText?_round_trip (t : Token) :
    (match t with
      | .float x =>
        if x.isFinite then
          ∃ d z, Numeral.decimal? x.jsonText = some d ∧
            Number.scale? (.ofNat d.digits) d.exponent = some z ∧
            ofJsonText? t.jsonText = some (.float { z with negative := x.negative }) ∧
            z.isFinite = true ∧
            (d.digits ≤ 2 ^ 53 → -22 ≤ d.exponent → d.exponent ≤ 22 → z.rank = x.rank) ∧
            (d.digits ≤ 2 ^ 53 ∨ -308 ≤ d.exponent →
              z.rank ≤ x.rank + 2 ∧ x.rank ≤ z.rank + 2) ∧
            z.rank ≤ x.rank + 3 ∧ x.rank ≤ z.rank + 3
        else
          t.jsonText = "\x7b\"type\":\"float\",\"value\":null\x7d" ∧ ofJsonText? t.jsonText = none
      | _ => ofJsonText? t.jsonText = some t) ∧
    ((ofJsonText? t.jsonText).isSome = true ↔ ∀ x, t = .float x → x.isFinite = true) := by
  by_cases hfloat : ∃ x, t = .float x
  · obtain ⟨x, rfl⟩ := hfloat
    have hread := ofJsonText?_float x
    cases hx : x.isFinite with
    | true =>
      obtain ⟨z, hz, hback, hfinite, hthree, htwo, hexact⟩ := Binary64.exists_reread hx
      rw [hx, if_pos rfl, hback, Option.map_some] at hread
      refine ⟨?_, ?_⟩
      · dsimp only
        rw [hx, if_pos rfl]
        exact ⟨_, z, Binary64.decimal?_jsonText hx, hz, hread, hfinite, hexact,
          fun h => htwo h.symm, hthree⟩
      · rw [hread]
        simp [hx]
    | false =>
      rw [hx, if_neg Bool.false_ne_true] at hread
      refine ⟨?_, ?_⟩
      · dsimp only
        rw [hx, if_neg Bool.false_ne_true]
        refine ⟨?_, hread⟩
        simp [jsonText, jsonValue?, Binary64.jsonText, hx, kind, Kind.name]
      · rw [hread]
        simp [hx]
  · have hne : ∀ x, t ≠ .float x := fun x hx => hfloat ⟨x, hx⟩
    have hread := ofJsonText?_of_not_float hne
    refine ⟨?_, ?_⟩
    · split
      · next x => exact absurd rfl (hne x)
      · exact hread
    · rw [hread]
      simp [hne]

/-- The digits of an odd number of fifty-three bits, written with a zero behind the point, are too many
for a double. -/
theorem ofJsonText?_ne_float :
    let x := Binary64.ofBits 0x433fffffffffffff
    x.isFinite = true ∧
      (Token.float x).jsonText = "\x7b\"type\":\"float\",\"value\":9007199254740991.0\x7d" ∧
      ofJsonText? (Token.float x).jsonText = some (.float (.ofBits 0x433ffffffffffffe)) ∧
      ofJsonText? (Token.float x).jsonText ≠ some (.float x) := by
  decide +kernel

end Token
end MicroLisp
