import MicroLisp.Proofs.Json.Container
import MicroLisp.Proofs.Token.Json
import MicroLisp.Proofs.Word

/-!
# Layouts of a token in JSON

A kind and a value are found in a document wherever they stand: as an array of the two
if the kind is a text, or as members of an object in either order and among others
(`Json.Gives`).  The token depends on the two alone (`ofJson?_of_gives`), and there is no
token that comes from anything else (`exists_gives`).
-/

namespace MicroLisp
open Json

/-! ### Kind and value of a document -/

/-- The name in a type: a text, or the only key of an object that has `null` under it. -/
def Json.name? : Json → Option String
  | .scalar (.string name?) => name?
  | .object [(name?, .scalar .null)] => name?
  | _ => none

def Kind.json (k : Kind) : Json := .scalar (.string (some k.name))

/-- A document with a type, and with a value or without one. -/
inductive Json.Gives : Json → Json → Option Json → Prop
  | array (name : String) (value : Json) :
      Gives (.array [.scalar (.string (some name)), value]) (.scalar (.string (some name))) (some value)
  | object {members further : List (String × Json)} {kind : Json} {value? : Option Json} :
      members.Perm (("type", kind) :: (value?.toList.map (("value", ·)) ++ further)) →
        (∀ m ∈ further, m.1 ≠ "type" ∧ m.1 ≠ "value") → Gives (ofMembers members) kind value?

def valuesOf (key : String) (members : List (String × Json)) : List Json :=
  members.filterMap fun m => if m.1 = key then some m.2 else none

/-- Texts of such documents, in any of their layouts. -/
def Token.Layout (kind : Json) (value? : Option Json) (text : String) : Prop :=
  ∃ doc : Json, doc.Gives kind value? ∧ doc.ContainerText text.toList

variable {doc kind : Json} {value? : Option Json} {members further : List (String × Json)}

/-! ### Members by their key -/

theorem valuesOf_eq_nil {key : String} (h : ∀ m ∈ members, m.1 ≠ key) : valuesOf key members = [] := by
  rw [valuesOf, List.filterMap_eq_nil_iff]
  intro m hm
  rw [if_neg (h m hm)]

/-- Neither the order nor the other members matter. -/
theorem valuesOf_perm
    (h : members.Perm (("type", kind) :: (value?.toList.map (("value", ·)) ++ further)))
    (hfurther : ∀ m ∈ further, m.1 ≠ "type" ∧ m.1 ≠ "value") :
    valuesOf "type" members = [kind] ∧ valuesOf "value" members = value?.toList := by
  have htype := valuesOf_eq_nil fun m hm => (hfurther m hm).1
  have hvalue := valuesOf_eq_nil fun m hm => (hfurther m hm).2
  have htypes := h.filterMap fun m => if m.1 = "type" then some m.2 else none
  have hvalues := h.filterMap fun m => if m.1 = "value" then some m.2 else none
  simp only [valuesOf] at htype hvalue ⊢
  cases value? with
  | none =>
    simp only [Option.toList_none, List.map_nil, List.nil_append, List.filterMap_cons, htype, hvalue,
      ↓reduceIte] at htypes hvalues
    exact ⟨List.perm_singleton.mp htypes, List.perm_nil.mp hvalues⟩
  | some value =>
    simp only [Option.toList_some, List.map_cons, List.map_nil, List.singleton_append,
      List.filterMap_cons, htype, hvalue, ↓reduceIte] at htypes hvalues
    exact ⟨List.perm_singleton.mp htypes, List.perm_singleton.mp hvalues⟩

theorem perm_valuesOf (members : List (String × Json)) :
    members.Perm ((valuesOf "type" members).map (("type", ·)) ++
      ((valuesOf "value" members).map (("value", ·)) ++
        members.filter fun m => m.1 ≠ "type" ∧ m.1 ≠ "value")) := by
  induction members with
  | nil => exact .nil
  | cons m members ih =>
    obtain ⟨key, value⟩ := m
    by_cases htype : key = "type"
    · subst htype
      simpa [valuesOf] using ih
    · by_cases hvalue : key = "value"
      · subst hvalue
        simpa [valuesOf] using (ih.cons _).trans List.perm_middle.symm
      · simpa [valuesOf, htype, hvalue] using
          (ih.cons _).trans (List.perm_middle.symm.trans (List.perm_middle.symm.append_left _))

theorem exists_members {ms : List (Option String × Json)} (h : ∀ m ∈ ms, m.1 ≠ none) :
    ∃ members, Json.object ms = ofMembers members := by
  induction ms with
  | nil => exact ⟨[], rfl⟩
  | cons m ms ih =>
    obtain ⟨members, hmembers⟩ := ih fun m' hm' => h m' (List.mem_cons_of_mem m hm')
    obtain ⟨key, hkey⟩ := Option.ne_none_iff_exists'.mp (h m List.mem_cons_self)
    refine ⟨(key, m.2) :: members, ?_⟩
    rw [ofMembers, Json.object.injEq] at hmembers ⊢
    rw [hmembers, List.map_cons, ← hkey]

namespace Token

/-! ### From kind and value to the token -/

theorem ofJson?_ofMembers (members : List (String × Json)) :
    ofJson? (ofMembers members) =
      match valuesOf "type" members, valuesOf "value" members with
      | [kind], [] => (Kind.ofJson? kind).bind fun k => ofParts? k none
      | [kind], [value] => (Kind.ofJson? kind).bind fun k => ofParts? k (some value)
      | _, _ => none := by
  have hkeys : ¬((members.map fun m => (some m.1, m.2)).any fun m => m.1.isNone) = true := by simp
  have hvalues : ∀ key, (members.map fun m => (some m.1, m.2)).filterMap
      (fun m => if m.1 = some key then some m.2 else none) = valuesOf key members := by
    intro key
    rw [List.filterMap_map, valuesOf]
    congr
    funext m
    simp
  rw [← hvalues, ← hvalues]
  exact if_neg hkeys

theorem ofJson?_of_gives (h : doc.Gives kind value?) :
    ofJson? doc = (Kind.ofJson? kind).bind fun k => ofParts? k value? := by
  cases h with
  | array name value => rfl
  | @object members further kind value? hperm hfurther =>
    obtain ⟨htypes, hvalues⟩ := valuesOf_perm hperm hfurther
    rw [ofJson?_ofMembers, htypes, hvalues]
    cases value? with
    | none => rfl
    | some value => rfl

theorem ofJsonText?_of_layout {text : String} (h : Layout kind value? text) :
    ofJsonText? text = (Kind.ofJson? kind).bind fun k => ofParts? k value? := by
  obtain ⟨doc, hgives, htext⟩ := h
  rw [ofJsonText?, htext.parse?, Option.bind_some, ofJson?_of_gives hgives]

/-! ### From the token to kind and value -/

theorem kind_of_ofValue? {k : Kind} {value : Json} {t : Token} (h : ofValue? k value = some t) :
    t.kind = k := by
  unfold ofValue? at h
  split at h
  case h_1 | h_2 =>
    obtain ⟨x, -, rfl⟩ := Option.map_eq_some_iff.mp h
    rfl
  case h_9 => cases h
  all_goals
    obtain rfl := Option.some.inj h
    rfl

theorem kind_of_ofParts? {k : Kind} {t : Token} (h : ofParts? k value? = some t) : t.kind = k := by
  cases value? with
  | none =>
    simp only [ofParts?] at h
    split at h
    · exact kind_of_ofValue? h
    · cases h
  | some value => exact kind_of_ofValue? h

theorem isSome_ofParts?_none (k : Kind) : (ofParts? k none).isSome = k.isDelimiter := by
  cases k
  all_goals rfl

theorem gives_of_ofJson? {t : Token} (h : ofJson? doc = some t) :
    ∃ kind value?, doc.Gives kind value? := by
  unfold ofJson? at h
  split at h
  · next name value => exact ⟨_, some value, .array name value⟩
  · next ms =>
    split at h
    · cases h
    · next hkeys =>
      have hsome : ∀ m ∈ ms, m.1 ≠ none := by
        intro m hm hnone
        exact hkeys (List.any_eq_true.mpr ⟨m, hm, by rw [hnone]; rfl⟩)
      obtain ⟨members, hmembers⟩ := exists_members hsome
      have hobject : ofJson? (.object ms) = some t := by
        rw [ofJson?, if_neg hkeys]
        exact h
      have hperm := perm_valuesOf members
      have hfurther : ∀ m ∈ members.filter fun m => m.1 ≠ "type" ∧ m.1 ≠ "value",
          m.1 ≠ "type" ∧ m.1 ≠ "value" := fun m hm => of_decide_eq_true (List.mem_filter.mp hm).2
      rw [hmembers, ofJson?_ofMembers] at hobject
      rw [hmembers]
      split at hobject
      · next kind htypes hvalues =>
        rw [htypes, hvalues] at hperm
        exact ⟨kind, none, .object hperm hfurther⟩
      · next kind value htypes hvalues =>
        rw [htypes, hvalues] at hperm
        exact ⟨kind, some value, .object hperm hfurther⟩
      · cases hobject
  · cases h

theorem exists_gives {t : Token} (h : ofJson? doc = some t) :
    ∃ kind value?, doc.Gives kind value? ∧ Kind.ofJson? kind = some t.kind ∧
      ofParts? t.kind value? = some t := by
  obtain ⟨kind, value?, hgives⟩ := gives_of_ofJson? h
  rw [ofJson?_of_gives hgives] at h
  obtain ⟨k, hk, ht⟩ := Option.bind_eq_some_iff.mp h
  obtain rfl := kind_of_ofParts? ht
  exact ⟨kind, value?, hgives, hk, ht⟩

theorem name?_of_ofJson? {k : Kind} (h : Kind.ofJson? kind = some k) : kind.name? = some k.name := by
  have hname : ∀ {name : String}, Kind.ofName? name = some k → name = k.name := by
    intro name hfind
    have hk := List.find?_some hfind
    exact (of_decide_eq_true hk).symm
  unfold Kind.ofJson? at h
  split at h
  · exact congrArg some (hname h)
  · exact congrArg some (hname h)
  · cases h

/-- In an array the kind is a text, and the value is not left out. -/
theorem items_of_ofJson? {items : List Json} {t : Token} (h : ofJson? (.array items) = some t) :
    ∃ value, items = [t.kind.json, value] := by
  obtain ⟨kind, value?, hgives, hkind, -⟩ := exists_gives h
  generalize hdoc : Json.array items = doc at hgives
  cases hgives with
  | array name value =>
    obtain rfl := Json.array.inj hdoc
    obtain rfl : name = t.kind.name := Option.some.inj (name?_of_ofJson? hkind)
    exact ⟨value, rfl⟩
  | object hperm hfurther => cases hdoc

/-! ### What values are accepted -/

theorem toInt64?_eq_some {n : Json.Number} {i : Int64} (h : n.toInt64? = some i) :
    n.fraction = none ∧ n.exponent = none ∧
      Numeral.signed n.negative (Nat.ofDigitChars 10 n.whole 0) = i.toInt := by
  unfold Number.toInt64? at h
  dsimp only at h
  split_ifs at h with hform hzero
  exact ⟨hform.1, hform.2, (Word.fit?_eq_some_iff.mp h).symm⟩

theorem number_of_ofValue? {k : Kind} {value : Json} {t : Token} (hk : k = .int ∨ k = .float)
    (h : ofValue? k value = some t) : ∃ n, value = .scalar (.number n) := by
  unfold ofValue? at h
  split at h
  case h_1 n | h_2 n => exact ⟨n, rfl⟩
  case h_9 => cases h
  all_goals simp at hk

theorem int_of_ofParts? {i : Int64} (h : ofParts? .int value? = some (.int i)) :
    ∃ n, value? = some (.scalar (.number n)) ∧ n.toInt64? = some i := by
  cases value? with
  | none => cases h
  | some value =>
    obtain ⟨n, rfl⟩ := number_of_ofValue? (Or.inl rfl) h
    obtain ⟨i', hi, heq⟩ := Option.map_eq_some_iff.mp h
    exact ⟨n, rfl, by rw [hi, Token.int.inj heq]⟩

theorem isFinite_of_ofParts? {x : Binary64} (h : ofParts? .float value? = some (.float x)) :
    x.isFinite = true := by
  cases value? with
  | none => cases h
  | some value =>
    obtain ⟨n, rfl⟩ := number_of_ofValue? (Or.inr rfl) h
    obtain ⟨x', hx, heq⟩ := Option.map_eq_some_iff.mp h
    exact Token.float.inj heq ▸ Number.isFinite_of_toBinary64? hx

/-! ### Decoding, encoding and decoding again -/

theorem ofJsonText?_of_finite {x : Binary64} (hx : x.isFinite = true) :
    ∃ d z, Numeral.decimal? x.jsonText = some d ∧
      Number.scale? (.ofNat d.digits) d.exponent = some z ∧
      ofJsonText? (Token.float x).jsonText = some (.float { z with negative := x.negative }) ∧
      z.isFinite = true ∧
      (d.digits ≤ 2 ^ 53 → -22 ≤ d.exponent → d.exponent ≤ 22 → z.rank = x.rank) ∧
      (d.digits ≤ 2 ^ 53 ∨ -308 ≤ d.exponent → z.rank ≤ x.rank + 2 ∧ x.rank ≤ z.rank + 2) ∧
      z.rank ≤ x.rank + 3 ∧ x.rank ≤ z.rank + 3 := by
  obtain ⟨z, hz, hback, hfinite, hthree, htwo, hexact⟩ := Binary64.exists_reread hx
  have hread := ofJsonText?_float x
  rw [hx, if_pos rfl, hback, Option.map_some] at hread
  exact ⟨_, z, Binary64.decimal?_jsonText hx, hz, hread, hfinite, hexact, fun h => htwo h.symm, hthree⟩

/-- A document stands for a token by its type and its value alone, and only delimiters can do without
a value, in an object.  The token has the kind that is named, a float is finite, and an integer was
written as one that fits.  Written again it is read as the same token, except that a float can come
back as another one near by. -/
theorem ofJsonText?_layout_independent :
    (∀ text t, ofJsonText? text = some t →
      (∃ doc kind value?, Json.parse? text.toList = some doc ∧ doc.Gives kind value? ∧
        kind.name? = some t.kind.name ∧
        (value? = none → t.kind.isDelimiter = true) ∧
        ∀ i, t = .int i → ∃ n : Json.Number, value? = some (.scalar (.number n)) ∧
          n.fraction = none ∧ n.exponent = none ∧
          Numeral.signed n.negative (Nat.ofDigitChars 10 n.whole 0) = i.toInt) ∧
      match t with
      | .float x =>
        x.isFinite = true ∧
          ∃ d z, Numeral.decimal? x.jsonText = some d ∧
            Number.scale? (.ofNat d.digits) d.exponent = some z ∧
            ofJsonText? t.jsonText = some (.float { z with negative := x.negative }) ∧
            z.isFinite = true ∧
            (d.digits ≤ 2 ^ 53 → -22 ≤ d.exponent → d.exponent ≤ 22 → z.rank = x.rank) ∧
            (d.digits ≤ 2 ^ 53 ∨ -308 ≤ d.exponent →
              z.rank ≤ x.rank + 2 ∧ x.rank ≤ z.rank + 2) ∧
            z.rank ≤ x.rank + 3 ∧ x.rank ≤ z.rank + 3
      | _ => ofJsonText? t.jsonText = some t) ∧
    (∀ kind value? text text', Layout kind value? text → Layout kind value? text' →
      ofJsonText? text = ofJsonText? text') ∧
    (∀ (k : Kind) text, Layout k.json none text → (ofJsonText? text).isSome = k.isDelimiter) ∧
    ∀ items text t, (Json.array items).ContainerText text.toList → ofJsonText? text = some t →
      ∃ value, items = [t.kind.json, value] := by
  refine ⟨?_, ?_, ?_, ?_⟩
  · intro text t h
    obtain ⟨doc, hparse, hdoc⟩ := Option.bind_eq_some_iff.mp h
    obtain ⟨kind, value?, hgives, hkind, hparts⟩ := exists_gives hdoc
    refine ⟨⟨doc, kind, value?, hparse, hgives, name?_of_ofJson? hkind, ?_, ?_⟩, ?_⟩
    · rintro rfl
      rw [← isSome_ofParts?_none, hparts]
      rfl
    · rintro i rfl
      obtain ⟨n, hvalue, hn⟩ := int_of_ofParts? hparts
      exact ⟨n, hvalue, toInt64?_eq_some hn⟩
    · cases t with
      | float x =>
        have hx := isFinite_of_ofParts? hparts
        exact ⟨hx, ofJsonText?_of_finite hx⟩
      | int | string | boolean | symbol | leftParen | rightParen | quote =>
        exact ofJsonText?_of_not_float (by rintro x ⟨⟩)
  · intro kind value? text text' h h'
    rw [ofJsonText?_of_layout h, ofJsonText?_of_layout h']
  · intro k text h
    have hkind : Kind.ofJson? k.json = some k := ofName?_name k
    rw [ofJsonText?_of_layout h, hkind, Option.bind_some, isSome_ofParts?_none]
  · intro items text t h ht
    rw [ofJsonText?, h.parse?, Option.bind_some] at ht
    exact items_of_ofJson? ht

/-- Two layouts of an integer, the one with a number out of range beside it, a delimiter without a
value, and arrays that are refused: one without a value, and one whose kind is no text. -/
theorem ofJsonText?_layout_independent_int :
    let text := " \x7b\"value\" : -7 ,\"x\":[1e999],\"type\":\"int\"\x7d"
    let text' := "[\"int\",-7]"
    ofJsonText? text = some (.int (-7)) ∧ ofJsonText? (Token.int (-7)).jsonText = some (.int (-7)) ∧
      ofJsonText? text = ofJsonText? text' ∧
      (ofJsonText? "\x7b\"type\":\"quote\"\x7d").isSome = true ∧ ofJsonText? "[\"quote\"]" = none ∧
      ofJsonText? "[\x7b\"int\":null\x7d,-7]" = none := by
  intro text text'
  let value : Json := .scalar (.number ⟨true, ['7'], none, none⟩)
  let beyond : Json := .scalar (.number ⟨false, ['1'], none, some 999⟩)
  have hint : ValueText Kind.int.json "\"int\"".toList := valueText_scalar (by decide +kernel)
  have hquote : ValueText Kind.quote.json "\"quote\"".toList := valueText_scalar (by decide +kernel)
  have hvalue : ∀ w ∈ [" -7 ".toList, "-7".toList], ValueText value w := by
    intro w hw
    apply valueText_scalar
    revert w
    decide +kernel
  have hbeyond : ValueText (.array [beyond]) "[1e999]".toList := by
    have hitem : ValueText beyond "1e999".toList := valueText_scalar (by decide +kernel)
    exact (ContainerText.array (.one hitem) spaces_nil spaces_nil).parse?
  have hlayout : Layout Kind.int.json (some value) text := by
    unfold text
    have hvalueText : MemberText ("value", value) ("\"value\" ".toList ++ ':' :: " -7 ".toList) :=
      .mk (by decide +kernel) (hvalue _ List.mem_cons_self)
    have hbeyondText : MemberText ("x", .array [beyond]) ("\"x\"".toList ++ ':' :: "[1e999]".toList) :=
      .mk (by decide +kernel) hbeyond
    have htypeText : MemberText ("type", Kind.int.json) ("\"type\"".toList ++ ':' :: "\"int\"".toList) :=
      .mk (by decide +kernel) hint
    have hspace : Spaces [' '] := by simp [Spaces, isSpace]
    have hcontainer := ContainerText.object (.more hvalueText (.more hbeyondText (.one htypeText)))
      hspace spaces_nil
    have hperm : ([("value", value), ("x", .array [beyond])] ++ [("type", Kind.int.json)]).Perm
        ([("type", Kind.int.json)] ++ [("value", value), ("x", .array [beyond])]) :=
      List.perm_append_comm
    exact ⟨_, .object hperm (by decide), hcontainer⟩
  have harray : Layout Kind.int.json (some value) text' := by
    have hitem : ValueText value "-7".toList := hvalue _ (by decide)
    unfold text'
    exact ⟨_, .array _ _, .array (.more hint (.one hitem)) spaces_nil spaces_nil⟩
  have hmissing : Layout Kind.quote.json none "\x7b\"type\":\"quote\"\x7d" := by
    have htypeText : MemberText ("type", Kind.quote.json)
        ("\"type\"".toList ++ ':' :: "\"quote\"".toList) := .mk (by decide +kernel) hquote
    exact ⟨_, .object (.refl _) (by simp), .object (.one htypeText) spaces_nil spaces_nil⟩
  have hlone : (Json.array [Kind.quote.json]).ContainerText "[\"quote\"]".toList :=
    .array (.one hquote) spaces_nil spaces_nil
  have hkind : ValueText (ofMembers [("int", .scalar .null)]) "\x7b\"int\":null\x7d".toList := by
    have hmember : MemberText ("int", .scalar .null) ("\"int\"".toList ++ ':' :: "null".toList) :=
      .mk (by decide +kernel) (valueText_scalar (by decide +kernel))
    exact (ContainerText.object (.one hmember) spaces_nil spaces_nil).parse?
  have hobject : (Json.array [ofMembers [("int", .scalar .null)], value]).ContainerText
      "[\x7b\"int\":null\x7d,-7]".toList :=
    .array (.more hkind (.one (hvalue "-7".toList (by decide)))) spaces_nil spaces_nil
  obtain ⟨hdecoded, hlayouts, hdelimiter, hrefused⟩ := ofJsonText?_layout_independent
  have htext : ofJsonText? text = some (.int (-7)) := by decide +kernel
  refine ⟨htext, (hdecoded text (.int (-7)) htext).2, hlayouts _ _ text text' hlayout harray,
    hdelimiter .quote _ hmissing, ?_, ?_⟩
  · rw [Option.eq_none_iff_forall_ne_some]
    intro t ht
    obtain ⟨v, hitems⟩ := hrefused _ _ t hlone ht
    cases (List.cons.inj hitems).2
  · rw [Option.eq_none_iff_forall_ne_some]
    intro t ht
    obtain ⟨v, hitems⟩ := hrefused _ _ t hobject ht
    cases (List.cons.inj hitems).1

/-- The double before `2 ^ 53` can be read, but not from what is written for it. -/
theorem ofJsonText?_ne_reread :
    let x := Binary64.ofBits 0x433fffffffffffff
    ofJsonText? "\x7b\"type\":\"float\",\"value\":9007199254740991\x7d" = some (.float x) ∧
      ofJsonText? (Token.float x).jsonText ≠ some (.float x) := by
  decide +kernel

end Token
end MicroLisp
