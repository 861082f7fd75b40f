import MicroLisp.Json.Document
import MicroLisp.Proofs.Json.Lexeme

/-!
# Texts of arrays and objects

A text that is read as a value is read as the same value inside a container, whatever its
spelling and the white space in it: the machine that reads documents never looks at the
containers below the one it fills (`Reading.foldlM_below`).  So commas, colons and brackets
around texts of values make up texts of arrays and objects (`ContainerText.parse?`).
-/

namespace MicroLisp.Json

variable {v : Json} {text w rest : List Char} {p q : Reading} {ls : List Lexeme}

/-- White space alone. -/
def Spaces (cs : List Char) : Prop := ∀ c ∈ cs, isSpace c = true

theorem spaces_nil : Spaces [] := fun _ hc => absurd hc List.not_mem_nil

/-! ### Open containers below -/

namespace Reading

def below (p : Reading) (outer : List Open) : Reading := ⟨p.expect, p.opened ++ outer⟩

theorem beginValue_below {opened : List Open} {l : Lexeme} (h : beginValue opened l = some q)
    (outer : List Open) : beginValue (opened ++ outer) l = some (q.below outer) := by
  cases l with
  | scalar | beginArray | beginObject =>
    obtain rfl := Option.some.inj h
    rfl
  | endArray | endObject | colon | comma => cases h

theorem takeKey_below {members : List (Option String × Json)} {opened : List Open} {l : Lexeme}
    (h : takeKey members opened l = some q) (outer : List Open) :
    takeKey members (opened ++ outer) l = some (q.below outer) := by
  unfold takeKey at h
  split at h
  · obtain rfl := Option.some.inj h
    rfl
  · cases h

theorem continueWith_below {opened : List Open} {l : Lexeme} (h : continueWith v opened l = some q)
    (outer : List Open) : continueWith v (opened ++ outer) l = some (q.below outer) := by
  unfold continueWith at h
  split at h
  case h_5 => cases h
  all_goals
    obtain rfl := Option.some.inj h
    rfl

theorem step_below {l : Lexeme} (h : p.step l = some q) (outer : List Open) :
    (p.below outer).step l = some (q.below outer) := by
  obtain ⟨e, opened⟩ := p
  cases e with
  | value => exact beginValue_below h outer
  | firstItem =>
    simp only [step, below] at h ⊢
    split at h
    · next hl =>
      obtain rfl := Option.some.inj h
      rw [if_pos hl]
    · next hl =>
      rw [if_neg hl]
      exact beginValue_below h outer
  | firstKey =>
    simp only [step, below] at h ⊢
    split at h
    · next hl =>
      obtain rfl := Option.some.inj h
      rw [if_pos hl]
    · next hl =>
      rw [if_neg hl]
      exact takeKey_below h outer
  | key members => exact takeKey_below h outer
  | colon members key =>
    simp only [step, below] at h ⊢
    split at h
    · next hl =>
      obtain rfl := Option.some.inj h
      rw [if_pos hl]
      rfl
    · cases h
  | after v => exact continueWith_below h outer

theorem foldlM_below (h : ls.foldlM step p = some q) (outer : List Open) :
    ls.foldlM step (p.below outer) = some (q.below outer) := by
  induction ls generalizing p with
  | nil =>
    obtain rfl := Option.some.inj h
    rfl
  | cons l ls ih =>
    obtain ⟨r, hr, hls⟩ := Option.bind_eq_some_iff.mp h
    rw [List.foldlM_cons, step_below hr]
    exact ih hls

/-! ### The machine on a text -/

/-- The machine fed with the lexemes of a text. -/
def run (p : Reading) (text : List Char) : Option Reading := (lexemes? text).bind (·.foldlM step p)

theorem parse?_eq_run (text : List Char) : parse? text = (empty.run text).bind result? := by
  rw [run, Option.bind_assoc]
  rfl

theorem run_nil (p : Reading) : p.run [] = some p := by
  rw [run, lexemes?]
  rfl

theorem run_append (h : lexemes? w = some ls) (hrest : Number.Stop rest) :
    p.run (w ++ rest) = (ls.foldlM step p).bind (·.run rest) := by
  rw [run, lexemes?_in_front h hrest]
  cases hlexemes : lexemes? rest with
  | none => simp [run, hlexemes]
  | some ls' => simp [run, hlexemes, List.foldlM_append]

theorem lexemes?_of_parse? (h : parse? w = some v) :
    ∃ l ls, lexemes? w = some (l :: ls) ∧ l ≠ .endArray ∧
      ∀ opened, (l :: ls).foldlM step ⟨.value, opened⟩ = some ⟨.after v, opened⟩ := by
  obtain ⟨ls, hlexemes, h⟩ := Option.bind_eq_some_iff.mp h
  obtain ⟨q, hq, hresult⟩ := Option.bind_eq_some_iff.mp h
  obtain rfl : q = ⟨.after v, []⟩ := by
    unfold result? at hresult
    split at hresult
    · obtain ⟨e, opened⟩ := q
      simp_all
    · cases hresult
  cases ls with
  | nil => cases hq
  | cons l ls =>
    refine ⟨l, ls, hlexemes, ?_, fun opened => foldlM_below hq opened⟩
    rintro rfl
    cases hq

theorem run_value (h : parse? w = some v) (hrest : Number.Stop rest) (opened : List Open) :
    run ⟨.value, opened⟩ (w ++ rest) = run ⟨.after v, opened⟩ rest := by
  obtain ⟨l, ls, hlexemes, -, hfold⟩ := lexemes?_of_parse? h
  rw [run_append hlexemes hrest, hfold, Option.bind_some]

/-- In front of the first item a value is taken as behind a comma. -/
theorem run_firstItem (h : parse? w = some v) (hrest : Number.Stop rest) (opened : List Open) :
    run ⟨.firstItem, opened⟩ (w ++ rest) = run ⟨.value, .array [] :: opened⟩ (w ++ rest) := by
  obtain ⟨l, ls, hlexemes, hl, -⟩ := lexemes?_of_parse? h
  have hfirst : step ⟨.firstItem, opened⟩ l = step ⟨.value, .array [] :: opened⟩ l := if_neg hl
  rw [run_append hlexemes hrest, run_append hlexemes hrest, List.foldlM_cons, List.foldlM_cons, hfirst]

/-- A bracket or a mark stands for itself, whatever follows it. -/
theorem run_mark {c : Char} {l : Lexeme} (hl : lexeme? (c :: rest) = some (l, rest))
    (hc : isSpace c = false) : p.run (c :: rest) = (p.step l).bind (·.run rest) := by
  rw [run, lexemes?_of_lexeme? hl hc]
  cases hrest : lexemes? rest with
  | none => simp [run, hrest]
  | some ls => simp [run, hrest]

theorem run_spaces {spaces : List Char} (h : Spaces spaces) (rest : List Char) :
    p.run (spaces ++ rest) = p.run rest := by
  induction spaces with
  | nil => rfl
  | cons c spaces ih =>
    have hc := h c List.mem_cons_self
    have htail := ih fun c hc => h c (List.mem_cons_of_mem _ hc)
    rw [← htail, run, run, List.cons_append, lexemes?, if_pos hc]

end Reading

/-! ### Texts of containers -/

/-- Texts of several things, with a comma between two of them. -/
inductive Separated {α : Type} (IsText : α → List Char → Prop) : List α → List Char → Prop
  | one {a : α} {w : List Char} : IsText a w → Separated IsText [a] w
  | more {a : α} {as : List α} {w ws : List Char} :
      IsText a w → Separated IsText as ws → Separated IsText (a :: as) (w ++ ',' :: ws)

def ValueText (v : Json) (w : List Char) : Prop := parse? w = some v

theorem valueText_scalar {s : Scalar} (h : lexemes? w = some [.scalar s]) :
    ValueText (.scalar s) w := by
  rw [ValueText, parse?, h]
  rfl

inductive MemberText : String × Json → List Char → Prop
  | mk {key : String} {v : Json} {kw w : List Char} :
      lexemes? kw = some [.scalar (.string (some key))] → ValueText v w →
        MemberText (key, v) (kw ++ ':' :: w)

/-- An object whose keys are all texts. -/
def ofMembers (members : List (String × Json)) : Json :=
  .object (members.map fun m => (some m.1, m.2))

/-- Texts of an array or an object that is not empty.  White space inside it belongs to the texts of
its parts. -/
inductive ContainerText : Json → List Char → Prop
  | array {items : List Json} {w before after : List Char} : Separated ValueText items w →
      Spaces before → Spaces after → ContainerText (.array items) (before ++ '[' :: (w ++ ']' :: after))
  | object {members : List (String × Json)} {w before after : List Char} :
      Separated MemberText members w → Spaces before → Spaces after →
        ContainerText (ofMembers members) (before ++ '{' :: (w ++ '}' :: after))

namespace Reading

variable {done : List (Option String × Json)} {opened : List Open}

theorem stop_mark {c : Char} (h : c ∈ [',', ':', ']', '}']) (cs : List Char) :
    Number.Stop (c :: cs) := by
  rintro c' ⟨⟩
  simp only [List.mem_cons, List.not_mem_nil, or_false] at h
  obtain rfl | rfl | rfl | rfl := h
  all_goals decide

theorem run_items {items : List Json} (h : Separated ValueText items w) (done : List Json)
    (opened : List Open) (after : List Char) :
    run ⟨.value, .array done :: opened⟩ (w ++ ']' :: after) =
      run ⟨.after (.array (done.reverse ++ items)), opened⟩ after := by
  induction h generalizing done with
  | @one v w hv =>
    have hend : step ⟨.after v, .array done :: opened⟩ .endArray =
        some ⟨.after (.array (v :: done).reverse), opened⟩ := rfl
    rw [run_value hv (stop_mark (by decide) _), run_mark rfl rfl, hend, Option.bind_some,
      List.reverse_cons]
  | @more v items w ws hv hitems ih =>
    have hcomma : step ⟨.after v, .array done :: opened⟩ .comma =
        some ⟨.value, .array (v :: done) :: opened⟩ := rfl
    rw [List.append_assoc, List.cons_append, run_value hv (stop_mark (by decide) _), run_mark rfl rfl,
      hcomma, Option.bind_some, ih, List.reverse_cons, List.append_assoc, List.singleton_append]

theorem run_firstItems {items : List Json} (h : Separated ValueText items w) (opened : List Open)
    (after : List Char) : run ⟨.firstItem, opened⟩ (w ++ ']' :: after) =
      run ⟨.after (.array items), opened⟩ after := by
  have hitems := run_items h [] opened after
  rw [List.reverse_nil, List.nil_append] at hitems
  rw [← hitems]
  cases h with
  | one hv => exact run_firstItem hv (stop_mark (by decide) _) opened
  | more hv hitems =>
    rw [List.append_assoc, List.cons_append]
    exact run_firstItem hv (stop_mark (by decide) _) opened

theorem run_member {e : Expect} {m : String × Json} (h : MemberText m w)
    (he : ∀ key, step ⟨e, opened⟩ (.scalar (.string key)) = some ⟨.colon done key, opened⟩)
    (hrest : Number.Stop rest) :
    run ⟨e, opened⟩ (w ++ rest) = run ⟨.after m.2, .object done (some m.1) :: opened⟩ rest := by
  cases h with
  | @mk key v kw w hkey hv =>
    have hcolon : step ⟨.colon done (some key), opened⟩ .colon =
        some ⟨.value, .object done (some key) :: opened⟩ := rfl
    rw [List.append_assoc, List.cons_append, run_append hkey (stop_mark (by decide) _),
      List.foldlM_cons, he, Option.bind_eq_bind, Option.bind_some, List.foldlM_nil, Option.pure_def,
      Option.bind_some, run_mark rfl rfl, hcolon, Option.bind_some, run_value hv hrest]

theorem run_members {e : Expect} {members : List (String × Json)} (h : Separated MemberText members w)
    (he : ∀ key, step ⟨e, opened⟩ (.scalar (.string key)) = some ⟨.colon done key, opened⟩)
    (after : List Char) : run ⟨e, opened⟩ (w ++ '}' :: after) =
      run ⟨.after (.object (done.reverse ++ members.map fun m => (some m.1, m.2))), opened⟩ after := by
  induction h generalizing e done with
  | @one m w hm =>
    have hend : step ⟨.after m.2, .object done (some m.1) :: opened⟩ .endObject =
        some ⟨.after (.object ((some m.1, m.2) :: done).reverse), opened⟩ := rfl
    rw [run_member hm he (stop_mark (by decide) _), run_mark rfl rfl, hend, Option.bind_some,
      List.reverse_cons, List.map_singleton]
  | @more m members w ws hm hmembers ih =>
    have hcomma : step ⟨.after m.2, .object done (some m.1) :: opened⟩ .comma =
        some ⟨.key ((some m.1, m.2) :: done), opened⟩ := rfl
    have hkey : ∀ key, step ⟨.key ((some m.1, m.2) :: done), opened⟩ (.scalar (.string key)) =
        some ⟨.colon ((some m.1, m.2) :: done) key, opened⟩ := fun _ => rfl
    rw [List.append_assoc, List.cons_append, run_member hm he (stop_mark (by decide) _),
      run_mark rfl rfl, hcomma, Option.bind_some, ih hkey, List.reverse_cons, List.append_assoc,
      List.singleton_append, List.map_cons]

end Reading

open Reading in
theorem ContainerText.parse? (h : ContainerText v w) : parse? w = some v := by
  rw [parse?_eq_run]
  cases h with
  | @array items w before after hitems hbefore hafter =>
    have hbegin : step empty .beginArray = some ⟨.firstItem, []⟩ := rfl
    have hend := run_spaces (p := ⟨.after (.array items), []⟩) hafter []
    rw [List.append_nil, run_nil] at hend
    rw [run_spaces hbefore, run_mark rfl rfl, hbegin, Option.bind_some, run_firstItems hitems, hend]
    rfl
  | @object members w before after hmembers hbefore hafter =>
    have hbegin : step empty .beginObject = some ⟨.firstKey, []⟩ := rfl
    have hend := run_spaces (p := ⟨.after (ofMembers members), []⟩) hafter []
    have hkey : ∀ key, step ⟨.firstKey, []⟩ (.scalar (.string key)) = some ⟨.colon [] key, []⟩ :=
      fun _ => rfl
    rw [List.append_nil, run_nil] at hend
    rw [run_spaces hbefore, run_mark rfl rfl, hbegin, Option.bind_some, run_members hmembers hkey]
    exact congrArg (Option.bind · result?) hend

end MicroLisp.Json
