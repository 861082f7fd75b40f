import MicroLisp.Proofs.Interner.Basic

/-!
# Histories of an interner

What an interner holds behind a sequence of names is told by the names alone: the
names it held and the new ones, each where it came first, as many as there is room
for (`internAll_eq`).  Each call has been answered from that last state, however
early it came.
-/

namespace MicroLisp

theorem eraseDups_of_nodup {α : Type} [DecidableEq α] {l : List α} (h : l.Nodup) :
    l.eraseDups = l := by
  induction l with
  | nil => rfl
  | cons a l ih =>
    obtain ⟨ha, hl⟩ := List.nodup_cons.mp h
    have hfilter : l.filter (fun b => !b == a) = l := by
      rw [List.filter_eq_self]
      intro b hb
      have hne : b ≠ a := fun he => ha (he ▸ hb)
      simp [hne]
    rw [List.eraseDups_cons, hfilter, ih hl]

theorem nodup_eraseDups {α : Type} [DecidableEq α] (l : List α) : l.eraseDups.Nodup := by
  induction hn : l.length using Nat.strongRecOn generalizing l with
  | _ n ih =>
    cases l with
    | nil => exact List.nodup_nil
    | cons a l =>
      have hlt : (l.filter fun b => !b == a).length < n :=
        hn ▸ Nat.lt_succ_of_le (List.length_filter_le _ l)
      rw [List.eraseDups_cons, List.nodup_cons]
      refine ⟨?_, ih _ hlt _ rfl⟩
      simp

namespace Interner

variable {t : Interner} {name : String}

/-- The interner behind a sequence of names: as many of the first occurrences as it can hold. -/
def after (t : Interner) (names : List String) : Interner :=
  { t with names := (t.names ++ names).eraseDups.take t.capacity }

/-- The answer for a name as the interner stands: its place, or that there is no room. -/
def answer (t : Interner) (name : String) : Except Error Nat :=
  if name ∈ t.names then .ok (t.names.idxOf name) else .error (.internerFull t.capacity)

/-! ### What a history adds -/

theorem WellFormed.after_eq (h : t.WellFormed) (names : List String) :
    (t.after names).names =
      (t.names ++ (names.removeAll t.names).eraseDups).take t.capacity := by
  rw [after, List.eraseDups_append, eraseDups_of_nodup h.nodup]

theorem WellFormed.prefix_after (h : t.WellFormed) (names : List String) :
    t.names <+: (t.after names).names := by
  rw [h.after_eq, List.take_append, List.take_of_length_le h.size_le]
  exact List.prefix_append _ _

theorem wellFormed_after (t : Interner) (names : List String) : (t.after names).WellFormed where
  nodup := List.Nodup.sublist (List.take_sublist _ _) (nodup_eraseDups _)
  size_le := List.length_take_le _ _

theorem WellFormed.after_nil (h : t.WellFormed) : t.after [] = t := by
  rw [after, List.append_nil, eraseDups_of_nodup h.nodup, List.take_of_length_le h.size_le]

theorem after_of_mem (hname : name ∈ t.names) (names : List String) :
    t.after (name :: names) = t.after names := by
  have hskip : (name :: names).removeAll t.names = names.removeAll t.names := by
    rw [List.cons_removeAll, if_neg (by simp [hname])]
  rw [after, after, List.eraseDups_append, hskip, ← List.eraseDups_append]

theorem WellFormed.after_of_full (h : t.WellFormed) (hfull : t.capacity ≤ t.size)
    (names : List String) : t.after names = t := by
  have hnames : (t.after names).names = t.names := by
    rw [h.after_eq, List.take_append_of_le_length hfull, List.take_of_length_le h.size_le]
  exact congrArg (fun held => ({ t with names := held } : Interner)) hnames

theorem after_cons (t : Interner) (name : String) (names : List String) :
    ({ t with names := t.names ++ [name] } : Interner).after names = t.after (name :: names) := by
  rw [after, after, List.append_assoc, List.singleton_append]

/-! ### Early answers in the last state -/

/-- A name that is held keeps its place, whatever follows. -/
theorem WellFormed.answer_after (h : t.WellFormed) (hname : name ∈ t.names)
    (names : List String) : (t.after names).answer name = .ok (t.names.idxOf name) := by
  obtain ⟨added, hadded⟩ := h.prefix_after names
  rw [answer, ← hadded, if_pos (List.mem_append_left added hname), List.idxOf_append,
    if_pos hname]

theorem answer_of_not_mem (hname : name ∉ t.names) :
    t.answer name = .error (.internerFull t.capacity) := if_neg hname

theorem internAll_cons (t : Interner) (name : String) (names : List String) :
    t.internAll (name :: names) =
      ((t.intern name).1 :: ((t.intern name).2.internAll names).1,
        ((t.intern name).2.internAll names).2) := rfl

theorem internAll_eq (h : t.WellFormed) (names : List String) :
    t.internAll names = (names.map (t.after names).answer, t.after names) := by
  induction names generalizing t with
  | nil => rw [internAll, List.map_nil, h.after_nil]
  | cons name names ih =>
    by_cases hname : name ∈ t.names
    · rw [internAll_cons, intern_of_mem hname, ih h, List.map_cons, after_of_mem hname,
        h.answer_after hname]
    · by_cases hfull : t.capacity ≤ t.size
      · rw [internAll_cons, intern_of_full hname hfull, ih h, List.map_cons,
          h.after_of_full hfull, h.after_of_full hfull, answer_of_not_mem hname]
      · -- the name goes to the end, where all that follows leaves it
        have hroom : t.size < t.capacity := Nat.lt_of_not_le hfull
        have hadded := h.append hname hroom
        have hmem : name ∈ t.names ++ [name] :=
          List.mem_append_right t.names (List.mem_singleton_self name)
        have hanswer := hadded.answer_after hmem names
        have hplace : (t.names ++ [name]).idxOf name = t.size := by
          rw [List.idxOf_append, if_neg hname, List.idxOf_cons_self, Nat.zero_add, size]
        rw [hplace, after_cons] at hanswer
        rw [internAll_cons, intern_of_room hname hroom, ih hadded, List.map_cons, after_cons,
          hanswer]

theorem internAll_append (t : Interner) (names more : List String) :
    t.internAll (names ++ more) =
      ((t.internAll names).1 ++ ((t.internAll names).2.internAll more).1,
        ((t.internAll names).2.internAll more).2) := by
  induction names generalizing t with
  | nil => rfl
  | cons name names ih =>
    rw [List.cons_append, internAll_cons, ih, internAll_cons, List.cons_append]

theorem eq_of_answer_eq_ok {other : String} {id : Nat} (h : t.answer name = .ok id)
    (hother : t.answer other = .ok id) : name = other := by
  have hplace : ∀ {n : String}, t.answer n = .ok id → t.names[id]? = some n := by
    intro n hn
    unfold answer at hn
    split at hn
    · next hmem =>
      obtain rfl := Except.ok.inj hn
      have hlt := List.idxOf_lt_length_iff.mpr hmem
      rw [List.getElem?_eq_getElem hlt, List.getElem_idxOf]
    · cases hn
  have hsome := hplace h
  rw [hplace hother] at hsome
  exact (Option.some.inj hsome).symm

/-! ### Answers by their place -/

theorem WellFormed.answers_getElem? (h : t.WellFormed) (names : List String) (i : Nat) :
    (t.internAll names).1[i]? = names[i]?.map (t.after names).answer := by
  rw [internAll_eq h, List.getElem?_map]

/-- Of the names that have a number no two have the same one. -/
theorem WellFormed.same_number_iff (h : t.WellFormed) {names : List String} {i j id : Nat}
    (hi : (t.internAll names).1[i]? = some (.ok id)) :
    (t.internAll names).1[j]? = some (.ok id) ↔ names[j]? = names[i]? := by
  rw [h.answers_getElem?] at hi ⊢
  constructor
  · intro hj
    obtain ⟨name, hname, hanswer⟩ := Option.map_eq_some_iff.mp hi
    obtain ⟨other, hother, hanswer'⟩ := Option.map_eq_some_iff.mp hj
    rw [hname, hother, eq_of_answer_eq_ok hanswer hanswer']
  · intro heq
    rw [heq, hi]

/-- A name that is refused leaves no trace. -/
theorem WellFormed.internAll_refused (h : t.WellFormed) {front back : List String} {name : String}
    {e : Error} (he : (t.internAll (front ++ name :: back)).1[front.length]? = some (.error e)) :
    let before := (t.internAll front).2
    let rest := before.internAll back
    before.intern name = (.error e, before) ∧ e = .internerFull t.capacity ∧
      t.internAll (front ++ name :: back) = ((t.internAll front).1 ++ .error e :: rest.1, rest.2) ∧
      t.internAll (front ++ back) = ((t.internAll front).1 ++ rest.1, rest.2) := by
  intro before rest
  have hlength : (t.internAll front).1.length = front.length := by
    rw [internAll_eq h, List.length_map]
  have hcapacity : before.capacity = t.capacity := by
    show (t.internAll front).2.capacity = t.capacity
    rw [internAll_eq h]
    rfl
  have hanswer : (before.intern name).1 = .error e := by
    rw [internAll_append, internAll_cons, ← hlength, List.getElem?_append_right (Nat.le_refl _),
      Nat.sub_self, List.getElem?_cons_zero] at he
    exact Option.some.inj he
  have hrefused := intern_refused hanswer
  have he' : e = .internerFull t.capacity := by
    rw [hrefused, hcapacity] at hanswer
    exact (Except.error.inj hanswer).symm
  rw [hcapacity, ← he'] at hrefused
  refine ⟨hrefused, he', ?_, internAll_append t front back⟩
  rw [internAll_append, internAll_cons, hrefused]

/-- What a new interner holds behind a history: `nil` and the names, each where it came first, as many
as there is room for. -/
def held (capacity : Nat) (names : List String) : List String :=
  ("nil" :: names).eraseDups.take (max capacity 1)

/-- A new interner behind any history: what it holds, the answer of each call, and from these that
equal names get equal answers, different names different numbers, and that both the answers and
the places of the names stand for good. -/
theorem internAll_withCapacity (capacity : Nat) (names : List String) :
    (withCapacity capacity).internAll names =
        (names.map fun name =>
            if name ∈ held capacity names then .ok ((held capacity names).idxOf name)
            else .error (.internerFull (max capacity 1)),
          ⟨held capacity names, max capacity 1⟩) ∧
      let answers := ((withCapacity capacity).internAll names).1
      (∀ i j : Nat, names[i]? = names[j]? → answers[i]? = answers[j]?) ∧
        (∀ i j id : Nat, answers[i]? = some (.ok id) → answers[j]? = some (.ok id) →
          names[i]? = names[j]?) ∧
        ∀ more : List String,
          answers <+: ((withCapacity capacity).internAll (names ++ more)).1 ∧
            held capacity names <+:
              ((withCapacity capacity).internAll (names ++ more)).2.names := by
  have hrun : (withCapacity capacity).internAll names =
      (names.map ((withCapacity capacity).after names).answer,
        (withCapacity capacity).after names) :=
    internAll_eq (wellFormed_withCapacity capacity) names
  refine ⟨hrun, ?_⟩
  intro answers
  have hanswers : answers = names.map ((withCapacity capacity).after names).answer :=
    congrArg Prod.fst hrun
  refine ⟨?_, ?_, ?_⟩
  · intro i j heq
    rw [hanswers, List.getElem?_map, List.getElem?_map, heq]
  · intro i j id hi hj
    rw [hanswers, List.getElem?_map, Option.map_eq_some_iff] at hi hj
    obtain ⟨name, hname, hanswer⟩ := hi
    obtain ⟨other, hother, hanswer'⟩ := hj
    rw [hname, hother, eq_of_answer_eq_ok hanswer hanswer']
  · intro more
    have hsound := wellFormed_after (withCapacity capacity) names
    rw [internAll_append]
    refine ⟨List.prefix_append _ _, ?_⟩
    rw [hrun, internAll_eq hsound]
    exact hsound.prefix_after more

/-- Room for one name besides `nil`: the second name is refused each time, the first one is not. -/
theorem internAll_withCapacity_two :
    (withCapacity 2).internAll ["a", "b", "a", "nil", "b"] =
      ([.ok 1, .error (.internerFull 2), .ok 1, .ok 0, .error (.internerFull 2)],
        ⟨["nil", "a"], 2⟩) ∧
      ((withCapacity 2).internAll ["a", "b", "a", "nil", "b"]).1[1]? =
        ((withCapacity 2).internAll ["a", "b", "a", "nil", "b"]).1[4]? := by
  obtain ⟨hrun, hequal, -, -⟩ := internAll_withCapacity 2 ["a", "b", "a", "nil", "b"]
  have hheld : held 2 ["a", "b", "a", "nil", "b"] = ["nil", "a"] := by decide +kernel
  rw [hheld] at hrun
  exact ⟨hrun, hequal 1 4 rfl⟩

end Interner
end MicroLisp
