import MicroLisp.Proofs.Interner.Basic

/-!
# Names and numbers answer each other

Behind any operations on a new interner its names and their numbers stand one to one:
looking up a name and looking up a number are inverse to each other, on the numbers
below the size.  Interning one more name either adds it with the next number, and
leaves every other answer as it was, or leaves the interner as it was
(`operate_bijective`).
-/

namespace MicroLisp.Interner

variable {t : Interner} {name other : String} {i : Nat}

/-! ### Looking up -/

theorem name?_of_find? (h : t.find? name = some i) : t.name? i = some name := by
  by_cases hname : name ∈ t.names
  · rw [find?_of_mem hname] at h
    obtain rfl := Option.some.inj h
    exact List.getElem?_idxOf hname
  · rw [find?_of_not_mem hname] at h
    cases h

theorem WellFormed.find?_of_name? (h : t.WellFormed) (hi : t.name? i = some name) :
    t.find? name = some i := by
  obtain ⟨hlt, hget⟩ := List.getElem?_eq_some_iff.mp hi
  have hplace := h.nodup.idxOf_getElem i hlt
  rw [hget] at hplace
  rw [find?_of_mem (List.mem_of_getElem? hi), hplace]

theorem WellFormed.find?_eq_some_iff (h : t.WellFormed) :
    t.find? name = some i ↔ t.name? i = some name :=
  ⟨name?_of_find?, h.find?_of_name?⟩

theorem name?_isSome_iff : (t.name? i).isSome = true ↔ i < t.size := by
  simp [name?, size]

theorem mem_of_find? (h : t.find? name = some i) : name ∈ t.names :=
  List.mem_of_getElem? (name?_of_find? h)

theorem not_mem_of_find? (h : t.find? name = none) : name ∉ t.names := by
  intro hmem
  rw [find?_of_mem hmem] at h
  cases h

theorem Sound.size_pos (h : t.Sound) : 1 ≤ t.size := by
  obtain ⟨names, hnames⟩ := List.head?_eq_some_iff.mp h.nil
  rw [size, hnames, List.length_cons]
  exact Nat.le_add_left 1 _

theorem Sound.name?_zero (h : t.Sound) : t.name? 0 = some "nil" := by
  rw [name?, ← List.head?_eq_getElem?, h.nil]

theorem capacity_intern (t : Interner) (name : String) : (t.intern name).2.capacity = t.capacity := by
  rw [intern]
  split
  · rfl
  · split
    · rfl
    · rfl

theorem capacity_operate (t : Interner) (operations : List Operation) :
    (t.operate operations).capacity = t.capacity := by
  induction operations generalizing t with
  | nil => rfl
  | cons operation operations ih =>
    cases operation with
    | find name => exact ih t
    | intern name => exact (ih (t.intern name).2).trans (capacity_intern t name)
    | name id => exact ih t

/-! ### One name more -/

/-- The interner with a name put behind the others. -/
def extended (t : Interner) (name : String) : Interner := { t with names := t.names ++ [name] }

theorem size_extended (t : Interner) (name : String) : (t.extended name).size = t.size + 1 := by
  rw [size, extended, List.length_append, List.length_singleton, size]

theorem find?_extended (h : name ∉ t.names) : (t.extended name).find? name = some t.size := by
  have hnone : t.names.findIdx? (· = name) = none := find?_of_not_mem h
  rw [find?, extended, List.findIdx?_append, hnone, Option.none_or, List.findIdx?_singleton,
    if_pos (decide_eq_true rfl), Option.map_some, Nat.zero_add, size]

theorem find?_extended_of_ne (h : other ≠ name) : (t.extended name).find? other = t.find? other := by
  have hlast : [name].findIdx? (· = other) = none := by
    rw [List.findIdx?_singleton, if_neg (by simpa using h.symm)]
  rw [find?, extended, List.findIdx?_append, hlast, Option.map_none, Option.or_none, find?]

theorem name?_extended (t : Interner) (name : String) :
    (t.extended name).name? t.size = some name := List.getElem?_concat_length

theorem name?_extended_of_ne (h : i ≠ t.size) : (t.extended name).name? i = t.name? i := by
  rcases Nat.lt_or_gt_of_ne h with hlt | hgt
  · exact List.getElem?_append_left hlt
  · have hsize := size_extended t name
    have hnone : ∀ u : Interner, u.size ≤ i → u.name? i = none :=
      fun u hu => List.getElem?_eq_none hu
    rw [hnone (t.extended name) (by omega), hnone t (by omega)]

/-- A name gets a number exactly if it has one or there is room. -/
theorem exists_ok_iff : (∃ id, (t.intern name).1 = .ok id) ↔
    (t.find? name).isSome = true ∨ t.size < t.capacity := by
  by_cases hname : name ∈ t.names
  · rw [intern_of_mem hname, find?_of_mem hname]
    exact ⟨fun _ => Or.inl rfl, fun _ => ⟨_, rfl⟩⟩
  · rw [find?_of_not_mem hname]
    by_cases hroom : t.size < t.capacity
    · rw [intern_of_room hname hroom]
      exact ⟨fun _ => Or.inr hroom, fun _ => ⟨_, rfl⟩⟩
    · rw [intern_of_full hname (Nat.le_of_not_lt hroom)]
      simp [hroom]

/-- Names and numbers behind any operations on a new interner, and what interning one more name
answers and leaves behind. -/
theorem operate_bijective (capacity : Nat) (operations : List Operation) :
    let t := (withCapacity capacity).operate operations
    (t.names.Nodup ∧ t.name? 0 = some "nil" ∧ t.capacity = max capacity 1 ∧
      1 ≤ t.size ∧ t.size ≤ t.capacity ∧
      (∀ i, (t.name? i).isSome = true ↔ i < t.size) ∧
      ∀ name i, t.find? name = some i ↔ t.name? i = some name) ∧
    ∀ name,
      ((∃ id, (t.intern name).1 = .ok id) ↔
        (t.find? name).isSome = true ∨ t.size < t.capacity) ∧
      (∀ id, t.find? name = some id → t.intern name = (.ok id, t)) ∧
      (t.find? name = none → t.size = t.capacity →
        t.intern name = (.error (.internerFull t.capacity), t)) ∧
      (t.find? name = none → t.size < t.capacity →
        let next := (t.intern name).2
        (t.intern name).1 = .ok t.size ∧ next.size = t.size + 1 ∧ next.capacity = t.capacity ∧
          next.find? name = some t.size ∧ next.name? t.size = some name ∧
          (∀ other, other ≠ name → next.find? other = t.find? other) ∧
          ∀ i, i ≠ t.size → next.name? i = t.name? i) := by
  intro t
  have h : t.Sound := sound_operate capacity operations
  have hcapacity : t.capacity = max capacity 1 := capacity_operate (withCapacity capacity) operations
  refine ⟨⟨h.nodup, h.name?_zero, hcapacity, h.size_pos, h.size_le, fun i => name?_isSome_iff,
    fun name i => h.find?_eq_some_iff⟩, ?_⟩
  intro name
  refine ⟨exists_ok_iff, ?_, ?_, ?_⟩
  · intro id hid
    have hmem := mem_of_find? hid
    rw [find?_of_mem hmem] at hid
    rw [intern_of_mem hmem, Option.some.inj hid]
  · intro hnone hfull
    exact intern_of_full (not_mem_of_find? hnone) (Nat.le_of_eq hfull.symm)
  · intro hnone hroom next
    have hmem := not_mem_of_find? hnone
    have hintern : t.intern name = (.ok t.size, t.extended name) := intern_of_room hmem hroom
    have hnext : next = t.extended name := congrArg Prod.snd hintern
    rw [hintern, hnext]
    exact ⟨rfl, size_extended t name, rfl, find?_extended hmem, name?_extended t name,
      fun other hother => find?_extended_of_ne hother, fun i hi => name?_extended_of_ne hi⟩

/-- Room for one name besides `nil`: it is added, found again, and then there is none for another.
Without any room asked for, `nil` fills the interner alone. -/
theorem operate_bijective_full :
    let t := (withCapacity 2).operate [.find "a", .name 1]
    let u := (withCapacity 2).operate [.intern "a", .name 1]
    ((t.intern "a").1 = .ok 1 ∧ (t.intern "a").2.find? "a" = some 1 ∧
        (t.intern "a").2.find? "nil" = t.find? "nil") ∧
      u.intern "a" = (.ok 1, u) ∧
      u.intern "b" = (.error (.internerFull 2), u) ∧
      (withCapacity 0).intern "b" = (.error (.internerFull 1), withCapacity 0) := by
  intro t u
  obtain ⟨-, ht⟩ := operate_bijective 2 [.find "a", .name 1]
  obtain ⟨-, hu⟩ := operate_bijective 2 [.intern "a", .name 1]
  obtain ⟨-, hnil⟩ := operate_bijective 0 []
  obtain ⟨-, -, -, hadded⟩ := ht "a"
  obtain ⟨-, hfound, -, -⟩ := hu "a"
  obtain ⟨-, -, hrefused, -⟩ := hu "b"
  obtain ⟨-, -, hrefused', -⟩ := hnil "b"
  obtain ⟨hanswer, -, -, hfind, -, hothers, -⟩ := hadded rfl (by decide)
  exact ⟨⟨hanswer, hfind, hothers "nil" (by decide)⟩, hfound 1 rfl, hrefused rfl rfl,
    hrefused' rfl rfl⟩

end MicroLisp.Interner
