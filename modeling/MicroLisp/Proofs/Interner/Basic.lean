import Mathlib.Data.List.Nodup
import MicroLisp.Interner

/-!
# Interners that hold each name once

An interner holds each of its names once and no more names than it can
(`WellFormed`).  Interning a name then does one of three things: a name that is
held is answered with its place, a new name is refused when there is no room, and
otherwise it is put behind the others.  Behind any operations on a new interner it
still holds each name once, and `nil` in front (`sound_operate`).
-/

namespace MicroLisp.Interner

variable {t : Interner} {name : String}

structure WellFormed (t : Interner) : Prop where
  nodup : t.names.Nodup
  size_le : t.size ≤ t.capacity

theorem wellFormed_withCapacity (capacity : Nat) : (withCapacity capacity).WellFormed where
  nodup := List.nodup_singleton "nil"
  size_le := Nat.le_max_right capacity 1

theorem find?_of_mem (h : name ∈ t.names) : t.find? name = some (t.names.idxOf name) := by
  have hlt := List.idxOf_lt_length_iff.mpr h
  rw [find?, List.findIdx?_eq_some_iff_findIdx_eq]
  exact ⟨hlt, rfl⟩

theorem find?_of_not_mem (h : name ∉ t.names) : t.find? name = none := by
  rw [find?, List.findIdx?_eq_none_iff]
  intro held hheld
  have hne : held ≠ name := fun he => h (he ▸ hheld)
  simp [hne]

/-! ### Interning one name -/

theorem intern_of_mem (h : name ∈ t.names) : t.intern name = (.ok (t.names.idxOf name), t) := by
  rw [intern, find?_of_mem h]

theorem intern_of_full (h : name ∉ t.names) (hfull : t.capacity ≤ t.size) :
    t.intern name = (.error (.internerFull t.capacity), t) := by
  rw [intern, find?_of_not_mem h]
  exact if_pos hfull

theorem intern_of_room (h : name ∉ t.names) (hroom : t.size < t.capacity) :
    t.intern name = (.ok t.size, { t with names := t.names ++ [name] }) := by
  rw [intern, find?_of_not_mem h]
  exact if_neg (Nat.not_le_of_lt hroom)

theorem intern_refused {e : Error} (h : (t.intern name).1 = .error e) :
    t.intern name = (.error (.internerFull t.capacity), t) := by
  by_cases hname : name ∈ t.names
  · rw [intern_of_mem hname] at h
    cases h
  · by_cases hfull : t.capacity ≤ t.size
    · exact intern_of_full hname hfull
    · rw [intern_of_room hname (Nat.lt_of_not_le hfull)] at h
      cases h

theorem WellFormed.append (h : t.WellFormed) (hname : name ∉ t.names)
    (hroom : t.size < t.capacity) :
    ({ t with names := t.names ++ [name] } : Interner).WellFormed where
  nodup := by
    rw [List.nodup_append]
    refine ⟨h.nodup, List.nodup_singleton name, ?_⟩
    intro held hheld last hlast heq
    rw [List.mem_singleton] at hlast
    exact hname (hlast ▸ heq ▸ hheld)
  size_le := by
    show (t.names ++ [name]).length ≤ t.capacity
    rw [List.length_append, List.length_singleton]
    exact hroom

/-! ### Any operations -/

inductive Operation
  | find (name : String)
  | intern (name : String)
  | name (id : Nat)

/-- Looking up a name or a number changes nothing. -/
def step (t : Interner) : Operation → Interner
  | .intern name => (t.intern name).2
  | .find _ | .name _ => t

def operate (t : Interner) (operations : List Operation) : Interner := operations.foldl step t

structure Sound (t : Interner) : Prop extends WellFormed t where
  nil : t.names.head? = some "nil"

theorem Sound.intern (h : t.Sound) (name : String) : (t.intern name).2.Sound := by
  by_cases hname : name ∈ t.names
  · rw [intern_of_mem hname]
    exact h
  · by_cases hfull : t.capacity ≤ t.size
    · rw [intern_of_full hname hfull]
      exact h
    · have hroom := Nat.lt_of_not_le hfull
      rw [intern_of_room hname hroom]
      refine ⟨h.append hname hroom, ?_⟩
      rw [List.head?_append, h.nil]
      rfl

theorem Sound.operate (h : t.Sound) (operations : List Operation) : (t.operate operations).Sound := by
  induction operations generalizing t with
  | nil => exact h
  | cons operation operations ih =>
    cases operation with
    | find name => exact ih h
    | intern name => exact ih (h.intern name)
    | name id => exact ih h

theorem sound_operate (capacity : Nat) (operations : List Operation) :
    ((withCapacity capacity).operate operations).Sound :=
  Sound.operate ⟨wellFormed_withCapacity capacity, rfl⟩ operations

theorem Sound.idxOf_nil (h : t.Sound) : "nil" ∈ t.names ∧ t.names.idxOf "nil" = 0 := by
  obtain ⟨names, hnames⟩ := List.head?_eq_some_iff.mp h.nil
  rw [hnames]
  exact ⟨List.mem_cons_self, List.idxOf_cons_self⟩

end MicroLisp.Interner
