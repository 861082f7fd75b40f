/-!
# Lines of a text

A text is cut behind each newline, so that every line but the last one ends in
its newline and the lines put together are the text again (`text_ofText`).  The
last line never holds a newline; it is empty when the text is empty or ends in
one.
-/

namespace MicroLisp

/-- Lines waiting to be taken, the first one in front. -/
structure Lines where
  waiting : List (List Char)
deriving DecidableEq

namespace Lines

/-- Puts one character in front of a text that is already cut into lines. -/
def extend (c : Char) : List (List Char) → List (List Char)
  | [] => [[c]]
  | l :: ls => if c = '\n' then [c] :: l :: ls else (c :: l) :: ls

/-- The lines of a text, each with its newline. -/
def ofText (text : List Char) : Lines := ⟨text.foldr extend [[]]⟩

/-- What the waiting lines hold, put together. -/
def text (q : Lines) : List Char := q.waiting.flatten

/-- Number of lines that wait. -/
def remaining (q : Lines) : Nat := q.waiting.length

/-- Takes the first waiting line. -/
def pop? (q : Lines) : Option (List Char × Lines) :=
  match q.waiting with
  | [] => none
  | l :: ls => some (l, ⟨ls⟩)

/-! ### The text behind the lines -/

theorem flatten_extend (c : Char) (ls : List (List Char)) :
    (extend c ls).flatten = c :: ls.flatten := by
  cases ls with
  | nil => rfl
  | cons l ls =>
    simp only [extend]
    split <;> rfl

theorem text_ofText (t : List Char) : (ofText t).text = t := by
  induction t with
  | nil => rfl
  | cons c t ih =>
    simp only [ofText, text, List.foldr_cons, flatten_extend] at ih ⊢
    rw [ih]

theorem text_of_pop? {q rest : Lines} {l : List Char} (h : q.pop? = some (l, rest)) :
    q.text = l ++ rest.text := by
  obtain ⟨_ | ⟨m, ms⟩⟩ := q
  · simp [pop?] at h
  · simp only [pop?, Option.some.injEq, Prod.mk.injEq] at h
    obtain ⟨rfl, rfl⟩ := h
    rfl

theorem text_of_pop?_eq_none {q : Lines} (h : q.pop? = none) : q.text = [] := by
  obtain ⟨_ | ⟨m, ms⟩⟩ := q
  · rfl
  · simp [pop?] at h

end Lines
end MicroLisp
