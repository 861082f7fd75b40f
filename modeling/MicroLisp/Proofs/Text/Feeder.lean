import MicroLisp.Proofs.Text.Handout
import MicroLisp.Text.Feeder

/-!
# What the line feeder hands out

A feeder stands for the lines that wait in it, each with its newline (`view`).  Asked for
the next line it does what these lines do, so that whatever is known of lines handed out
holds of its stacks, read from the top (`stacks_of_text`).
-/

namespace MicroLisp.Feeder

variable {pieces : List (List Char)}

/-- The lines that are split at their newlines, with the newlines put back. -/
def ended : List (List Char) → List (List Char)
  | [] => []
  | l :: ls => (if ls = [] then l else l ++ ['\n']) :: ended ls

def view (f : Feeder) : Lines := ⟨ended f.lines.toList.reverse⟩

/-- The feeder behind `n` requests. -/
def behind (f : Feeder) : Nat → Feeder
  | 0 => f
  | n + 1 => (f.behind n).next.2

/-! ### One request -/

theorem length_ended (ls : List (List Char)) : (ended ls).length = ls.length := by
  induction ls with
  | nil => rfl
  | cons l ls ih => rw [ended, List.length_cons, List.length_cons, ih]

theorem remaining_view (f : Feeder) : f.view.remaining = f.remaining := by
  rw [Lines.remaining, view, length_ended, List.length_reverse, Array.length_toList, remaining]

theorem eq_of_pieces (f : Feeder) (h : f.lines.toList.reverse = pieces) :
    f = ⟨pieces.reverse.toArray⟩ := by
  obtain ⟨lines⟩ := f
  rw [← h, List.reverse_reverse]

/-- The lines behind the feeder go on in step with it. -/
theorem next_view (f : Feeder) : f.view.next = (f.next.1.map List.reverse, f.next.2.view) := by
  generalize h : f.lines.toList.reverse = pieces
  obtain rfl := f.eq_of_pieces h
  -- the pieces front to back: the end of the array is their head
  cases pieces with
  | nil => rfl
  | cons l ls =>
    have hback : (l :: ls).reverse.toArray.back? = some l := by simp
    have hpop : (l :: ls).reverse.toArray.pop = ls.reverse.toArray := by simp
    have hempty : ls.reverse.toArray.isEmpty = true ↔ ls = [] := by simp
    simp only [next, hback, hpop, view, hempty, Lines.next_eq, List.reverse_reverse, ended,
      List.head?_cons, List.tail_cons, Option.map_some]

/-! ### The lines of a text -/

theorem ended_splitOn {ls : List (List Char)} (h : Lines.Cut ls) :
    ended (ls.flatten.splitOn '\n') = ls := by
  induction h with
  | @last l hl =>
    rw [List.flatten_singleton, List.splitOn_eq_singleton hl]
    rfl
  | @more l ls hl hls ih =>
    have hflat : ((l ++ ['\n']) :: ls).flatten = l ++ '\n' :: ls.flatten := by simp
    rw [hflat, List.splitOn_append_cons_self, List.splitOn_eq_singleton hl, List.singleton_append,
      ended, ih, if_neg (List.splitOn_ne_nil _ _)]

theorem view_ofText (text : List Char) : (ofText text).view = Lines.ofText text := by
  have htext : (Lines.ofText text).waiting.flatten = text := Lines.text_ofText text
  have hended := ended_splitOn (Lines.cut_ofText text)
  rw [htext] at hended
  rw [view, ofText, Array.toList_reverse, List.reverse_reverse, hended]

/-! ### Any number of requests -/

theorem view_behind (f : Feeder) (n : Nat) : (f.behind n).view = f.view.behind n := by
  induction n with
  | zero => rfl
  | succ n ih => rw [behind, Lines.behind, ← ih, next_view]

/-- Behind any number of requests as many lines are left as there are in the text itself, and the next
stack is the next one of them, turned round. -/
theorem stacks_of_text (text : List Char) (n : Nat) :
    let f := (ofText text).behind n
    let q := (Lines.ofText text).behind n
    f.remaining = q.remaining ∧ f.next.1 = q.next.1.map List.reverse := by
  intro f q
  have hview : f.view = q := by rw [view_behind, view_ofText]
  refine ⟨?_, ?_⟩
  · rw [← hview, remaining_view]
  · rw [← hview, next_view]
    cases f.next.1 with
    | none => rfl
    | some stack => rw [Option.map_some, Option.map_some, List.reverse_reverse]

end MicroLisp.Feeder
