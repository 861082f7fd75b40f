import MicroLisp.Proofs.Cursor.Refinement

/-!
# Calls on a run

A run over a text is driven by two calls, `read` and `next`, in any order.  Its
cursor stays within the text, and its line number never falls.
-/

namespace MicroLisp.Lexer

inductive Call
  | read
  | next

def call (l : Lexer) : Call → Lexer
  | .read => l.read.2
  | .next => l.next.2

/-- The run behind a sequence of calls. -/
def after (l : Lexer) (calls : List Call) : Lexer := calls.foldl call l

/-! ### What a call does to the cursor -/

theorem next_of_finished {l : Lexer} (h : l.finished = true) : l.next = (none, l) := by
  simp [next, h]

theorem cursor_next {l : Lexer} (h : l.finished = false) :
    l.next.2.cursor = l.cursor.readToken.2 := by
  simp only [next, h, Bool.false_eq_true, ↓reduceIte]
  rcases l.cursor.readToken with ⟨_ | (_ | t), rest⟩
  · rfl
  · rfl
  · rfl

theorem kept_call {P : Cursor → Prop} (kept : Cursor.Kept P) {l : Lexer}
    (h : P l.cursor) (k : Call) : P (l.call k).cursor := by
  cases k with
  | read => exact kept.readToken h
  | next =>
    show P l.next.2.cursor
    cases hf : l.finished with
    | true =>
      rw [next_of_finished hf]
      exact h
    | false =>
      rw [cursor_next hf]
      exact kept.readToken h

theorem kept_after {P : Cursor → Prop} (kept : Cursor.Kept P) {l : Lexer}
    (h : P l.cursor) (calls : List Call) : P (l.after calls).cursor := by
  induction calls generalizing l with
  | nil => exact h
  | cons k calls ih => exact ih (kept_call kept h k)

theorem within_after (text : String) (calls : List Call) :
    ((ofText text).after calls).cursor.Within text.toList :=
  kept_after (Cursor.kept_within text.toList) (Cursor.within_start text.toList []) calls

theorem line_le_after (l : Lexer) (calls : List Call) : l.line ≤ (l.after calls).line :=
  kept_after (Cursor.kept_line_ge l.line) (Nat.le_refl l.line) calls

end MicroLisp.Lexer
