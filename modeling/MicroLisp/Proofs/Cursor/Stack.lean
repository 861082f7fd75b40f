import MicroLisp.Proofs.Cursor.Within

/-!
# A cursor as one stack of characters

Whatever has been read, put back and skipped, in any order, a cursor behaves as one
stack of characters laid over its text: reading takes the first character of the
content, putting back adds one in front, and going on to the next line leaves what
stands behind the lines taken so far (`stack_after_steps`).
-/

namespace MicroLisp.Cursor
open Text

inductive Step
  | read
  | unread (a : Char)
  | nextLine

def step (c : Cursor) : Step → Cursor
  | .read => c.read.2
  | .unread a => c.unread a
  | .nextLine => c.nextLine

/-- The cursor behind a sequence of steps. -/
def after (c : Cursor) (steps : List Step) : Cursor := steps.foldl step c

variable {text : List Char} {c : Cursor}

/-! ### Any steps -/

theorem Over.step (h : Over text c) (s : Step) : Over text (c.step s) := by
  cases s with
  | read => exact h.read
  | unread a => exact h.unread a
  | nextLine => exact h.within_nextLine.toOver

theorem Over.after (h : Over text c) (steps : List Step) : Over text (c.after steps) := by
  induction steps generalizing c with
  | nil => exact h
  | cons s steps ih => exact ih (h.step s)

theorem over_after (text : List Char) (steps : List Step) :
    Over text ((ofText text).after steps) := (over_start text []).after steps

theorem Over.read_eq_head (h : Over text c) :
    c.read.1 = c.content.head? ∧ c.read.2.content = c.content.tail := by
  rcases hr : c.read with ⟨_ | a, rest⟩
  · obtain ⟨hnil, -⟩ := h.read_eq_none hr
    rw [content_of_read_eq_none hr, hnil]
    exact ⟨rfl, rfl⟩
  · rw [content_read hr]
    exact ⟨rfl, rfl⟩

theorem Over.remaining_of_read_eq_none (h : Over text c) (hr : c.read.1 = none) :
    c.read.2.upcoming.remaining = 0 := by
  have hread : c.read = (none, c.read.2) := Prod.ext hr rfl
  obtain ⟨-, -, hup⟩ := h.read_eq_none hread
  rw [Lines.remaining, hup, List.length_nil]

theorem Over.upcoming_text (h : Over text c) : c.upcoming.text = behindLines text c.line := by
  obtain ⟨taken, htaken, hlen⟩ := h.taken
  have hlines := (Lines.cut_ofText text).behindLines_flatten c.line
  have htext : (Lines.ofText text).waiting.flatten = text := Lines.text_ofText text
  rw [htext, ← htaken, ← hlen, List.drop_left] at hlines
  rw [← hlen, hlines, Lines.text]

/-! ### Nothing but reading -/

/-- The cursor in front of a text, `k` characters further on. -/
def afterReads (text : List Char) (k : Nat) : Cursor :=
  (ofText text).after (List.replicate k .read)

theorem afterReads_succ (text : List Char) (k : Nat) :
    afterReads text (k + 1) = (afterReads text k).read.2 := by
  rw [afterReads, afterReads, List.replicate_succ', after, List.foldl_append]
  rfl

theorem within_afterReads (text : List Char) (k : Nat) : Within text (afterReads text k) := by
  induction k with
  | zero => exact within_start text []
  | succ k ih =>
    rw [afterReads_succ]
    exact ih.read

theorem content_afterReads (text : List Char) (k : Nat) :
    (afterReads text k).content = text.drop k := by
  induction k with
  | zero => exact content_start text []
  | succ k ih =>
    rw [afterReads_succ, (within_afterReads text k).read_eq_head.2, ih, List.tail_drop]

theorem read_afterReads (text : List Char) (k : Nat) : (afterReads text k).read.1 = text[k]? := by
  rw [(within_afterReads text k).read_eq_head.1, content_afterReads, List.head?_drop]

theorem line_afterReads_succ {k : Nat} (hk : k < text.length) :
    (afterReads text (k + 1)).line = lineAt text k := by
  rcases hr : (afterReads text k).read with ⟨_ | a, rest⟩
  · have hnone := read_afterReads text k
    rw [hr, List.getElem?_eq_getElem hk] at hnone
    cases hnone
  · have hline := (within_afterReads text k).line_of_read hr
    have hstart : startOf text (text.drop k) = k := by
      rw [startOf, List.length_drop]
      omega
    rw [content_afterReads, hstart] at hline
    rw [afterReads_succ, hr]
    exact hline

/-- A fresh cursor has its text for content.  Behind any steps the content is read from the front,
and to its end, with no line left when there is nothing more; a character put back comes first;
going on to the next line drops all but the lines behind the current one.  Reading alone delivers
the text, each character on its line. -/
theorem stack_after_steps (text : List Char) (steps : List Step) :
    let c := (ofText text).after steps
    (ofText text).content = text ∧
      c.read.1 = c.content.head? ∧
      c.read.2.content = c.content.tail ∧
      (c.read.1 = none → c.content = [] ∧ c.read.2.upcoming.remaining = 0) ∧
      (∀ a, (c.unread a).content = a :: c.content) ∧
      c.nextLine.content = c.upcoming.text ∧
      c.upcoming.text = behindLines text c.line ∧
      c.line + c.upcoming.remaining = 1 + text.count '\n' ∧
      ∀ k, (afterReads text k).read.1 = text[k]? ∧
        (k < text.length → (afterReads text (k + 1)).line = 1 + (text.take k).count '\n') := by
  intro c
  have h : Over text c := over_after text steps
  obtain ⟨hhead, htail⟩ := h.read_eq_head
  refine ⟨content_start text [], hhead, htail, ?_, fun a => content_unread a c,
    content_nextLine c, h.upcoming_text, h.line, ?_⟩
  · intro hnone
    rw [hhead, List.head?_eq_none_iff] at hnone
    exact ⟨hnone, h.remaining_of_read_eq_none (hhead.trans (by rw [hnone]; rfl))⟩
  · intro k
    exact ⟨read_afterReads text k, line_afterReads_succ⟩

/-- Behind the end of a text, and in front of its second character. -/
theorem stack_after_steps_of_two_lines :
    let c := (ofText ['a', '\n']).after [.read, .nextLine, .read]
    c.read.1 = none ∧ c.content = [] ∧ c.read.2.upcoming.remaining = 0 ∧
      (afterReads ['a', '\n'] 2).line = 1 := by
  obtain ⟨-, -, -, hend, -, -, -, -, hreads⟩ :=
    stack_after_steps ['a', '\n'] [.read, .nextLine, .read]
  have hnone : ((ofText ['a', '\n']).after [.read, .nextLine, .read]).read.1 = none := by
    decide +kernel
  obtain ⟨hcontent, hremaining⟩ := hend hnone
  exact ⟨hnone, hcontent, hremaining, (hreads 1).2 (by decide)⟩

end MicroLisp.Cursor
