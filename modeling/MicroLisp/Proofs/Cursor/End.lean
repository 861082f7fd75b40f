import MicroLisp.Proofs.Cursor.Stack

/-!
# The end of a text

At the end nothing is at hand and no line is left.  Reading finds nothing there and
changes nothing, until a character is put back (`Exhausted.after`).  Having nothing to
read is not quite the same: when the last line of the text is empty, a cursor can stand
in front of it, and only the next attempt to read takes it there (`atEnd_up_to_last_line`).
-/

namespace MicroLisp.Cursor
open Text

variable {text : List Char} {c : Cursor}

/-- Nothing is at hand and no line is left, not even an empty one. -/
structure Exhausted (c : Cursor) : Prop where
  pending : c.pending = []
  waiting : c.upcoming.waiting = []

/-- Nothing is at hand and one line is left, which is empty. -/
structure BeforeEmptyLine (c : Cursor) : Prop where
  pending : c.pending = []
  waiting : c.upcoming.waiting = [[]]

/-! ### At the end -/

theorem Exhausted.content (h : c.Exhausted) : c.content = [] := by
  rw [Cursor.content, h.pending, Lines.text, h.waiting]
  rfl

theorem Exhausted.read (h : c.Exhausted) : c.read = (none, c) := by
  obtain ⟨p, ⟨w⟩, n, j⟩ := c
  obtain ⟨rfl, rfl⟩ : p = [] ∧ w = [] := ⟨h.pending, h.waiting⟩
  rfl

theorem Exhausted.nextLine (h : c.Exhausted) : c.nextLine = c := by
  obtain ⟨p, ⟨w⟩, n, j⟩ := c
  obtain ⟨rfl, rfl⟩ : p = [] ∧ w = [] := ⟨h.pending, h.waiting⟩
  rfl

theorem atEnd_iff : c.atEnd = true ↔ c.Exhausted := by
  simp only [atEnd, Bool.and_eq_true, List.isEmpty_iff, decide_eq_true_eq, Lines.remaining,
    List.length_eq_zero_iff]
  exact ⟨fun h => ⟨h.1, h.2⟩, fun h => ⟨h.pending, h.waiting⟩⟩

theorem atEnd_unread (a : Char) (c : Cursor) : (c.unread a).atEnd = false := rfl

theorem Exhausted.after (h : c.Exhausted) {steps : List Step}
    (hsteps : ∀ a, Step.unread a ∉ steps) : c.after steps = c := by
  induction steps with
  | nil => rfl
  | cons s steps ih =>
    have hrest := ih fun a ha => hsteps a (List.mem_cons_of_mem s ha)
    have hstep : c.step s = c := by
      cases s with
      | read => exact congrArg Prod.snd h.read
      | unread a => exact absurd List.mem_cons_self (hsteps a)
      | nextLine => exact h.nextLine
    show (c.step s).after steps = c
    rw [hstep, hrest]

theorem Over.exhausted_of_read (h : Over text c) (hr : c.read.1 = none) : c.read.2.Exhausted := by
  obtain ⟨-, hpending, hwaiting⟩ := h.read_eq_none (Prod.ext hr rfl : c.read = (none, c.read.2))
  exact ⟨hpending, hwaiting⟩

/-! ### In front of an empty last line -/

theorem BeforeEmptyLine.read (h : c.BeforeEmptyLine) :
    c.read.1 = none ∧ c.read.2.line = c.line + 1 ∧ c.read.2.Exhausted := by
  obtain ⟨p, ⟨w⟩, n, j⟩ := c
  obtain ⟨rfl, rfl⟩ : p = [] ∧ w = [[]] := ⟨h.pending, h.waiting⟩
  exact ⟨rfl, rfl, ⟨rfl, rfl⟩⟩

/-- Every line but the last one holds its newline, so nothing else can be left that is empty. -/
theorem Over.beforeEmptyLine_iff (h : Over text c) :
    c.BeforeEmptyLine ↔ c.content = [] ∧ c.atEnd = false := by
  constructor
  · intro hc
    refine ⟨?_, ?_⟩
    · rw [Cursor.content, hc.pending, Lines.text, hc.waiting]
      rfl
    · rw [atEnd, Lines.remaining, hc.waiting]
      simp
  · rintro ⟨hcontent, hend⟩
    obtain ⟨hpending, hflat⟩ := List.append_eq_nil_iff.mp hcontent
    have hne : c.upcoming.waiting ≠ [] := by
      intro hwaiting
      rw [atEnd_iff.mpr ⟨hpending, hwaiting⟩] at hend
      cases hend
    exact ⟨hpending, (h.cut_upcoming hne).eq_of_flatten hflat⟩

theorem Over.last_line_empty (h : Over text c) (hc : c.BeforeEmptyLine) :
    text = [] ∨ text.getLast? = some '\n' := by
  obtain ⟨taken, htaken⟩ := h.upcoming
  obtain ⟨l, hlast, -, hempty⟩ := (Lines.cut_ofText text).getLast?
  have htext : (Lines.ofText text).waiting.flatten = text := Lines.text_ofText text
  rw [← htaken, hc.waiting, List.getLast?_concat] at hlast
  rw [htext] at hempty
  exact hempty.mp (Option.some.inj hlast).symm

/-- Reading such a text to its end leads in front of its empty last line. -/
theorem beforeEmptyLine_afterReads (h : text = [] ∨ text.getLast? = some '\n') :
    (afterReads text text.length).BeforeEmptyLine := by
  have hw := within_afterReads text text.length
  refine hw.beforeEmptyLine_iff.mpr ⟨?_, ?_⟩
  · rw [content_afterReads, List.drop_length]
  rcases h with rfl | hlast
  · rfl
  · obtain ⟨front, rfl⟩ := List.getLast?_eq_some_iff.mp hlast
    have hlength : front.length < (front ++ ['\n']).length := by simp
    have hline := line_afterReads_succ hlength
    have htotal := hw.line
    rw [List.length_append, List.length_singleton] at htotal ⊢
    -- the newline is on the line that is current, so one more line is left
    rw [hline, lineAt, List.take_left, lineCount, List.count_append, List.count_singleton_self]
      at htotal
    rw [atEnd, Bool.and_eq_false_iff, decide_eq_false_iff_not]
    omega

/-! ### The end told exactly -/

theorem atEnd_up_to_last_line (text : List Char) (steps : List Step) :
    let c := (ofText text).after steps
    let lastEmpty := text = [] ∨ text.getLast? = some '\n'
    (c.atEnd = true → c.read = (none, c) ∧
      (∀ later, (∀ a, Step.unread a ∉ later) → c.after later = c) ∧
      ∀ a, (c.unread a).atEnd = false) ∧
      (c.read.1 = none → c.read.2.atEnd = true) ∧
      (c.content = [] ∧ c.atEnd = false ↔ c.pending = [] ∧ c.upcoming.waiting = [[]]) ∧
      (c.content = [] ∧ c.atEnd = false →
        lastEmpty ∧ c.read.1 = none ∧ c.read.2.line = c.line + 1 ∧ c.read.2.atEnd = true) ∧
      (lastEmpty → (afterReads text text.length).content = [] ∧
        (afterReads text text.length).atEnd = false) := by
  intro c lastEmpty
  have h : Over text c := over_after text steps
  refine ⟨?_, ?_, ?_, ?_, ?_⟩
  · intro hend
    have hexhausted := atEnd_iff.mp hend
    exact ⟨hexhausted.read, fun later hlater => hexhausted.after hlater, fun a => atEnd_unread a c⟩
  · intro hr
    exact atEnd_iff.mpr (h.exhausted_of_read hr)
  · rw [← h.beforeEmptyLine_iff]
    exact ⟨fun hc => ⟨hc.pending, hc.waiting⟩, fun hc => ⟨hc.1, hc.2⟩⟩
  · intro hgap
    have hc := h.beforeEmptyLine_iff.mpr hgap
    obtain ⟨hnone, hline, hend⟩ := hc.read
    exact ⟨h.last_line_empty hc, hnone, hline, atEnd_iff.mpr hend⟩
  · intro hlast
    have hreads := beforeEmptyLine_afterReads hlast
    exact (within_afterReads text text.length).beforeEmptyLine_iff.mp hreads

/-- Behind the newline of a text, and once more behind its end, with a character put back in between. -/
theorem atEnd_up_to_last_line_of_newline :
    let c := (ofText ['a', '\n']).after [.nextLine, .read, .read]
    let d := (ofText ['a', '\n']).after [.nextLine, .read, .read, .nextLine, .unread 'b', .read]
    (c.read.1 = none ∧ c.read.2.line = c.line + 1 ∧ c.read.2.atEnd = true) ∧
      (d.read = (none, d) ∧ d.after [.nextLine, .read] = d) ∧
      (afterReads ['a', '\n'] 2).atEnd = false := by
  intro c d
  obtain ⟨-, hnone, -, hgap, hreads⟩ :=
    atEnd_up_to_last_line ['a', '\n'] [.nextLine, .read, .read]
  obtain ⟨hend, -⟩ := atEnd_up_to_last_line ['a', '\n']
    [.nextLine, .read, .read, .nextLine, .unread 'b', .read]
  obtain ⟨-, hread, hline, -⟩ := hgap (by decide +kernel)
  obtain ⟨hd, hstays, -⟩ := hend (by decide +kernel)
  exact ⟨⟨hread, hline, hnone hread⟩, ⟨hd, hstays _ (by simp)⟩, (hreads (by decide)).2⟩

end MicroLisp.Cursor
