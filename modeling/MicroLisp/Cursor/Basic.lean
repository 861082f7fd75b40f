import MicroLisp.Event
import MicroLisp.Text.Lines

/-!
# Cursor

A cursor stands somewhere in a text.  It holds the characters of the current line
that are still unread and the lines that have not been touched; a line is only
taken when a character is asked for and none is at hand.  Characters can be put
back at any time, in front of everything else.  What is left to read is the
cursor's `content`, and reading removes its first character (`content_read`).
The cursor also keeps the journal of the run.
-/

namespace MicroLisp

/-- A position in a text. -/
structure Cursor where
  /-- Unread characters of the current line and characters put back, the next one first. -/
  pending : List Char
  /-- The lines behind the current one. -/
  upcoming : Lines
  /-- How many lines have been taken so far, which is the number of the current line. -/
  line : Nat
  /-- What has happened so far, the latest event first. -/
  journal : List Event

namespace Cursor

/-- The cursor in front of a text, with the events that came before it. -/
def start (text : List Char) (journal : List Event) : Cursor :=
  ⟨[], Lines.ofText text, 0, journal⟩

def ofText (text : List Char) : Cursor := start text []

/-- Everything that is left to read. -/
def content (c : Cursor) : List Char := c.pending ++ c.upcoming.text

/-- True when nothing is pending and no line is left.  An empty last line that has
not been taken yet counts as a line. -/
def atEnd (c : Cursor) : Bool := c.pending.isEmpty && c.upcoming.remaining = 0

def note (e : Event) (c : Cursor) : Cursor := { c with journal := e :: c.journal }

/-- Goes on to the next line, whatever is pending; without one, drops what is pending. -/
def nextLine (c : Cursor) : Cursor :=
  match c.upcoming.pop? with
  | some (l, rest) => note (.lineLoaded (c.line + 1) l.length) ⟨l, rest, c.line + 1, c.journal⟩
  | none => { c with pending := [] }

def pop (c : Cursor) : Option Char × Cursor :=
  match c.pending with
  | [] => (none, c)
  | a :: rest => (some a, { c with pending := rest })

/-- Reads the next character; when none is pending, one line is taken first. -/
def read (c : Cursor) : Option Char × Cursor :=
  if c.pending = [] then c.nextLine.pop else c.pop

/-- Puts a character back, to be read next. -/
def unread (a : Char) (c : Cursor) : Cursor := { c with pending := a :: c.pending }

/-! ### What the operations do to the content -/

theorem content_start (text : List Char) (journal : List Event) :
    (start text journal).content = text := Lines.text_ofText text

theorem content_unread (a : Char) (c : Cursor) : (c.unread a).content = a :: c.content := rfl

theorem content_note (e : Event) (c : Cursor) : (c.note e).content = c.content := rfl

theorem content_nextLine (c : Cursor) : c.nextLine.content = c.upcoming.text := by
  unfold nextLine
  split
  · next l rest h => rw [Lines.text_of_pop? h]; rfl
  · next h => simp [content, Lines.text_of_pop?_eq_none h]

theorem content_pop {c rest : Cursor} {a : Char} (h : c.pop = (some a, rest)) :
    c.content = a :: rest.content := by
  obtain ⟨_ | ⟨b, bs⟩, up, n, j⟩ := c
  · simp [pop] at h
  · simp only [pop, Prod.mk.injEq, Option.some.injEq] at h
    obtain ⟨rfl, rfl⟩ := h
    rfl

theorem content_read {c rest : Cursor} {a : Char} (h : c.read = (some a, rest)) :
    c.content = a :: rest.content := by
  unfold read at h
  split at h
  · next hp =>
    have := content_pop h
    rw [content_nextLine] at this
    simpa [content, hp] using this
  · exact content_pop h

theorem content_of_read_eq_none {c rest : Cursor} (h : c.read = (none, rest)) :
    rest.content = c.content := by
  unfold read at h
  split at h
  · next hp =>
    have hpop : c.nextLine = rest := by
      unfold pop at h
      split at h
      · exact (Prod.mk.inj h).2
      · simp at h
    rw [← hpop, content_nextLine]
    simp [content, hp]
  · next hp =>
    obtain ⟨_ | ⟨b, bs⟩, up, n, j⟩ := c
    · exact absurd rfl hp
    · simp [pop] at h

theorem read_unread (a : Char) (c : Cursor) : (c.unread a).read = (some a, c) := rfl

theorem length_content_read {c rest : Cursor} {a : Char} (h : c.read = (some a, rest)) :
    rest.content.length < c.content.length := by
  rw [content_read h]
  exact Nat.lt_succ_self _

theorem length_content_nextLine_le (c : Cursor) :
    c.nextLine.content.length ≤ c.content.length := by
  rw [content_nextLine]
  simp [content]

end Cursor
end MicroLisp
