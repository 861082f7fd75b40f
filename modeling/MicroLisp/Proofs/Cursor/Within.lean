import MicroLisp.Cursor.Basic
import MicroLisp.Proofs.Text.Lines

/-!
# Where a cursor stands in its text

Whatever is done to a cursor, its untouched lines are the last lines of the text
and its line number says how many have gone (`Over`).  As long as only characters
just read are put back, what is pending is an end of the current line
(`Within`).  Then the unread content is an end of the text (`Within.content_suffix`)
and reading a character leaves the cursor on the line of that character
(`Within.line_of_read`).
-/

namespace MicroLisp.Cursor
open Text Lines

variable {text : List Char} {c rest : Cursor} {a : Char}

/-- The untouched lines are the last ones of the text, all but `line` of them. -/
structure Over (text : List Char) (c : Cursor) : Prop where
  upcoming : c.upcoming.waiting <:+ (Lines.ofText text).waiting
  line : c.line + c.upcoming.remaining = lineCount text

/-- What is pending is moreover an end of the current line. -/
structure Within (text : List Char) (c : Cursor) : Prop extends Over text c where
  pending : c.pending <:+ Text.line text c.line

def stocked (c : Cursor) : Cursor := if c.pending = [] then c.nextLine else c

/-- The rest of the current line is at hand, or else nothing is left. -/
def Settled (c : Cursor) : Prop := c.pending = [] → c.upcoming.waiting = []

/-! ### Reading as taking from a stocked cursor -/

theorem read_eq_pop (c : Cursor) : c.read = c.stocked.pop := by
  unfold read stocked
  split <;> rfl

theorem pop_eq_some (h : c.pop = (some a, rest)) :
    c.pending = a :: rest.pending ∧ rest.upcoming = c.upcoming ∧ rest.line = c.line ∧
      rest.unread a = c := by
  obtain ⟨_ | ⟨b, bs⟩, up, n, j⟩ := c
  · simp [pop] at h
  · simp only [pop, Prod.mk.injEq, Option.some.injEq] at h
    obtain ⟨rfl, rfl⟩ := h
    exact ⟨rfl, rfl, rfl, rfl⟩

theorem pop_eq_none (h : c.pop = (none, rest)) : c.pending = [] ∧ rest = c := by
  obtain ⟨_ | ⟨b, bs⟩, up, n, j⟩ := c
  · exact ⟨rfl, (Prod.mk.inj h).2.symm⟩
  · simp [pop] at h

/-! ### The lines of the text -/

theorem over_start (text : List Char) (journal : List Event) : Over text (start text journal) where
  upcoming := List.suffix_refl _
  line := by
    show 0 + (Lines.ofText text).remaining = lineCount text
    rw [Nat.zero_add, remaining_ofText]

theorem within_start (text : List Char) (journal : List Event) :
    Within text (start text journal) where
  toOver := over_start text journal
  pending := List.nil_suffix

theorem Over.note (h : Over text c) (e : Event) : Over text (c.note e) := ⟨h.upcoming, h.line⟩

theorem Within.note (h : Within text c) (e : Event) : Within text (c.note e) :=
  ⟨h.toOver.note e, h.pending⟩

theorem Over.taken (h : Over text c) :
    ∃ taken, taken ++ c.upcoming.waiting = (Lines.ofText text).waiting ∧
      taken.length = c.line := by
  obtain ⟨taken, htaken⟩ := h.upcoming
  refine ⟨taken, htaken, ?_⟩
  have htotal := congrArg List.length htaken
  have hcount : (Lines.ofText text).waiting.length = lineCount text := remaining_ofText text
  have hline := h.line
  rw [List.length_append, hcount] at htotal
  rw [remaining] at hline
  omega

/-- The first untouched line is the one whose number follows. -/
theorem Over.line_succ (h : Over text c) {l : List Char} {ls : List (List Char)}
    (hl : c.upcoming.waiting = l :: ls) : Text.line text (c.line + 1) = l := by
  obtain ⟨taken, htaken, hlen⟩ := h.taken
  rw [line_ofText, ← htaken, ← hlen, hl]
  simp

theorem Over.line_suffix (h : Over text c) (h0 : c.line ≠ 0) :
    Text.line text c.line :: c.upcoming.waiting <:+ (Lines.ofText text).waiting := by
  obtain ⟨taken, htaken, hlen⟩ := h.taken
  have hne : taken ≠ [] := by
    intro hnil
    rw [hnil] at hlen
    exact h0 hlen.symm
  -- the current line is the last one that was taken
  obtain ⟨front, l, rfl⟩ := (List.eq_nil_or_concat taken).resolve_left hne
  rw [List.concat_eq_append, List.length_append, List.length_singleton] at hlen
  rw [List.concat_eq_append, List.append_assoc, List.singleton_append] at htaken
  have hl : Text.line text c.line = l := by
    rw [← hlen, line_ofText, ← htaken]
    simp
  rw [hl]
  exact ⟨front, htaken⟩

theorem Over.cut_line (h : Over text c) (h0 : c.line ≠ 0) :
    Cut (Text.line text c.line :: c.upcoming.waiting) :=
  (cut_ofText text).of_suffix (h.line_suffix h0) (List.cons_ne_nil _ _)

theorem Over.cut_upcoming (h : Over text c) (hne : c.upcoming.waiting ≠ []) :
    Cut c.upcoming.waiting :=
  (cut_ofText text).of_suffix h.upcoming hne

theorem Within.line_ne_zero (h : Within text c) (hne : c.pending ≠ []) : c.line ≠ 0 := by
  intro h0
  have hp := h.pending
  rw [h0] at hp
  exact hne (List.suffix_nil.mp hp)

theorem Within.content_suffix (h : Within text c) : c.content <:+ text := by
  have hflatten : ∀ {ls : List (List Char)}, ls <:+ (Lines.ofText text).waiting →
      ls.flatten <:+ text := by
    intro ls hls
    obtain ⟨taken, htaken⟩ := hls
    refine ⟨taken.flatten, ?_⟩
    rw [← List.flatten_append, htaken]
    exact text_ofText text
  by_cases hp : c.pending = []
  · rw [content, hp]
    exact hflatten h.upcoming
  · have hl := hflatten (h.line_suffix (h.line_ne_zero hp))
    obtain ⟨before, hbefore⟩ := h.pending
    rw [← hbefore, List.flatten_cons, List.append_assoc] at hl
    exact (List.suffix_append before _).trans hl

/-! ### Operations -/

theorem Over.within_nextLine (h : Over text c) : Within text c.nextLine := by
  have hline := h.line
  have hup := h.upcoming
  cases hw : c.upcoming.waiting with
  | nil =>
    have heq : c.nextLine = { c with pending := [] } := by
      simp only [nextLine, pop?, hw]
    rw [heq]
    exact ⟨⟨hup, hline⟩, List.nil_suffix⟩
  | cons l ls =>
    have heq : c.nextLine =
        Cursor.note (.lineLoaded (c.line + 1) l.length) ⟨l, ⟨ls⟩, c.line + 1, c.journal⟩ := by
      simp only [nextLine, pop?, hw]
    rw [heq]
    refine ⟨⟨?_, ?_⟩, ?_⟩
    · show ls <:+ (Lines.ofText text).waiting
      rw [hw] at hup
      exact (List.suffix_cons l ls).trans hup
    · show c.line + 1 + ls.length = lineCount text
      rw [remaining, hw, List.length_cons] at hline
      omega
    · have hl : l = Text.line text (c.line + 1) := (h.line_succ hw).symm
      exact hl ▸ List.suffix_refl l

theorem Over.stocked (h : Over text c) : Over text c.stocked := by
  unfold Cursor.stocked
  split
  · exact h.within_nextLine.toOver
  · exact h

theorem Within.stocked (h : Within text c) : Within text c.stocked := by
  unfold Cursor.stocked
  split
  · exact h.within_nextLine
  · exact h

theorem content_stocked (c : Cursor) : c.stocked.content = c.content := by
  unfold stocked
  split
  · next hp =>
    rw [content_nextLine, content, hp]
    rfl
  · rfl

theorem Over.read (h : Over text c) : Over text c.read.2 := by
  rw [read_eq_pop]
  have hs := h.stocked
  rcases hpop : c.stocked.pop with ⟨_ | b, r⟩
  · obtain ⟨-, rfl⟩ := pop_eq_none hpop
    exact hs
  · obtain ⟨-, hup, hline, -⟩ := pop_eq_some hpop
    exact ⟨hup ▸ hs.upcoming, by rw [hup, hline]; exact hs.line⟩

theorem Over.unread (h : Over text c) (a : Char) : Over text (c.unread a) := ⟨h.upcoming, h.line⟩

theorem Within.read (h : Within text c) : Within text c.read.2 := by
  refine ⟨h.toOver.read, ?_⟩
  rw [read_eq_pop]
  have hs := h.stocked.pending
  rcases hpop : c.stocked.pop with ⟨_ | b, r⟩
  · obtain ⟨-, rfl⟩ := pop_eq_none hpop
    exact hs
  · obtain ⟨hpend, -, hline, -⟩ := pop_eq_some hpop
    rw [hpend] at hs
    show r.pending <:+ Text.line text r.line
    rw [hline]
    exact (List.suffix_cons b r.pending).trans hs

theorem Within.unread (h : Within text c) (hr : c.read = (some a, rest)) :
    Within text (rest.unread a) := by
  rw [read_eq_pop] at hr
  obtain ⟨-, -, -, heq⟩ := pop_eq_some hr
  rw [heq]
  exact h.stocked

theorem Over.read_eq_none (h : Over text c) (hr : c.read = (none, rest)) :
    c.content = [] ∧ rest.pending = [] ∧ rest.upcoming.waiting = [] := by
  have hs := h.stocked
  rw [read_eq_pop] at hr
  obtain ⟨hpend, rfl⟩ := pop_eq_none hr
  have hup : c.stocked.upcoming.waiting = [] := by
    unfold Cursor.stocked at hpend ⊢
    split at hpend
    · next hp =>
      simp only [hp, ↓reduceIte]
      cases hw : c.upcoming.waiting with
      | nil => simp only [nextLine, pop?, hw]
      | cons l ls =>
        have hcut := h.cut_upcoming (by rw [hw]; exact List.cons_ne_nil _ _)
        rw [hw] at hcut
        simp only [nextLine, pop?, hw, Cursor.note] at hpend ⊢
        -- the line taken was empty, and only the last one can be
        subst hpend
        exact hcut.eq_nil_of_nil_cons
    · next hp => exact absurd hpend hp
  refine ⟨?_, hpend, hup⟩
  rw [← content_stocked, content, hpend, Lines.text, hup]
  rfl

theorem Over.line_of_read_eq_none (h : Over text c) (hr : c.read = (none, rest)) :
    rest.line = lineCount text := by
  have hrest := h.read
  obtain ⟨-, -, hup⟩ := h.read_eq_none hr
  rw [hr] at hrest
  have hline := hrest.line
  rw [remaining, hup, List.length_nil, Nat.add_zero] at hline
  exact hline

/-! ### The current line -/

theorem Within.line_of_pending (h : Within text c) (hne : c.pending ≠ []) :
    c.line = lineAt text (startOf text c.content) := by
  have hlines := lineAt_startOf h.content_suffix
  have hline := h.line
  have hcount := (h.cut_line (h.line_ne_zero hne)).count_end h.pending hne
  have hcontent : c.content.count '\n' =
      c.pending.count '\n' + c.upcoming.waiting.flatten.count '\n' := List.count_append
  rw [remaining] at hline
  -- what is pending holds the newline of its line, unless the line is the last one
  by_cases hup : c.upcoming.waiting = []
  · simp only [hup, ↓reduceIte, List.flatten_nil, List.count_nil, List.length_nil]
      at hcount hcontent hline
    omega
  · have hflat := (h.cut_upcoming hup).count_flatten
    simp only [hup, ↓reduceIte] at hcount
    omega

theorem Within.line_of_read (h : Within text c) (hr : c.read = (some a, rest)) :
    rest.line = lineAt text (startOf text c.content) := by
  rw [read_eq_pop] at hr
  obtain ⟨hpend, -, hline, -⟩ := pop_eq_some hr
  have hne : c.stocked.pending ≠ [] := by
    rw [hpend]
    exact List.cons_ne_nil _ _
  rw [hline, h.stocked.line_of_pending hne, content_stocked]

theorem Within.settled_of_read (h : Within text c) (hr : c.read = (some a, rest))
    (ha : a ≠ '\n') : Settled rest := by
  intro hnil
  rw [read_eq_pop] at hr
  obtain ⟨hpend, hup, -, -⟩ := pop_eq_some hr
  rw [hnil] at hpend
  have hs := h.stocked
  have hne : c.stocked.pending ≠ [] := by
    rw [hpend]
    exact List.cons_ne_nil _ _
  have hcount := (hs.cut_line (hs.line_ne_zero hne)).count_end hs.pending hne
  rw [hpend, List.count_singleton] at hcount
  rw [hup]
  by_contra hmore
  simp [ha, hmore] at hcount

theorem settled_unread (a : Char) (c : Cursor) : Settled (c.unread a) :=
  fun h => absurd h (List.cons_ne_nil _ _)

theorem Settled.line_read (h : Settled c) : c.read.2.line = c.line := by
  rw [read_eq_pop]
  have hs : c.stocked.line = c.line := by
    unfold stocked
    split
    · next hp => simp only [nextLine, pop?, h hp]
    · rfl
  rcases hpop : c.stocked.pop with ⟨_ | b, r⟩
  · obtain ⟨-, rfl⟩ := pop_eq_none hpop
    exact hs
  · obtain ⟨-, -, hline, -⟩ := pop_eq_some hpop
    exact hline.trans hs

theorem Within.behindLine_of_read (h : Within text c) (hr : c.read = (some a, rest))
    (ha : a ≠ '\n') : behindLine rest.content = rest.upcoming.text := by
  have hrest := h.read
  rw [hr] at hrest
  have h0 : rest.line ≠ 0 := by
    rw [h.line_of_read hr, lineAt]
    omega
  apply (hrest.cut_line h0).behindLine_end hrest.pending
  by_cases hp : rest.pending = []
  · exact Or.inr (h.settled_of_read hr ha hp)
  · exact Or.inl hp

/-! ### The line number never falls -/

theorem line_le_nextLine (c : Cursor) : c.line ≤ c.nextLine.line := by
  obtain ⟨p, ⟨_ | ⟨l, ls⟩⟩, n, j⟩ := c
  · exact Nat.le_refl n
  · exact Nat.le_succ n

theorem line_le_read (c : Cursor) : c.line ≤ c.read.2.line := by
  rw [read_eq_pop]
  have hs : c.line ≤ c.stocked.line := by
    unfold stocked
    split
    · exact line_le_nextLine c
    · exact Nat.le_refl _
  rcases hpop : c.stocked.pop with ⟨_ | b, r⟩
  · obtain ⟨-, rfl⟩ := pop_eq_none hpop
    exact hs
  · obtain ⟨-, -, hline, -⟩ := pop_eq_some hpop
    exact hline ▸ hs

end MicroLisp.Cursor
