import MicroLisp.Proofs.Cursor.Preservation

/-!
# The journal of a cursor

What the journal of a cursor can hold: the input that was read, the lines of the text one
after the other, and in between comments and words out of range (`Chronicle`).  Nothing
comes between a comment and the line behind its own, so that a line has one comment at
most.  Reading keeps the journal in this order.
-/

namespace MicroLisp

namespace Event

def loaded? : Event → Option (Nat × Nat)
  | .lineLoaded line length => some (line, length)
  | _ => none

def warned? : Event → Option String
  | .outOfRange word => some word
  | _ => none

def isRemark : Event → Bool
  | .commentSkipped _ | .outOfRange _ => true
  | _ => false

end Event

/-- The last thing noted is not a comment. -/
def Resumed (journal : List Event) : Prop := ∀ n, journal.head? ≠ some (.commentSkipped n)

/-- The journal of a reading of `text` that has come to line `n`, the latest event first. -/
inductive Chronicle (text : List Char) (bytes : Nat) : Nat → List Event → Prop
  | start : Chronicle text bytes 0 [.inputRead bytes]
  | line {n : Nat} {journal : List Event} :
      Chronicle text bytes n journal →
      Chronicle text bytes (n + 1)
        (.lineLoaded (n + 1) (Text.line text (n + 1)).length :: journal)
  | comment {n : Nat} {journal : List Event} :
      Chronicle text bytes n journal → Resumed journal →
      Chronicle text bytes n (.commentSkipped n :: journal)
  | word {n : Nat} {journal : List Event} {w : String} :
      Chronicle text bytes n journal → Resumed journal →
      Chronicle text bytes n (.outOfRange w :: journal)

variable {text : List Char} {bytes n m : Nat} {journal newer older : List Event}

theorem resumed_cons {e : Event} (he : ∀ n, e ≠ .commentSkipped n) : Resumed (e :: journal) := by
  intro n h
  exact he n (Option.some.inj h)

/-- Events that begin with an input of so many bytes and go on with lines and remarks alone. -/
def Opens (bytes : Nat) (events : List Event) : Prop :=
  ∃ es, events = .inputRead bytes :: es ∧
    ∀ e ∈ es, e.loaded?.isSome = true ∨ e.isRemark = true

theorem Opens.append {events : List Event} (h : Opens bytes events) {e : Event}
    (he : e.loaded?.isSome = true ∨ e.isRemark = true) : Opens bytes (events ++ [e]) := by
  obtain ⟨es, rfl, hall⟩ := h
  refine ⟨es ++ [e], List.cons_append, fun e' he' => ?_⟩
  rcases List.mem_append.mp he' with hmem | hmem
  · exact hall e' hmem
  · rwa [List.mem_singleton.mp hmem]

namespace Chronicle

/-! ### What stands where -/

theorem opens (h : Chronicle text bytes n journal) : Opens bytes journal.reverse := by
  induction h with
  | start => exact ⟨[], rfl, fun _ h => absurd h List.not_mem_nil⟩
  | line _ ih =>
    rw [List.reverse_cons]
    exact ih.append (Or.inl rfl)
  | comment _ _ ih =>
    rw [List.reverse_cons]
    exact ih.append (Or.inr rfl)
  | word _ _ ih =>
    rw [List.reverse_cons]
    exact ih.append (Or.inr rfl)

theorem lines (h : Chronicle text bytes n journal) :
    journal.reverse.filterMap Event.loaded? =
      (List.range n).map fun k => (k + 1, (Text.line text (k + 1)).length) := by
  induction h with
  | start => rfl
  | line _ ih =>
    rw [List.reverse_cons, List.filterMap_append, ih, List.range_succ, List.map_append]
    rfl
  | comment _ _ ih =>
    rw [List.reverse_cons, List.filterMap_append, ih]
    exact List.append_nil _
  | word _ _ ih =>
    rw [List.reverse_cons, List.filterMap_append, ih]
    exact List.append_nil _

/-- A comment belongs to the line that was loaded last, and the next event loads the next one. -/
theorem split (h : Chronicle text bytes n journal)
    (hsplit : journal = newer ++ .commentSkipped m :: older) :
    Chronicle text bytes m older ∧
      (newer = [] ∧ m = n ∨
        m < n ∧ ∃ later, newer = later ++ [.lineLoaded (m + 1) (Text.line text (m + 1)).length]) := by
  induction h generalizing newer with
  | start =>
    cases newer with
    | nil => cases hsplit
    | cons e newer => simp at hsplit
  | @line n journal h ih =>
    cases newer with
    | nil => cases hsplit
    | cons e newer =>
      obtain ⟨rfl, htail⟩ := List.cons.inj hsplit
      obtain ⟨holder, ⟨rfl, rfl⟩ | ⟨hlt, later, rfl⟩⟩ := ih htail
      · exact ⟨holder, Or.inr ⟨Nat.lt_succ_self _, [], rfl⟩⟩
      · exact ⟨holder, Or.inr ⟨Nat.lt_succ_of_lt hlt, _ :: later, rfl⟩⟩
  | comment h hresumed ih =>
    cases newer with
    | nil =>
      obtain ⟨heq, rfl⟩ := List.cons.inj hsplit
      obtain rfl := Event.commentSkipped.inj heq
      exact ⟨h, Or.inl ⟨rfl, rfl⟩⟩
    | cons e newer =>
      obtain ⟨rfl, htail⟩ := List.cons.inj hsplit
      obtain ⟨holder, ⟨rfl, rfl⟩ | ⟨hlt, later, rfl⟩⟩ := ih htail
      · exact absurd (congrArg List.head? htail) (hresumed _)
      · exact ⟨holder, Or.inr ⟨hlt, _ :: later, rfl⟩⟩
  | word h hresumed ih =>
    cases newer with
    | nil => cases hsplit
    | cons e newer =>
      obtain ⟨rfl, htail⟩ := List.cons.inj hsplit
      obtain ⟨holder, ⟨rfl, rfl⟩ | ⟨hlt, later, rfl⟩⟩ := ih htail
      · exact absurd (congrArg List.head? htail) (hresumed _)
      · exact ⟨holder, Or.inr ⟨hlt, _ :: later, rfl⟩⟩

theorem comment_lt (h : Chronicle text bytes n journal) (hresumed : Resumed journal)
    (hmem : .commentSkipped m ∈ journal) : m < n := by
  obtain ⟨newer, older, hsplit⟩ := List.append_of_mem hmem
  obtain ⟨-, ⟨rfl, -⟩ | ⟨hlt, -⟩⟩ := h.split hsplit
  · exact absurd (congrArg List.head? hsplit) (hresumed m)
  · exact hlt

theorem count_comment_le (h : Chronicle text bytes n journal) (m : Nat) :
    journal.count (.commentSkipped m) ≤ 1 := by
  induction h with
  | start => exact Nat.zero_le 1
  | line _ ih => rwa [List.count_cons_of_ne Event.noConfusion]
  | @comment n journal h hresumed ih =>
    by_cases heq : n = m
    · subst heq
      have hnot : .commentSkipped n ∉ journal := fun hmem =>
        Nat.lt_irrefl n (h.comment_lt hresumed hmem)
      exact Nat.le_of_eq (by rw [List.count_cons_self, List.count_eq_zero.mpr hnot])
    · rwa [List.count_cons_of_ne fun he => heq (Event.commentSkipped.inj he)]
  | word _ _ ih => rwa [List.count_cons_of_ne Event.noConfusion]

end Chronicle

/-! ### Reading keeps the order -/

namespace Cursor

variable {c rest : Cursor} {a : Char}

/-- A cursor within a text with its journal in order.  Behind a comment that ends the text nothing is
left to be read. -/
structure Chronicled (text : List Char) (bytes : Nat) (c : Cursor) : Prop
    extends Within text c where
  chronicle : Chronicle text bytes c.line c.journal
  resumed : Resumed c.journal ∨ c.pending = [] ∧ c.upcoming.waiting = []

theorem chronicled_start (text : List Char) (bytes : Nat) :
    Chronicled text bytes (start text [.inputRead bytes]) where
  toWithin := within_start text _
  chronicle := .start
  resumed := Or.inl (resumed_cons fun _ => Event.noConfusion)

theorem Over.chronicled_nextLine (h : Over text c) (hc : Chronicle text bytes c.line c.journal) :
    Chronicled text bytes c.nextLine := by
  refine ⟨h.within_nextLine, ?_, ?_⟩
  · unfold Cursor.nextLine Lines.pop?
    cases hw : c.upcoming.waiting with
    | nil => exact hc
    | cons l ls =>
      have hl : l = Text.line text (c.line + 1) := (h.line_succ hw).symm
      subst hl
      exact hc.line
  · unfold Cursor.nextLine Lines.pop?
    cases hw : c.upcoming.waiting with
    | nil => exact Or.inr ⟨rfl, hw⟩
    | cons l ls => exact Or.inl (resumed_cons fun _ => Event.noConfusion)

theorem Chronicled.stocked (h : Chronicled text bytes c) : Chronicled text bytes c.stocked := by
  unfold Cursor.stocked
  split
  · exact h.toOver.chronicled_nextLine h.chronicle
  · exact h

/-- A character that is read has not been skipped with a comment. -/
theorem Chronicled.read_some (h : Chronicled text bytes c) (hr : c.read = (some a, rest)) :
    Chronicled text bytes rest ∧ Resumed rest.journal := by
  have hwithin := (kept_within text).of_read h.toWithin hr
  have hs := h.stocked
  rw [read_eq_pop] at hr
  obtain ⟨hpend, -, hline, hback⟩ := pop_eq_some hr
  have hjournal : (rest.unread a).journal = c.stocked.journal := congrArg Cursor.journal hback
  rw [unread] at hjournal
  have hresumed : Resumed rest.journal := by
    rw [hjournal]
    refine hs.resumed.resolve_right fun hnil => ?_
    rw [hpend] at hnil
    exact absurd hnil.1 (List.cons_ne_nil a _)
  refine ⟨⟨hwithin, ?_, Or.inl hresumed⟩, hresumed⟩
  rw [hline, hjournal]
  exact hs.chronicle

theorem Chronicled.comment_split (h : Chronicled text bytes c)
    (hsplit : c.journal = newer ++ .commentSkipped m :: older) :
    Chronicle text bytes m older ∧
      if m = Text.lineCount text then newer = []
      else ∃ later, newer = later ++ [.lineLoaded (m + 1) (Text.line text (m + 1)).length] := by
  obtain ⟨holder, ⟨rfl, rfl⟩ | ⟨hlt, hlater⟩⟩ := h.chronicle.split hsplit
  · -- the comment is the last event, so that nothing is left
    have hnot : ¬ Resumed c.journal := fun hresumed =>
      hresumed c.line (by rw [hsplit]; rfl)
    have hline := h.line
    rw [Lines.remaining, (h.resumed.resolve_left hnot).2, List.length_nil, Nat.add_zero] at hline
    rw [if_pos hline]
    exact ⟨holder, rfl⟩
  · have hline := h.line
    rw [if_neg (by omega)]
    exact ⟨holder, hlater⟩

theorem keptByReading_chronicled (text : List Char) (bytes : Nat) :
    KeptByReading (Chronicled text bytes) where
  read := by
    intro c h
    rcases hr : c.read with ⟨_ | a, rest⟩
    · rw [read_eq_pop] at hr
      obtain ⟨-, rfl⟩ := pop_eq_none hr
      exact h.stocked
    · exact (h.read_some hr).1
  unread := by
    intro c rest a h hr
    rw [read_eq_pop] at hr
    obtain ⟨-, -, -, hback⟩ := pop_eq_some hr
    rw [hback]
    exact h.stocked

theorem keptByReading_resumed : KeptByReading (Resumed ·.journal) :=
  keptByReading_journal fun _ => resumed_cons fun _ => Event.noConfusion

theorem kept_chronicled (text : List Char) (bytes : Nat) : Kept (Chronicled text bytes) where
  toKeptByReading := keptByReading_chronicled text bytes
  comment := by
    intro c rest h hr
    obtain ⟨hrest, hresumed⟩ := h.read_some hr
    exact (hrest.toOver.note _).chronicled_nextLine (hrest.chronicle.comment hresumed)
  word := by
    intro c rest a h hr
    have hword : Chronicled text bytes (rest.unread a).takeWord.2 :=
      (keptByReading_chronicled text bytes).takeWordFrom []
        ((keptByReading_chronicled text bytes).unread h hr)
    have hresumed : Resumed (rest.unread a).takeWord.2.journal :=
      keptByReading_resumed.takeWordFrom [] (h.read_some hr).2
    simp only [readWord]
    split
    · exact ⟨hword.toWithin.note _, hword.chronicle.word hresumed,
        Or.inl (resumed_cons fun _ => Event.noConfusion)⟩
    · exact hword

end Cursor
end MicroLisp
