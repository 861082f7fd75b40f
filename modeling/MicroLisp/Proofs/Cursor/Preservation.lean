import MicroLisp.Lexer
import MicroLisp.Proofs.Cursor.Within

/-!
# What reading a token preserves

Everything that happens to a cursor while a token is read is one of four steps: a
character is read, the character just read is put back, a comment is noted and the next
line taken, a word is read and noted if it is out of range.  A property that the four
steps keep is kept by a whole call (`Kept.readToken`); the place of a cursor in its text,
a lower bound of its line number and a journal without the event that closes a run are
such properties.
-/

namespace MicroLisp.Cursor

variable {P : Cursor → Prop} {c rest : Cursor} {a : Char}

/-- A property that reading characters and putting back the last one keep. -/
structure KeptByReading (P : Cursor → Prop) : Prop where
  read : ∀ {c : Cursor}, P c → P c.read.2
  unread : ∀ {c rest : Cursor} {a : Char}, P c → c.read = (some a, rest) → P (rest.unread a)

/-- A property that the steps of reading a token keep. -/
structure Kept (P : Cursor → Prop) : Prop extends KeptByReading P where
  comment : ∀ {c rest : Cursor}, P c → c.read = (some ';', rest) →
    P (rest.note (.commentSkipped rest.line)).nextLine
  word : ∀ {c rest : Cursor} {a : Char}, P c → c.read = (some a, rest) →
    P (rest.unread a).readWord.2

theorem KeptByReading.of_read (kept : KeptByReading P) (h : P c) {r : Option Char}
    (hr : c.read = (r, rest)) : P rest := by
  have hrest := kept.read h
  rwa [hr] at hrest

theorem KeptByReading.readStringFrom (kept : KeptByReading P) (opening : Nat)
    (taken : List Char) (h : P c) : P (c.readStringFrom opening taken).2 := by
  fun_induction Cursor.readStringFrom opening taken c with
  | case1 taken c r hr => exact kept.of_read h hr
  | case2 taken c r hr => exact kept.of_read h hr
  | case3 taken c r r' hr' hr hq => exact kept.of_read (kept.of_read h hr) hr'
  | case4 taken c r e r' hr' b hb hr hq ih => exact ih (kept.of_read (kept.of_read h hr) hr')
  | case5 taken c r e r' hr' err herr hr hq => exact kept.of_read (kept.of_read h hr) hr'
  | case6 taken c b r hr hq hb ih => exact ih (kept.of_read h hr)

theorem KeptByReading.takeWordFrom (kept : KeptByReading P) (taken : List Char) (h : P c) :
    P (c.takeWordFrom taken).2 := by
  fun_induction Cursor.takeWordFrom taken c with
  | case1 taken c r hr => exact kept.of_read h hr
  | case2 taken c b r hr hb => exact kept.unread h hr
  | case3 taken c b r hr hb ih => exact ih (kept.of_read h hr)

theorem KeptByReading.readWord (kept : KeptByReading P)
    (note : ∀ {c : Cursor} {w : String}, P c → P (c.note (.outOfRange w))) (h : P c) :
    P c.readWord.2 := by
  have hword : P c.takeWord.2 := kept.takeWordFrom [] h
  simp only [Cursor.readWord]
  split
  · exact note hword
  · exact hword

/-- Most properties are kept whatever is noted, and whenever the next line is taken. -/
theorem KeptByReading.kept (kept : KeptByReading P)
    (note : ∀ {c : Cursor} {e : Event}, (∀ count, e ≠ .finished count) → P c → P (c.note e))
    (nextLine : ∀ {c : Cursor}, P c → P c.nextLine) : Kept P where
  toKeptByReading := kept
  comment := fun h hr => nextLine (note (fun _ => Event.noConfusion) (kept.of_read h hr))
  word := fun h hr => kept.readWord (note fun _ => Event.noConfusion) (kept.unread h hr)

theorem Kept.readToken (kept : Kept P) (h : P c) : P c.readToken.2 := by
  fun_induction Cursor.readToken c with
  | case1 c r hr => exact kept.of_read h hr
  | case2 c b r hr hb ih => exact ih (kept.of_read h hr)
  | case3 c r hr hb ih =>
    exact ih (kept.comment h hr)
  | case4 c r hr hb => exact kept.of_read h hr
  | case5 c r hr hb => exact kept.of_read h hr
  | case6 c r hr hb => exact kept.of_read h hr
  | case7 c r s r' hs hr =>
    have hstring := kept.readStringFrom r.line [] (kept.of_read h hr)
    simp only [readString] at hs
    rwa [hs] at hstring
  | case8 c r e r' hs hr =>
    have hstring := kept.readStringFrom r.line [] (kept.of_read h hr)
    simp only [readString] at hs
    rwa [hs] at hstring
  | case9 c b r hr hb hs ho hc hq hd t' r' hw =>
    have hword := kept.word h hr
    rwa [hw] at hword

/-! ### Properties of the journal -/

section Journal

variable {Q : List Event → Prop}

theorem journal_nextLine
    (loaded : ∀ {line length : Nat} {journal : List Event}, Q journal →
      Q (.lineLoaded line length :: journal)) (h : Q c.journal) : Q c.nextLine.journal := by
  unfold Cursor.nextLine
  split
  · exact loaded h
  · exact h

/-- While characters are read, lines that are loaded are all that is noted. -/
theorem keptByReading_journal
    (loaded : ∀ {line length : Nat} {journal : List Event}, Q journal →
      Q (.lineLoaded line length :: journal)) : KeptByReading (Q ·.journal) := by
  have hread : ∀ {c : Cursor}, Q c.journal → Q c.read.2.journal := by
    intro c h
    have hs : Q c.stocked.journal := by
      unfold stocked
      split
      · exact journal_nextLine loaded h
      · exact h
    rw [read_eq_pop]
    rcases hpop : c.stocked.pop with ⟨_ | a, rest⟩
    · obtain ⟨-, rfl⟩ := pop_eq_none hpop
      exact hs
    · obtain ⟨-, -, -, hback⟩ := pop_eq_some hpop
      rw [← hback] at hs
      exact hs
  refine ⟨hread, fun {c rest a} h hr => ?_⟩
  have hrest := hread h
  rw [hr] at hrest
  exact hrest

end Journal

/-! ### Properties that are kept -/

theorem kept_over (text : List Char) : Kept (Over text) := by
  refine KeptByReading.kept ⟨Over.read, ?_⟩ (fun _ h => h.note _)
    (fun h => h.within_nextLine.toOver)
  intro c rest a h hr
  have hrest := h.read
  rw [hr] at hrest
  exact hrest.unread a

theorem kept_within (text : List Char) : Kept (Within text) :=
  KeptByReading.kept ⟨Within.read, Within.unread⟩ (fun _ h => h.note _)
    (fun h => h.toOver.within_nextLine)

theorem kept_line_ge (n : Nat) : Kept (n ≤ ·.line) := by
  refine KeptByReading.kept ⟨?_, ?_⟩ (fun _ h => h) ?_
  · intro c h
    exact Nat.le_trans h (line_le_read c)
  · intro c rest a h hr
    have hle := line_le_read c
    rw [hr] at hle
    exact Nat.le_trans h hle
  · intro c h
    exact Nat.le_trans h (line_le_nextLine c)

/-- No event in the journal says that the run is over. -/
def Unfinished (c : Cursor) : Prop := ∀ count, .finished count ∉ c.journal

theorem Unfinished.note {e : Event} (h : c.Unfinished) (he : ∀ count, e ≠ .finished count) :
    (c.note e).Unfinished := by
  intro count hmem
  rcases List.mem_cons.mp hmem with heq | hmem
  · exact he count heq.symm
  · exact h count hmem

theorem kept_unfinished : Kept Unfinished := by
  let Q (journal : List Event) : Prop := ∀ count, .finished count ∉ journal
  have loaded : ∀ {line length : Nat} {journal : List Event}, Q journal →
      Q (.lineLoaded line length :: journal) := by
    intro line length journal h count hmem
    rcases List.mem_cons.mp hmem with heq | hmem
    · cases heq
    · exact h count hmem
  have reading : KeptByReading Unfinished := keptByReading_journal (Q := Q) loaded
  exact reading.kept (fun he h => h.note he) fun h => journal_nextLine (Q := Q) loaded h

end MicroLisp.Cursor
