import MicroLisp.Cursor.Basic
import MicroLisp.Text.Character
import MicroLisp.Word

/-!
# Words in front of a cursor

A word is the longest run of characters none of which ends a word.  Reading one
looks at the character behind it and puts that one back.
-/

namespace MicroLisp.Cursor

/-- Reads on to the end of a word, in front of which `taken` stands in reverse; the
character that ends the word is put back. -/
def takeWordFrom (taken : List Char) (c : Cursor) : List Char × Cursor :=
  match _h : c.read with
  | (none, rest) => (taken.reverse, rest)
  | (some a, rest) =>
    if endsWord a then (taken.reverse, rest.unread a) else takeWordFrom (a :: taken) rest
termination_by c.content.length
decreasing_by exact length_content_read _h

theorem length_content_takeWordFrom_le (taken : List Char) (c : Cursor) :
    (takeWordFrom taken c).2.content.length ≤ c.content.length := by
  fun_induction takeWordFrom taken c with
  | case1 taken c rest h => exact Nat.le_of_eq (congrArg List.length (content_of_read_eq_none h))
  | case2 taken c a rest h ha => exact Nat.le_of_eq (congrArg List.length (content_read h).symm)
  | case3 taken c a rest h ha ih => exact Nat.le_trans ih (Nat.le_of_lt (length_content_read h))

/-- Reads the longest word in front of the cursor, which may be empty. -/
def takeWord (c : Cursor) : List Char × Cursor := takeWordFrom [] c

/-- Reads a word and says what it stands for; a word whose integer does not fit is noted. -/
def readWord (c : Cursor) : Token × Cursor :=
  let (word, rest) := c.takeWord
  (Word.classify word,
    if Word.outOfRange word then rest.note (.outOfRange (String.ofList word)) else rest)

/-- A word that begins with a character put back leaves less than was there before. -/
theorem length_content_readWord_unread_le {a : Char} (ha : endsWord a = false) (c : Cursor) :
    (c.unread a).readWord.2.content.length ≤ c.content.length := by
  have hstep : (c.unread a).takeWord = takeWordFrom [a] c := by
    unfold takeWord
    rw [takeWordFrom]
    split
    · next h => simp [read_unread] at h
    · next h =>
      rw [read_unread] at h
      obtain ⟨hb, rfl⟩ := Prod.mk.inj h
      obtain rfl := Option.some.inj hb
      simp [ha]
  have hle := length_content_takeWordFrom_le [a] c
  simp only [readWord, hstep]
  split
  · exact hle
  · exact hle

end MicroLisp.Cursor
