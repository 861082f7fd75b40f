import MicroLisp.Lexer

/-!
# Loops with a bound on their turns

The loops in which a token is read, each cut off after a number of turns: a loop that has
not come to its end by then has no answer.  One turn more than there are characters left
is enough for each of them, and the answer is the one of the loop without a bound
(`readTokenIn_eq`).
-/

namespace MicroLisp.Cursor

def takeWordIn : Nat → List Char → Cursor → Option (List Char × Cursor)
  | 0, _, _ => none
  | turns + 1, taken, c =>
    match c.read with
    | (none, rest) => some (taken.reverse, rest)
    | (some a, rest) =>
      if endsWord a then some (taken.reverse, rest.unread a)
      else takeWordIn turns (a :: taken) rest

def readWordIn (turns : Nat) (c : Cursor) : Option (Token × Cursor) :=
  (takeWordIn turns [] c).map fun (word, rest) =>
    (Word.classify word,
      if Word.outOfRange word then rest.note (.outOfRange (String.ofList word)) else rest)

def readStringIn (opening : Nat) : Nat → List Char → Cursor → Option (Except Error String × Cursor)
  | 0, _, _ => none
  | turns + 1, taken, c =>
    match c.read with
    | (none, rest) => some (.error (.unterminatedString opening), rest)
    | (some a, rest) =>
      if a = '"' then some (.ok (String.ofList taken.reverse), rest)
      else if a = '\\' then
        match rest.read with
        | (none, rest') => some (.error (.unterminatedString opening), rest')
        | (some e, rest') =>
          match unescape e rest'.line with
          | .ok b => readStringIn opening turns (b :: taken) rest'
          | .error err => some (.error err, rest')
      else readStringIn opening turns (a :: taken) rest

/-- A call in which no loop turns more often than `turns` times. -/
def readTokenIn : Nat → Cursor → Option (Except Error (Option Token) × Cursor)
  | 0, _ => none
  | turns + 1, c =>
    match c.read with
    | (none, rest) => some (.ok none, rest)
    | (some a, rest) =>
      if isBlank a then readTokenIn turns rest
      else if a = ';' then readTokenIn turns (rest.note (.commentSkipped rest.line)).nextLine
      else if a = '(' then some (.ok (some .leftParen), rest)
      else if a = ')' then some (.ok (some .rightParen), rest)
      else if a = '\'' then some (.ok (some .quote), rest)
      else if a = '"' then
        (readStringIn rest.line (turns + 1) [] rest).map fun (r, rest') =>
          (r.map fun s => some (.string s), rest')
      else (readWordIn (turns + 1) (rest.unread a)).map fun (t, rest') => (.ok (some t), rest')

variable {turns : Nat} {c rest : Cursor} {a : Char}

/-- Behind a character there is a turn left for each of the others. -/
theorem exists_turn (h : c.content.length ≤ turns) (hr : c.read = (some a, rest)) :
    ∃ k, turns = k + 1 ∧ rest.content.length ≤ k := by
  have hlt : rest.content.length < c.content.length := length_content_read hr
  exact ⟨turns - 1, by omega, by omega⟩

theorem takeWordIn_eq {taken : List Char} (h : c.content.length ≤ turns) :
    takeWordIn (turns + 1) taken c = some (c.takeWordFrom taken) := by
  fun_induction takeWordFrom taken c generalizing turns with
  | case1 taken c rest hr => simp only [takeWordIn, hr]
  | case2 taken c a rest hr ha => simp only [takeWordIn, hr, ha, if_true]
  | case3 taken c a rest hr ha ih =>
    obtain ⟨k, rfl, hk⟩ := exists_turn h hr
    rw [takeWordIn]
    simp only [hr, ha]
    exact ih hk

theorem readWordIn_eq (h : c.content.length ≤ turns) :
    readWordIn (turns + 1) c = some c.readWord := by
  rw [readWordIn, takeWordIn_eq h]
  rfl

theorem readStringIn_eq {opening : Nat} {taken : List Char} (h : c.content.length ≤ turns) :
    readStringIn opening (turns + 1) taken c = some (c.readStringFrom opening taken) := by
  fun_induction readStringFrom opening taken c generalizing turns with
  | case1 taken c rest hr => simp only [readStringIn, hr]
  | case2 taken c rest hr => simp only [readStringIn, hr, if_true]
  | case3 taken c rest rest' hr' hr hq => simp only [readStringIn, hr, hr', hq, if_true, if_false]
  | case4 taken c rest e rest' hr' b hb hr hq ih =>
    obtain ⟨k, rfl, hk⟩ := exists_turn h hr
    have hlt : rest'.content.length < rest.content.length := length_content_read hr'
    rw [readStringIn]
    simp only [hr, hr', hb, hq, if_true, if_false]
    exact ih (by omega)
  | case5 taken c rest e rest' hr' err herr hr hq =>
    simp only [readStringIn, hr, hr', herr, hq, if_true, if_false]
  | case6 taken c a rest hr hq hb ih =>
    obtain ⟨k, rfl, hk⟩ := exists_turn h hr
    rw [readStringIn]
    simp only [hr, hq, hb, if_false]
    exact ih hk

theorem readStringIn_of_read (h : c.content.length ≤ turns) (hr : c.read = (some a, rest)) :
    readStringIn rest.line (turns + 1) [] rest = some rest.readString :=
  readStringIn_eq (Nat.le_of_lt (Nat.lt_of_lt_of_le (length_content_read hr) h))

theorem readTokenIn_eq (h : c.content.length ≤ turns) :
    readTokenIn (turns + 1) c = some c.readToken := by
  fun_induction readToken c generalizing turns with
  | case1 c rest hr => simp only [readTokenIn, hr]
  | case2 c a rest hr hb ih =>
    obtain ⟨k, rfl, hk⟩ := exists_turn h hr
    rw [readTokenIn]
    simp only [hr, hb, if_true]
    exact ih hk
  | case3 c rest hr hb ih =>
    obtain ⟨k, rfl, hk⟩ := exists_turn h hr
    have hline := length_content_nextLine_le (rest.note (.commentSkipped rest.line))
    rw [content_note] at hline
    rw [readTokenIn]
    simp only [hr, hb, if_true]
    exact ih (by omega)
  | case4 c rest hr hb => simp [readTokenIn, hr, hb]
  | case5 c rest hr hb => simp [readTokenIn, hr, hb]
  | case6 c rest hr hb => simp [readTokenIn, hr, hb]
  | case7 c rest s rest' hs hr hb =>
    have hstring := readStringIn_of_read h hr
    rw [hs] at hstring
    simp [readTokenIn, hr, hb, hstring, Except.map]
  | case8 c rest e rest' hs hr hb =>
    have hstring := readStringIn_of_read h hr
    rw [hs] at hstring
    simp [readTokenIn, hr, hb, hstring, Except.map]
  | case9 c a rest hr hb hs ho hp hq hd t rest' hw =>
    have hword : readWordIn (turns + 1) (rest.unread a) = some (t, rest') := by
      rw [readWordIn_eq, hw]
      rw [content_unread, ← content_read hr]
      exact h
    simp [readTokenIn, hr, hb, hs, ho, hp, hq, hd, hword]

end MicroLisp.Cursor
