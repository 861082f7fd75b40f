import Mathlib.Data.List.Basic

/-!
# Positions and lines of a text

A position of a text is the number of characters in front of it.  A line ends
behind its newline, so the line of a position is one more than the number of
newlines in front of it.  An end of a text begins at one position of it
(`startOf`), which is how the unread rest of a text and its position are
exchanged for one another.
-/

namespace MicroLisp.Text

/-- Number of the line on which the character at position `p` stands. -/
def lineAt (text : List Char) (p : Nat) : Nat := 1 + (text.take p).count '\n'

def lineCount (text : List Char) : Nat := 1 + text.count '\n'

/-- The position at which `rest`, an end of `text`, begins. -/
def startOf (text rest : List Char) : Nat := text.length - rest.length

def firstLine (text : List Char) : List Char :=
  text.takeWhile (· ≠ '\n') ++ (text.dropWhile (· ≠ '\n')).take 1

/-- What stands behind the first newline; nothing when there is none. -/
def behindLine (text : List Char) : List Char := (text.dropWhile (· ≠ '\n')).tail

/-- What stands behind the first `n` lines. -/
def behindLines (text : List Char) : Nat → List Char
  | 0 => text
  | n + 1 => behindLines (behindLine text) n

/-- Line number `n`, with its newline if it has one.  There is no line zero. -/
def line (text : List Char) : Nat → List Char
  | 0 => []
  | 1 => firstLine text
  | n + 2 => line (behindLine text) (n + 1)

/-! ### Positions -/

theorem startOf_append (before rest : List Char) :
    startOf (before ++ rest) rest = before.length := by
  simp only [startOf, List.length_append, Nat.add_sub_cancel]

theorem startOf_le (text rest : List Char) : startOf text rest ≤ text.length := Nat.sub_le _ _

theorem startOf_cons (text rest : List Char) (a : Char) :
    startOf text (a :: rest) = startOf text rest - 1 := by
  simp only [startOf, List.length_cons]
  omega

theorem drop_startOf {text rest : List Char} (h : rest <:+ text) :
    text.drop (startOf text rest) = rest := by
  obtain ⟨before, rfl⟩ := h
  rw [startOf_append, List.drop_left]

/-! ### Lines of positions -/

theorem lineAt_startOf_append (before rest : List Char) :
    lineAt (before ++ rest) (startOf (before ++ rest) rest) = 1 + before.count '\n' := by
  rw [startOf_append, lineAt, List.take_left]

theorem lineAt_startOf {text rest : List Char} (h : rest <:+ text) :
    lineAt text (startOf text rest) + rest.count '\n' = lineCount text := by
  obtain ⟨before, rfl⟩ := h
  rw [lineAt_startOf_append, lineCount, List.count_append, Nat.add_assoc]

theorem lineAt_append_left (text more : List Char) {p : Nat} (h : p ≤ text.length) :
    lineAt (text ++ more) p = lineAt text p := by
  rw [lineAt, List.take_append_of_le_length h, lineAt]

theorem lineAt_append_right (before text : List Char) (p : Nat) :
    lineAt (before ++ text) (before.length + p) = before.count '\n' + lineAt text p := by
  simp only [lineAt, List.take_length_add_append, List.count_append]
  omega

theorem lineAt_behind_word (text word rest : List Char) (h : word ++ rest <:+ text)
    (hne : word ≠ []) (hword : '\n' ∉ word) :
    lineAt text (startOf text (word ++ rest)) = lineAt text (startOf text rest - 1) := by
  obtain ⟨before, rfl⟩ := h
  obtain ⟨front, last, rfl⟩ := List.eq_nil_or_concat word |>.resolve_left hne
  have hfront : front.count '\n' = 0 := by
    rw [List.count_eq_zero]
    intro hmem
    exact hword (by simp [hmem])
  have hsplit : before ++ ((front ++ [last]) ++ rest) = (before ++ front) ++ last :: rest := by
    simp
  rw [← startOf_cons, lineAt_startOf_append, List.concat_eq_append, hsplit,
    lineAt_startOf_append, List.count_append, hfront, Nat.add_zero]

/-! ### Lines -/

theorem firstLine_append_behindLine (text : List Char) :
    firstLine text ++ behindLine text = text := by
  rw [firstLine, behindLine, List.append_assoc]
  have h : (text.dropWhile (· ≠ '\n')).take 1 ++ (text.dropWhile (· ≠ '\n')).tail
      = text.dropWhile (· ≠ '\n') := by
    cases text.dropWhile (· ≠ '\n') with
    | nil => rfl
    | cons a rest => rfl
  rw [h, List.takeWhile_append_dropWhile]

theorem behindLine_suffix (text : List Char) : behindLine text <:+ text :=
  ⟨firstLine text, firstLine_append_behindLine text⟩

theorem behindLine_length_le (text : List Char) : (behindLine text).length ≤ text.length :=
  (behindLine_suffix text).length_le

theorem dropWhile_newline_append {body : List Char} (h : '\n' ∉ body) (rest : List Char) :
    (body ++ rest).dropWhile (· ≠ '\n') = rest.dropWhile (· ≠ '\n') := by
  apply List.dropWhile_append_of_pos
  intro a ha
  have hne : a ≠ '\n' := fun he => h (he ▸ ha)
  simp [hne]

theorem behindLine_append_newline {body : List Char} (h : '\n' ∉ body) (rest : List Char) :
    behindLine (body ++ '\n' :: rest) = rest := by
  rw [behindLine, dropWhile_newline_append h]
  simp

theorem behindLine_of_not_mem {text : List Char} (h : '\n' ∉ text) : behindLine text = [] := by
  have hd := dropWhile_newline_append h []
  rw [List.append_nil] at hd
  rw [behindLine, hd]
  rfl

theorem firstLine_append {body : List Char} (h : '\n' ∉ body) (rest : List Char) :
    firstLine (body ++ rest) = body ++ firstLine rest := by
  have hbody : ∀ a ∈ body, decide (a ≠ '\n') = true := by
    intro a ha
    have hne : a ≠ '\n' := fun he => h (he ▸ ha)
    simp [hne]
  rw [firstLine, firstLine, List.takeWhile_append_of_pos hbody, dropWhile_newline_append h,
    List.append_assoc]

theorem firstLine_newline (rest : List Char) : firstLine ('\n' :: rest) = ['\n'] := by
  simp [firstLine]

theorem firstLine_append_newline {body : List Char} (h : '\n' ∉ body) (rest : List Char) :
    firstLine (body ++ '\n' :: rest) = body ++ ['\n'] := by
  rw [firstLine_append h, firstLine_newline]

theorem firstLine_of_not_mem {text : List Char} (h : '\n' ∉ text) : firstLine text = text := by
  have hfirst := firstLine_append h []
  have hnil : firstLine [] = [] := rfl
  rwa [hnil, List.append_nil] at hfirst

theorem firstLine_cons (a : Char) (rest : List Char) :
    ∃ v, v <+: rest ∧ firstLine (a :: rest) = a :: v := by
  by_cases ha : a = '\n'
  · subst ha
    exact ⟨[], List.nil_prefix, firstLine_newline rest⟩
  · have hmem : '\n' ∉ [a] := fun hmem => ha (List.mem_singleton.mp hmem).symm
    exact ⟨firstLine rest, ⟨behindLine rest, firstLine_append_behindLine rest⟩,
      firstLine_append hmem rest⟩

theorem line_around {body : List Char} (hbody : '\n' ∉ body) (a : Char) (rest before : List Char) :
    ∃ u v, v <+: rest ∧
      line (before ++ (body ++ a :: rest)) (1 + before.count '\n') = u ++ (body ++ a :: v) := by
  -- on the length of what stands in front: its first line is dropped, or there is none
  induction hn : before.length using Nat.strongRecOn generalizing before with
  | _ n ih =>
    by_cases hnl : '\n' ∈ before
    · obtain ⟨front, back, rfl, hfront⟩ := List.eq_append_cons_of_mem hnl
      have hlt : back.length < n := by
        rw [← hn, List.length_append, List.length_cons]
        omega
      obtain ⟨u, v, hv, hline⟩ := ih back.length hlt back rfl
      have hcount : (front ++ '\n' :: back).count '\n' = back.count '\n' + 1 := by
        rw [List.count_append, List.count_cons_self, List.count_eq_zero.mpr hfront, Nat.zero_add]
      refine ⟨u, v, hv, ?_⟩
      rw [hcount, Nat.add_comm 1, line, List.append_assoc, List.cons_append,
        behindLine_append_newline hfront, Nat.add_comm _ 1, hline]
    · obtain ⟨v, hv, hfirst⟩ := firstLine_cons a rest
      refine ⟨before, v, hv, ?_⟩
      rw [List.count_eq_zero.mpr hnl, Nat.add_zero, line, firstLine_append hnl,
        firstLine_append hbody, hfirst]

/-- The line of a character holds the word in front of it as well. -/
theorem line_of_word {text body rest : List Char} {a : Char} (hbody : '\n' ∉ body)
    (h : body ++ a :: rest <:+ text) :
    ∃ u v, v <+: rest ∧
      line text (lineAt text (startOf text (a :: rest))) = u ++ (body ++ a :: v) := by
  obtain ⟨before, rfl⟩ := h
  obtain ⟨u, v, hv, hline⟩ := line_around hbody a rest before
  have hnumber : lineAt (before ++ (body ++ a :: rest))
      (startOf (before ++ (body ++ a :: rest)) (a :: rest)) = 1 + before.count '\n' := by
    rw [← List.append_assoc, lineAt_startOf_append, List.count_append,
      List.count_eq_zero.mpr hbody, Nat.add_zero]
  exact ⟨u, v, hv, by rw [hnumber, hline]⟩

theorem line_nil (n : Nat) : line [] n = [] := by
  induction n with
  | zero => rfl
  | succ n ih =>
    cases n with
    | zero => rfl
    | succ n => exact ih

theorem behindLines_nil (n : Nat) : behindLines [] n = [] := by
  induction n with
  | zero => rfl
  | succ n ih => exact ih

end MicroLisp.Text
