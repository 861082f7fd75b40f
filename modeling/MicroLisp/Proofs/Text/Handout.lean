import MicroLisp.Proofs.Text.Lines

/-!
# Lines handed out one by one

However often the next line is asked for, what has been handed out and what later
requests will hand out are together the text (`handed_append`).  A text with `k`
newlines has `k + 1` lines, of which only the last one lacks its newline, and no
character but the newline has a say in where a line ends (`handout_of_text`).
-/

namespace MicroLisp.Lines

variable {q : Lines} {text : List Char}

/-- Asks for the next line.  When none waits, nothing changes. -/
def next (q : Lines) : Option (List Char) × Lines :=
  match q.pop? with
  | some (l, rest) => (some l, rest)
  | none => (none, q)

/-- The lines that wait behind `n` requests. -/
def behind (q : Lines) : Nat → Lines
  | 0 => q
  | n + 1 => (q.behind n).next.2

/-- What `n` requests hand out, put together. -/
def handed (q : Lines) : Nat → List Char
  | 0 => []
  | n + 1 => q.handed n ++ (q.behind n).next.1.getD []

/-! ### One request -/

theorem next_eq (q : Lines) : q.next = (q.waiting.head?, ⟨q.waiting.tail⟩) := by
  obtain ⟨_ | ⟨l, ls⟩⟩ := q
  · rfl
  · rfl

theorem text_next (q : Lines) : q.next.1.getD [] ++ q.next.2.text = q.text := by
  obtain ⟨_ | ⟨l, ls⟩⟩ := q
  · rfl
  · rfl

/-! ### Any number of requests -/

theorem behind_eq (q : Lines) (n : Nat) : q.behind n = ⟨q.waiting.drop n⟩ := by
  induction n with
  | zero => rfl
  | succ n ih => rw [behind, ih, next_eq, List.tail_drop]

theorem next_behind (q : Lines) (n : Nat) : (q.behind n).next.1 = q.waiting[n]? := by
  rw [behind_eq, next_eq, List.head?_drop]

theorem remaining_behind (q : Lines) (n : Nat) : (q.behind n).remaining = q.remaining - n := by
  rw [behind_eq, remaining, remaining, List.length_drop]

theorem next_of_remaining (h : q.remaining = 0) : q.next = (none, q) := by
  obtain ⟨ls⟩ := q
  obtain rfl := List.length_eq_zero_iff.mp h
  rfl

theorem handed_append_text (q : Lines) (n : Nat) : q.handed n ++ (q.behind n).text = q.text := by
  induction n with
  | zero => rfl
  | succ n ih => rw [handed, behind, List.append_assoc, text_next, ih]

theorem handed_eq_text {n : Nat} (h : q.remaining ≤ n) : q.handed n = q.text := by
  have hall := handed_append_text q n
  have hnil : (q.behind n).text = [] := by
    rw [behind_eq, text, List.drop_eq_nil_of_le h]
    rfl
  rwa [hnil, List.append_nil] at hall

theorem handed_append {n m : Nat} (h : (q.behind n).remaining ≤ m) :
    q.handed n ++ (q.behind n).handed m = q.text := by
  rw [handed_eq_text h, handed_append_text]

/-! ### Where lines end -/

/-- The pieces between the newlines, each with its newline back when another one follows. -/
theorem Cut.getElem?_eq_split {ls : List (List Char)} (h : Cut ls) (n : Nat) :
    ls[n]? = (ls.flatten.splitOn '\n')[n]?.map (· ++ if n + 1 < ls.length then ['\n'] else []) := by
  induction h generalizing n with
  | @last l hl =>
    rw [List.flatten_singleton, List.splitOn_eq_singleton hl]
    cases n with
    | zero => simp
    | succ n => simp
  | @more l ls hl hls ih =>
    have hflat : ((l ++ ['\n']) :: ls).flatten = l ++ '\n' :: ls.flatten := by simp
    have hpos := List.length_pos_iff.mpr hls.ne_nil
    rw [hflat, List.splitOn_append_cons_self, List.splitOn_eq_singleton hl, List.singleton_append]
    cases n with
    | zero => simp [hpos]
    | succ n => simpa using ih n

theorem extend_map {f : Char → Char} (h : ∀ c, f c = '\n' ↔ c = '\n') (c : Char)
    (ls : List (List Char)) : extend (f c) (ls.map (List.map f)) = (extend c ls).map (List.map f) := by
  cases ls with
  | nil => rfl
  | cons l ls =>
    by_cases hc : c = '\n'
    · simp [extend, hc, (h '\n').mpr rfl]
    · simp [extend, hc, h]

theorem waiting_map {f : Char → Char} (h : ∀ c, f c = '\n' ↔ c = '\n') (text : List Char) :
    (ofText (text.map f)).waiting = (ofText text).waiting.map (List.map f) := by
  induction text with
  | nil => rfl
  | cons c text ih =>
    simp only [ofText, List.map_cons, List.foldr_cons] at ih ⊢
    rw [ih, extend_map h]

/-- Of a text with `k` newlines each of the first `k` requests hands out a line that ends in its only
newline, the next one a line without a newline, and all later ones nothing: these are the pieces
between the newlines, which get their newline back while more are to come.  Nothing is lost or added
at any time, and other characters can be exchanged for one another without moving the end of a line. -/
theorem handout_of_text (text : List Char) (n : Nat) :
    let k := text.count '\n'
    let q := (ofText text).behind n
    (ofText text).remaining = k + 1 ∧
      q.remaining = k + 1 - n ∧
      (k < n → q.next = (none, q)) ∧
      (n < k → ∃ l, q.next.1 = some (l ++ ['\n']) ∧ '\n' ∉ l) ∧
      (n = k → ∃ l, q.next.1 = some l ∧ '\n' ∉ l ∧
        (l = [] ↔ text = [] ∨ text.getLast? = some '\n')) ∧
      q.next.1 = (text.splitOn '\n')[n]?.map
        (· ++ if q.next.2.remaining = 0 then [] else ['\n']) ∧
      (∀ m, q.remaining ≤ m → (ofText text).handed n ++ q.handed m = text) ∧
      ∀ f : Char → Char, (∀ c, f c = '\n' ↔ c = '\n') →
        ((ofText (text.map f)).behind n).next.1 = q.next.1.map (List.map f) := by
  intro k q
  have hcut := cut_ofText text
  have htext : (ofText text).waiting.flatten = text := text_ofText text
  have htotal : (ofText text).remaining = k + 1 := (remaining_ofText text).trans (Nat.add_comm 1 k)
  have hlength : (ofText text).waiting.length = k + 1 := htotal
  have hnext : q.next.1 = (ofText text).waiting[n]? := next_behind _ n
  have hrest : q.remaining = k + 1 - n := by rw [← htotal, ← remaining_behind]
  have hlater : q.next.2.remaining = k + 1 - (n + 1) := by
    rw [← htotal, ← remaining_behind]
    rfl
  refine ⟨htotal, hrest, fun hn => next_of_remaining (by omega), fun hn => ?_, fun hn => ?_, ?_, ?_,
    ?_⟩
  · rw [hnext]
    exact hcut.getElem? (by omega)
  · obtain ⟨l, hlast, hmem, hempty⟩ := hcut.getLast?
    rw [htext] at hempty
    rw [List.getLast?_eq_getElem?, hlength, Nat.add_sub_cancel, ← hn, ← hnext] at hlast
    exact ⟨l, hlast, hmem, hempty⟩
  · rw [hnext, hcut.getElem?_eq_split, htext, hlength, hlater]
    by_cases hn : n < k
    · rw [if_pos (Nat.succ_lt_succ hn), if_neg (by omega)]
    · rw [if_neg (by omega), if_pos (by omega)]
  · intro m hm
    rw [handed_append hm]
    exact text_ofText text
  · intro f hf
    rw [next_behind, waiting_map hf, List.getElem?_map, hnext]

/-- Separators other than the newline stay inside their line. -/
theorem handout_of_text_separators :
    let text := ['a', '\r', '\n', '\u2028', '\n']
    let q := (ofText text).behind 2
    let f := fun c => if c = '\r' then '\u2028' else c
    ((ofText text).behind 3).next = (none, (ofText text).behind 3) ∧
      (∃ l, ((ofText text).behind 1).next.1 = some (l ++ ['\n']) ∧ '\n' ∉ l) ∧
      (∃ l, q.next.1 = some l ∧ '\n' ∉ l ∧ (l = [] ↔ text = [] ∨ text.getLast? = some '\n')) ∧
      (ofText text).handed 2 ++ q.handed 1 = text ∧
      ((ofText (text.map f)).behind 2).next.1 = q.next.1.map (List.map f) := by
  intro text q f
  have hf : ∀ c, f c = '\n' ↔ c = '\n' := by
    intro c
    by_cases hc : c = '\r'
    · simp [f, hc]
    · simp [f, hc]
  obtain ⟨-, -, hnone, -⟩ := handout_of_text text 3
  obtain ⟨-, -, -, hline, -⟩ := handout_of_text text 1
  obtain ⟨-, -, -, -, hlast, -, hall, hmap⟩ := handout_of_text text 2
  exact ⟨hnone (by decide), hline (by decide), hlast (by decide), hall 1 (by decide), hmap f hf⟩

end MicroLisp.Lines
