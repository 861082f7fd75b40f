import MicroLisp.Proofs.Cursor.StringLiteral

/-!
# Words in front of any cursor

Reading a word takes the longest run of characters none of which ends a word: so many
characters are read and one more, which is put back if there is one
(`Over.readWord_of_longest`).  In front of a cursor within its text a word that is not
empty stands on one line, and reading it leaves the number of that line
(`Within.onOneLine`).
-/

namespace MicroLisp
open Text Grammar

namespace Grammar

/-- The longest beginning of a text none of whose characters ends a word. -/
structure LongestWord (text w : List Char) : Prop where
  front : w <+: text
  inside : ∀ a ∈ w, endsWord a = false
  longest : ∀ v, v <+: text → (∀ a ∈ v, endsWord a = false) → v.length ≤ w.length

variable {text w s : List Char}

theorem longestWord_wordOf (text : List Char) : LongestWord text (wordOf text) where
  front := ⟨behindWord text, wordOf_append_behindWord text⟩
  inside := fun _ ha => endsWord_of_mem_wordOf ha
  longest := by
    rintro v ⟨s, rfl⟩ hv
    have hv' : ∀ a ∈ v, (!endsWord a) = true := fun a ha => by simp [hv a ha]
    rw [wordOf, List.takeWhile_append_of_pos hv', List.length_append]
    exact Nat.le_add_right _ _

theorem LongestWord.eq_wordOf (h : LongestWord text w) : w = wordOf text := by
  have hw := longestWord_wordOf text
  have hlength := Nat.le_antisymm (hw.longest w h.front h.inside) (h.longest _ hw.front hw.inside)
  exact (List.prefix_of_prefix_length_le h.front hw.front (Nat.le_of_eq hlength)).eq_of_length hlength

theorem LongestWord.behind_eq (h : LongestWord text w) (hs : text = w ++ s) :
    behindWord text = s := by
  have hsplit := wordOf_append_behindWord text
  rw [← h.eq_wordOf] at hsplit
  exact List.append_cancel_left (hsplit.trans hs)

theorem existsUnique_longestWord (text : List Char) : ∃! w, LongestWord text w :=
  ⟨wordOf text, longestWord_wordOf text, fun _ h => h.eq_wordOf⟩

theorem LongestWord.ne_nil {a : Char} (h : LongestWord (a :: s) w) (ha : endsWord a = false) :
    w ≠ [] := by
  rintro rfl
  have hlength := h.longest [a] ⟨s, rfl⟩ (by simpa using ha)
  exact absurd hlength (by simp)

end Grammar

namespace Cursor

variable {text : List Char} {c rest : Cursor} {a : Char} {w s : List Char}

/-- The character at the beginning of `s` is put back, if there is one. -/
def restored (c : Cursor) : List Char → Cursor
  | [] => c
  | a :: _ => c.unread a

/-! ### Which characters are read -/

theorem Over.takeWordFrom_reads (h : Over text c) (taken : List Char) :
    (c.takeWordFrom taken).2 =
      (c.after (reads ((wordOf c.content).length + 1))).restored (behindWord c.content) := by
  fun_induction Cursor.takeWordFrom taken c with
  | case1 taken c r hr =>
    obtain ⟨hnil, -⟩ := h.read_eq_none hr
    rw [hnil]
    exact (congrArg Prod.snd hr).symm
  | case2 taken c b r hr hb =>
    rw [content_read hr, wordOf, behindWord, List.takeWhile_cons_of_neg (by simp [hb]),
      List.dropWhile_cons_of_neg (by simp [hb]), List.length_nil, after_reads_succ, hr]
    rfl
  | case3 taken c b r hr hb ih =>
    have hb' : endsWord b = false := by simpa using hb
    rw [content_read hr, wordOf_cons hb', behindWord_cons hb', List.length_cons, after_reads_succ, hr]
    exact ih ((kept_over text).of_read h hr)

/-- At the end of the text no line is left, not even an empty one. -/
theorem Over.waiting_takeWordFrom (h : Over text c) (taken : List Char)
    (hend : behindWord c.content = []) : (c.takeWordFrom taken).2.upcoming.waiting = [] := by
  fun_induction Cursor.takeWordFrom taken c with
  | case1 taken c r hr => exact (h.read_eq_none hr).2.2
  | case2 taken c b r hr hb =>
    rw [content_read hr, behindWord, List.dropWhile_cons_of_neg (by simp [hb])] at hend
    exact absurd hend (List.cons_ne_nil _ _)
  | case3 taken c b r hr hb ih =>
    have hb' : endsWord b = false := by simpa using hb
    rw [content_read hr, behindWord_cons hb'] at hend
    exact ih ((kept_over text).of_read h hr) hend

theorem Over.readWord_of_longest (h : Over text c) (hw : LongestWord c.content w)
    (hs : c.content = w ++ s) :
    let behind := (c.after (reads (w.length + 1))).restored s
    c.readWord = (Word.classify w,
        if Word.outOfRange w then behind.note (.outOfRange (String.ofList w)) else behind) ∧
      behind.content = s ∧ (s = [] → behind.pending = [] ∧ behind.upcoming.waiting = []) := by
  have hbehind := hw.behind_eq hs
  obtain rfl := hw.eq_wordOf
  obtain ⟨hword, hrest⟩ := h.takeWordFrom_eq []
  have hreads := h.takeWordFrom_reads []
  rw [hbehind] at hrest hreads
  have htake : c.takeWord = (wordOf c.content,
      (c.after (reads ((wordOf c.content).length + 1))).restored s) := Prod.ext hword hreads
  intro behind
  refine ⟨?_, ?_, ?_⟩
  · simp only [readWord, htake, behind]
  · rw [← hrest, hreads]
  · intro hnil
    have hwaiting := h.waiting_takeWordFrom [] (hbehind.trans hnil)
    rw [hreads] at hwaiting hrest
    rw [hnil, content, List.append_eq_nil_iff] at hrest
    exact ⟨hnil ▸ hrest.1, hwaiting⟩

/-! ### On which line -/

/-- A word in front of a cursor stands on one line of the text, and reading it leaves the cursor on
the line of its last character. -/
def OnOneLine (text : List Char) (c : Cursor) (w : List Char) : Prop :=
  c.readWord.2.line = lineAt text (startOf text c.content + w.length - 1) ∧
    ∃ u v, Text.line text c.readWord.2.line = u ++ (w ++ v)

theorem takeWordFrom_read (hr : c.read = (some a, rest)) (ha : endsWord a = false)
    (taken : List Char) : c.takeWordFrom taken = rest.takeWordFrom (a :: taken) := by
  rw [takeWordFrom]
  split
  · next hr' => simp [hr] at hr'
  · next hr' =>
    rw [hr] at hr'
    obtain ⟨hb, rfl⟩ := Prod.mk.inj hr'
    obtain rfl := Option.some.inj hb
    rw [if_neg (by simp [ha])]

theorem Within.line_readWord_of_read (h : Within text c) (hr : c.read = (some a, rest))
    (ha : endsWord a = false) : c.readWord.2.line = lineAt text (startOf text c.content) := by
  have hnl : a ≠ '\n' := by
    rintro rfl
    cases ha
  have hsettled := h.settled_of_read hr hnl
  rw [line_readWord, takeWord, takeWordFrom_read hr ha,
    hsettled.line_takeWordFrom ((kept_within text).of_read h hr), h.line_of_read hr]

theorem Within.onOneLine (h : Within text c) (hw : LongestWord c.content w) (hne : w ≠ []) :
    OnOneLine text c w := by
  obtain ⟨s, hs⟩ := hw.front
  have hnl : '\n' ∉ w := fun hmem => absurd (hw.inside _ hmem) (by decide)
  have hsuffix := h.content_suffix
  have hlength := hsuffix.length_le
  have hline : c.readWord.2.line = lineAt text (startOf text c.content) := by
    rcases hr : c.read with ⟨_ | a, rest⟩
    · obtain ⟨hnil, -⟩ := h.read_eq_none hr
      rw [hnil] at hs
      exact absurd (List.append_eq_nil_iff.mp hs).1 hne
    · obtain ⟨b, w', rfl⟩ := List.exists_cons_of_ne_nil hne
      have hcons := hs
      rw [content_read hr] at hcons
      obtain rfl := (List.cons.inj hcons).1
      exact h.line_readWord_of_read hr (hw.inside b List.mem_cons_self)
  rw [← hs] at hsuffix hlength hline
  rw [lineAt_behind_word text w s hsuffix hne hnl] at hline
  have hlast : startOf text s - 1 = startOf text (w ++ s) + w.length - 1 := by
    rw [List.length_append] at hlength
    simp only [startOf, List.length_append]
    omega
  refine ⟨by rw [hline, hlast, hs], ?_⟩
  -- the line of the last character holds the rest of the word in front of it
  obtain ⟨front, b, rfl⟩ := (List.eq_nil_or_concat w).resolve_left hne
  rw [List.concat_eq_append] at hnl hsuffix ⊢
  rw [List.append_assoc, List.singleton_append] at hsuffix
  have hfront : '\n' ∉ front := fun hmem => hnl (List.mem_append_left _ hmem)
  obtain ⟨u, v, -, htext⟩ := line_of_word hfront hsuffix
  refine ⟨u, v, ?_⟩
  rw [hline, ← startOf_cons _ s b, htext]
  simp

/-! ### How a call comes to a word -/

/-- A token is a delimiter, a string, or else the word of a character that has just been put back. -/
theorem Within.word_of_readToken (h : Within text c) {t : Token}
    (ht : c.readToken.1 = .ok (some t)) :
    t.kind.isDelimiter = true ∨ t.kind = .string ∨
      ∃ (a : Char) (rest : Cursor), Within text (rest.unread a) ∧ endsWord a = false ∧
        c.readToken = (.ok (some (rest.unread a).readWord.1), (rest.unread a).readWord.2) := by
  fun_induction Cursor.readToken c with
  | case1 c r hr => cases ht
  | case2 c b r hr hb ih => exact ih ((kept_within text).of_read h hr) ht
  | case3 c r hr hb ih => exact ih ((kept_within text).comment h hr) ht
  | case4 c r hr hb =>
    obtain rfl := Option.some.inj (Except.ok.inj ht)
    exact Or.inl rfl
  | case5 c r hr hb =>
    obtain rfl := Option.some.inj (Except.ok.inj ht)
    exact Or.inl rfl
  | case6 c r hr hb =>
    obtain rfl := Option.some.inj (Except.ok.inj ht)
    exact Or.inl rfl
  | case7 c r s r' hs hr =>
    obtain rfl := Option.some.inj (Except.ok.inj ht)
    exact Or.inr (Or.inl rfl)
  | case8 c r e r' hs hr => cases ht
  | case9 c b r hr hb hs ho hp hq hd t' r' hw =>
    have hends := endsWord_eq_false (by simpa using hb) hs ho hp hq
    refine Or.inr (Or.inr ⟨b, r, h.unread hr, hends, ?_⟩)
    rw [hw]

end Cursor
end MicroLisp
