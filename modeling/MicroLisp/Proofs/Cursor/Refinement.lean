import MicroLisp.Proofs.Cursor.Preservation
import MicroLisp.Proofs.Scan

/-!
# Cursors read what the flat scanner finds

A call on a cursor reads off its content exactly what the flat scanner finds
there, whatever lines the content is spread over.  For words and string literals
this holds of every cursor over a text; for whole tokens the cursor has to stand
within the text, since a comment is skipped with the line that holds it.  The
line number a call leaves is told by the position behind what it read.
-/

namespace MicroLisp

open Text

variable {text : List Char} {c rest : Cursor} {a : Char}

/-! ### Words -/

namespace Cursor

theorem Over.takeWordFrom_eq (h : Over text c) (taken : List Char) :
    (c.takeWordFrom taken).1 = taken.reverse ++ wordOf c.content ∧
      (c.takeWordFrom taken).2.content = behindWord c.content := by
  fun_induction Cursor.takeWordFrom taken c with
  | case1 taken c r hr =>
    obtain ⟨hnil, -⟩ := h.read_eq_none hr
    rw [content_of_read_eq_none hr, hnil]
    exact ⟨(List.append_nil _).symm, rfl⟩
  | case2 taken c b r hr hb =>
    rw [content_unread, content_read hr, wordOf, behindWord,
      List.takeWhile_cons_of_neg (by simp [hb]), List.dropWhile_cons_of_neg (by simp [hb])]
    exact ⟨(List.append_nil _).symm, rfl⟩
  | case3 taken c b r hr hb ih =>
    have hb' : endsWord b = false := by simpa using hb
    have hover := h.read
    rw [hr] at hover
    obtain ⟨hword, hrest⟩ := ih hover
    rw [content_read hr, wordOf_cons hb', behindWord_cons hb', hrest, hword]
    exact ⟨by simp, rfl⟩

theorem Over.readWord_eq (h : Over text c) :
    c.readWord.1 = Word.classify (wordOf c.content) ∧
      c.readWord.2.content = behindWord c.content := by
  obtain ⟨hword, hrest⟩ := h.takeWordFrom_eq []
  rw [List.reverse_nil, List.nil_append] at hword
  have hword' : c.takeWord.1 = wordOf c.content := hword
  have hrest' : c.takeWord.2.content = behindWord c.content := hrest
  simp only [readWord]
  refine ⟨by rw [hword'], ?_⟩
  split
  · rw [content_note, hrest']
  · exact hrest'

theorem Settled.line_takeWordFrom (hs : Settled c) (h : Within text c) (taken : List Char) :
    (c.takeWordFrom taken).2.line = c.line := by
  fun_induction Cursor.takeWordFrom taken c with
  | case1 taken c r hr =>
    have hline := hs.line_read
    rwa [hr] at hline
  | case2 taken c b r hr hb =>
    have hline := hs.line_read
    rwa [hr] at hline
  | case3 taken c b r hr hb ih =>
    have hline := hs.line_read
    have hwithin := h.read
    rw [hr] at hline hwithin
    -- a newline ends the word, so the rest of its line is still at hand
    have hb' : b ≠ '\n' := by
      rintro rfl
      exact hb rfl
    rw [ih (h.settled_of_read hr hb') hwithin, hline]

theorem line_readWord (c : Cursor) : c.readWord.2.line = c.takeWord.2.line := by
  simp only [readWord]
  split
  · rfl
  · rfl

theorem Settled.line_readWord (hs : Settled c) (h : Within text c) :
    c.readWord.2.line = c.line :=
  (Cursor.line_readWord c).trans (hs.line_takeWordFrom h [])

end Cursor

/-! ### String literals -/

theorem unescape?_of_unescape_eq_ok {e b : Char} {line : Nat} (h : unescape e line = .ok b) :
    unescape? e = some b := by
  unfold unescape at h
  split at h
  · next he =>
    rw [he]
    exact congrArg some (Except.ok.inj h)
  · cases h

theorem unescape?_of_unescape_eq_error {e : Char} {line : Nat} {err : Error}
    (h : unescape e line = .error err) :
    unescape? e = none ∧ err = .unsupportedEscape e line := by
  unfold unescape at h
  split at h
  · cases h
  · next he => exact ⟨he, (Except.error.inj h).symm⟩

namespace Literal

/-- The answer for a literal that starts on line `opening`, when `line` is the line that the
reading of it has come to and `taken` has been decoded before. -/
def answer (opening line : Nat) (taken : List Char) : Literal → Except Error String
  | .closed value _ => .ok (String.ofList (taken.reverse ++ value))
  | .badEscape e _ => .error (.unsupportedEscape e line)
  | .unclosed => .error (.unterminatedString opening)

theorem answer_push (opening line : Nat) (taken : List Char) (a : Char) (l : Literal) :
    (l.push a).answer opening line taken = l.answer opening line (a :: taken) := by
  cases l with
  | closed value rest => simp [push, answer]
  | badEscape e rest => rfl
  | unclosed => rfl

def lastLine (text : List Char) : Literal → Nat
  | .closed _ rest | .badEscape _ rest => lineAt text (startOf text rest - 1)
  | .unclosed => lineCount text

theorem lastLine_push (text : List Char) (a : Char) (l : Literal) :
    (l.push a).lastLine text = l.lastLine text := by
  cases l <;> rfl

theorem answer_found (text literal : List Char) (l : Literal) :
    (l.found literal).answer text =
      (l.answer (lineAt text (startOf text literal)) (l.lastLine text) []).map
        fun s => some (.string s) := by
  cases l <;> rfl

end Literal

namespace Cursor

theorem Over.readStringFrom_eq (h : Over text c) (opening : Nat) (taken : List Char) :
    (c.readStringFrom opening taken).1 =
        (Literal.read c.content).answer opening (c.readStringFrom opening taken).2.line taken ∧
      (c.readStringFrom opening taken).2.content = (Literal.read c.content).rest := by
  fun_induction Cursor.readStringFrom opening taken c with
  | case1 taken c r hr =>
    obtain ⟨hnil, -⟩ := h.read_eq_none hr
    rw [content_of_read_eq_none hr, hnil]
    exact ⟨rfl, rfl⟩
  | case2 taken c r hr =>
    rw [content_read hr, Literal.read_quote]
    exact ⟨by rw [Literal.answer, List.append_nil], rfl⟩
  | case3 taken c r r' hr' hr hq =>
    have hover := (kept_over text).of_read h hr
    obtain ⟨hnil, -⟩ := hover.read_eq_none hr'
    rw [content_of_read_eq_none hr', content_read hr, hnil, Literal.read_backslash]
    exact ⟨rfl, rfl⟩
  | case4 taken c r e r' hr' b hb hr hq ih =>
    have hover := (kept_over text).of_read ((kept_over text).of_read h hr) hr'
    obtain ⟨hanswer, hrest⟩ := ih hover
    have he := unescape?_of_unescape_eq_ok hb
    rw [content_read hr, content_read hr', Literal.read_escape he, Literal.answer_push,
      Literal.rest_push]
    exact ⟨hanswer, hrest⟩
  | case5 taken c r e r' hr' err herr hr hq =>
    obtain ⟨he, rfl⟩ := unescape?_of_unescape_eq_error herr
    rw [content_read hr, content_read hr', Literal.read_badEscape he]
    exact ⟨rfl, rfl⟩
  | case6 taken c b r hr hq hb ih =>
    obtain ⟨hanswer, hrest⟩ := ih ((kept_over text).of_read h hr)
    rw [content_read hr, Literal.read_raw hq hb, Literal.answer_push, Literal.rest_push]
    exact ⟨hanswer, hrest⟩

theorem Within.line_of_read_cons (h : Within text c) (hr : c.read = (some a, rest)) :
    rest.line = lineAt text (startOf text rest.content - 1) := by
  rw [h.line_of_read hr, content_read hr, startOf_cons]

theorem Within.line_readStringFrom (h : Within text c) (opening : Nat) (taken : List Char) :
    (c.readStringFrom opening taken).2.line = (Literal.read c.content).lastLine text := by
  fun_induction Cursor.readStringFrom opening taken c with
  | case1 taken c r hr =>
    obtain ⟨hnil, -⟩ := h.read_eq_none hr
    rw [h.line_of_read_eq_none hr, hnil]
    rfl
  | case2 taken c r hr =>
    rw [h.line_of_read_cons hr, content_read hr, Literal.read_quote]
    rfl
  | case3 taken c r r' hr' hr hq =>
    have hwithin := (kept_within text).of_read h hr
    obtain ⟨hnil, -⟩ := hwithin.read_eq_none hr'
    rw [hwithin.line_of_read_eq_none hr', content_read hr, hnil]
    rfl
  | case4 taken c r e r' hr' b hb hr hq ih =>
    have hwithin := (kept_within text).of_read ((kept_within text).of_read h hr) hr'
    have he := unescape?_of_unescape_eq_ok hb
    rw [ih hwithin, content_read hr, content_read hr', Literal.read_escape he,
      Literal.lastLine_push]
  | case5 taken c r e r' hr' err herr hr hq =>
    have hwithin := (kept_within text).of_read h hr
    obtain ⟨he, -⟩ := unescape?_of_unescape_eq_error herr
    rw [hwithin.line_of_read_cons hr', content_read hr, content_read hr',
      Literal.read_badEscape he]
    rfl
  | case6 taken c b r hr hq hb ih =>
    rw [ih ((kept_within text).of_read h hr), content_read hr, Literal.read_raw hq hb,
      Literal.lastLine_push]

end Cursor

/-! ### Tokens -/

/-- The line that a scan comes to. -/
def Scan.lastLine (text : List Char) : Scan → Nat
  | .finish | .unclosed _ => lineCount text
  | .token _ rest | .badEscape _ rest => lineAt text (startOf text rest - 1)

theorem Literal.lastLine_found (text literal : List Char) (l : Literal) :
    (l.found literal).lastLine text = l.lastLine text := by
  cases l <;> rfl

namespace Cursor

theorem Within.readString_eq (h : Within text c) (hr : c.read = (some '"', rest))
    {result : Except Error String} {left : Cursor} (hs : rest.readString = (result, left)) :
    (result.map fun s => some (.string s)) =
        ((Literal.read rest.content).found ('"' :: rest.content)).answer text ∧
      left.content = ((Literal.read rest.content).found ('"' :: rest.content)).rest ∧
      left.line = ((Literal.read rest.content).found ('"' :: rest.content)).lastLine text := by
  have hwithin := (kept_within text).of_read h hr
  obtain ⟨hanswer, hrest⟩ := hwithin.readStringFrom_eq rest.line []
  have hline := hwithin.line_readStringFrom rest.line []
  have hs' : rest.readStringFrom rest.line [] = (result, left) := hs
  have hopening := h.line_of_read hr
  rw [content_read hr] at hopening
  rw [hs'] at hanswer hrest hline
  refine ⟨?_, ?_, ?_⟩
  · rw [Literal.answer_found, ← hopening, ← hline, ← hanswer]
  · rw [Literal.rest_found, ← hrest]
  · rw [Literal.lastLine_found, ← hline]

/-- The word of a character that is just put back. -/
theorem Within.readWord_unread_eq (h : Within text c) (hr : c.read = (some a, rest))
    (ha : endsWord a = false) {t : Token} {left : Cursor}
    (hw : (rest.unread a).readWord = (t, left)) :
    t = Word.classify (wordOf c.content) ∧
      left.content = behindWord c.content ∧
      left.line = lineAt text (startOf text (behindWord c.content) - 1) := by
  have hwithin := h.unread hr
  obtain ⟨hword, hrest⟩ := hwithin.readWord_eq
  have hline := (settled_unread a rest).line_readWord hwithin
  rw [hw] at hword hrest hline
  rw [content_unread, ← content_read hr] at hword hrest
  refine ⟨hword, hrest, ?_⟩
  have hsplit := wordOf_append_behindWord c.content
  have hstart : rest.line = lineAt text (startOf text c.content) := h.line_of_read hr
  have hstays : left.line = rest.line := hline
  rw [hstays, hstart, ← lineAt_behind_word text (wordOf c.content), hsplit]
  · rw [hsplit]
    exact h.content_suffix
  · rw [content_read hr, wordOf_cons ha]
    exact List.cons_ne_nil _ _
  · intro hmem
    exact absurd (endsWord_of_mem_wordOf hmem) (by decide)

/-- What a call answers and leaves is what the flat scan of the content finds. -/
theorem Within.readToken_eq (h : Within text c) :
    c.readToken.1 = (scan c.content).answer text ∧
      c.readToken.2.content = (scan c.content).rest ∧
      c.readToken.2.line = (scan c.content).lastLine text := by
  fun_induction Cursor.readToken c with
  | case1 c r hr =>
    obtain ⟨hnil, -⟩ := h.read_eq_none hr
    rw [content_of_read_eq_none hr, h.line_of_read_eq_none hr, hnil, scan_nil]
    exact ⟨rfl, rfl, rfl⟩
  | case2 c b r hr hb ih =>
    rw [content_read hr, scan_blank hb]
    exact ih ((kept_within text).of_read h hr)
  | case3 c r hr hb ih =>
    have hwithin := (kept_within text).of_read h hr
    -- the rest of the line goes, and behind its newline the next one begins
    have hnext := ih (hwithin.note (.commentSkipped r.line)).toOver.within_nextLine
    rw [content_nextLine] at hnext
    have hcontent : (r.note (.commentSkipped r.line)).upcoming.text = behindLine r.content :=
      (h.behindLine_of_read hr (by decide)).symm
    rw [content_read hr, scan_comment, ← hcontent]
    exact hnext
  | case4 c r hr hb =>
    rw [content_read hr, scan_start (by decide) (by decide), h.line_of_read_cons hr]
    exact ⟨rfl, rfl, rfl⟩
  | case5 c r hr hb =>
    rw [content_read hr, scan_start (by decide) (by decide), h.line_of_read_cons hr]
    exact ⟨rfl, rfl, rfl⟩
  | case6 c r hr hb =>
    rw [content_read hr, scan_start (by decide) (by decide), h.line_of_read_cons hr]
    exact ⟨rfl, rfl, rfl⟩
  | case7 c r s r' hs hr =>
    obtain ⟨hanswer, hrest, hline⟩ := h.readString_eq hr hs
    rw [content_read hr, scan_start (by decide) (by decide), lexeme_quote]
    exact ⟨hanswer, hrest, hline⟩
  | case8 c r e r' hs hr =>
    obtain ⟨hanswer, hrest, hline⟩ := h.readString_eq hr hs
    rw [content_read hr, scan_start (by decide) (by decide), lexeme_quote]
    exact ⟨hanswer, hrest, hline⟩
  | case9 c b r hr hb hs ho hp hq hd t' r' hw =>
    have hb' : isBlank b = false := by simpa using hb
    have hends := endsWord_eq_false hb' hs ho hp hq
    obtain ⟨ht, hrest, hline⟩ := h.readWord_unread_eq hr hends hw
    rw [content_read hr] at ht hrest hline ⊢
    rw [scan_start hb' hs, lexeme_word hends hd]
    exact ⟨by rw [ht]; rfl, hrest, hline⟩

end Cursor
end MicroLisp
