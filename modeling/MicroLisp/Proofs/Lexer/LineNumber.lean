import MicroLisp.Proofs.Grammar.Parse
import MicroLisp.Proofs.Lexer.Run

/-!
# The line number of a run

However a run is driven, its cursor keeps to the lines of the text, and the line
number behind a call says where the call has come to: to the last character of a
token, to the letter of a bad escape, to the last line at the end of the text.
-/

namespace MicroLisp.Lexer
open Text Grammar

variable {text : List Char} {c : Cursor} {l : Lexer}

/-- Where a call that takes the cursor `c` to `rest` has come to, by its answer. -/
def LineBehind (text : List Char) (c rest : Cursor) : Except Error (Option Token) → Prop
  | .ok (some t) =>
    ∃ b spelling a, Blank b ∧ Lexeme (spelling ++ [a]) t ∧
      c.content = b ++ (spelling ++ a :: rest.content) ∧
      rest.line = lineAt text (startOf text (a :: rest.content))
  | .ok none => rest.line = lineCount text
  | .error (.unsupportedEscape letter n) => rest.line = n ∧ ['\\', letter] <:+: Text.line text n
  | .error (.unterminatedString n) =>
    n ≤ rest.line ∧ rest.line = lineCount text ∧
      ∃ b enc value backslash, Blank b ∧ Encoding enc value ∧
        c.content = b ++ '"' :: (enc ++ tail backslash) ∧
        n = lineAt text (startOf text ('"' :: (enc ++ tail backslash))) ∧
        ∃ u v, v <+: enc ++ tail backslash ∧ Text.line text n = u ++ '"' :: v
  | .error _ => False

/-! ### Behind a call -/

theorem lineBehind_badEscape {b enc s : List Char} {letter : Char}
    (h : b ++ '"' :: (enc ++ '\\' :: letter :: s) <:+ text) :
    ['\\', letter] <:+: Text.line text (lineAt text (startOf text s - 1)) := by
  have hletter : ['\\'] ++ letter :: s <:+ text := by
    refine List.IsSuffix.trans ⟨b ++ '"' :: enc, ?_⟩ h
    simp
  obtain ⟨u, v, -, hline⟩ := line_of_word (by decide) hletter
  rw [← startOf_cons _ s letter, hline]
  exact ⟨u, v, by simp⟩

theorem lineBehind_readToken (h : c.Within text) :
    LineBehind text c c.readToken.2 c.readToken.1 := by
  obtain ⟨hanswer, hrest, hline⟩ := h.readToken_eq
  have hsuffix := h.content_suffix
  rw [hanswer]
  rcases scan_sound c.content with ⟨e, he, hcontent⟩ | ⟨b, l, s, t, hcontent, hscan, hb, hl, -⟩
  · have hscan := he.scan_eq
    rw [← hcontent] at hscan
    rw [hcontent] at hsuffix
    rw [hscan] at hrest hline ⊢
    cases he with
    | closed hb => exact hline
    | badEscape hb henc he => exact ⟨hline, lineBehind_badEscape hsuffix⟩
    | @unclosed b enc value backslash hb henc =>
      have hquote : [] ++ '"' :: (enc ++ tail backslash) <:+ text :=
        (List.suffix_append b _).trans hsuffix
      have hle := lineAt_startOf hquote
      obtain ⟨u, v, hv, hopening⟩ := line_of_word List.not_mem_nil hquote
      have hlast : c.readToken.2.line = lineCount text := hline
      refine ⟨?_, hlast, b, enc, value, backslash, hb, henc, hcontent, rfl, u, v, hv, hopening⟩
      rw [hlast, ← hle]
      exact Nat.le_add_right _ _
  · rw [hscan] at hrest hline ⊢
    have hne : l ≠ [] := by
      obtain ⟨a, w, rfl, -⟩ := hl.start
      exact List.cons_ne_nil a w
    obtain ⟨spelling, a, rfl⟩ := (List.eq_nil_or_concat l).resolve_left hne
    rw [List.concat_eq_append] at hl hcontent
    have hleft : c.readToken.2.content = s := hrest
    refine ⟨b, spelling, a, hb, hl, ?_, ?_⟩
    · rw [hleft, hcontent]
      simp
    · rw [hleft, startOf_cons]
      exact hline

theorem lineBehind_next (h : l.cursor.Within text) :
    match l.next.1 with
    | some answer => LineBehind text l.cursor l.next.2.cursor (answer.map some)
    | none => l.next.2 = l ∨ l.next.2.line = lineCount text := by
  cases hf : l.finished with
  | true =>
    rw [next_of_finished hf]
    exact Or.inl rfl
  | false =>
    have hread := lineBehind_readToken h
    rcases hr : l.cursor.readToken with ⟨e | (_ | t), rest⟩
    · rw [hr] at hread
      rw [next_error hf hr]
      exact hread
    · rw [hr] at hread
      rw [next_end hf hr]
      exact Or.inr hread
    · rw [hr] at hread
      rw [next_token hf hr]
      exact hread

/-- The lines that a run holds behind any calls, and the line number that the next call leaves. -/
theorem line_after_calls (text : String) (calls : List Call) :
    let l := (ofText text).after calls
    l.cursor.pending <:+ Text.line text.toList l.line ∧
      l.cursor.pending ++ l.cursor.upcoming.text <:+ text.toList ∧
      l.line + l.cursor.upcoming.remaining = lineCount text.toList ∧
      (∀ more, l.line ≤ (l.after more).line) ∧
      LineBehind text.toList l.cursor l.read.2.cursor l.read.1 ∧
      match l.next.1 with
      | some answer => LineBehind text.toList l.cursor l.next.2.cursor (answer.map some)
      | none => l.next.2 = l ∨ l.next.2.line = lineCount text.toList := by
  intro l
  have h : l.cursor.Within text.toList := within_after text calls
  exact ⟨h.pending, h.content_suffix, h.line, line_le_after l, lineBehind_readToken h,
    lineBehind_next h⟩

end MicroLisp.Lexer
