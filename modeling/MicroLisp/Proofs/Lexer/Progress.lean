import MicroLisp.Proofs.Cursor.End
import MicroLisp.Proofs.Cursor.Turns
import MicroLisp.Proofs.Lexer.Run

/-!
# Progress

Each call comes to its end, and each token and each error takes a character of the text at
least, so that there are no more of them than characters.  At the end of the text nothing
changes any more, whatever is called (`read_progress`).
-/

namespace MicroLisp

namespace Cursor

variable {text : List Char} {c rest : Cursor}

theorem Exhausted.readToken (h : c.Exhausted) : c.readToken = (.ok none, c) := by
  rw [Cursor.readToken]
  split
  · next hr =>
    rw [h.read] at hr
    rw [(Prod.mk.inj hr).2]
  · next hr =>
    rw [h.read] at hr
    cases hr

theorem Over.exhausted (h : c.Over text) (hr : c.readToken = (.ok none, rest)) :
    rest.Exhausted := by
  fun_induction Cursor.readToken c with
  | case1 c r hread =>
    obtain ⟨-, rfl⟩ := Prod.mk.inj hr
    obtain ⟨-, hpending, hwaiting⟩ := h.read_eq_none hread
    exact ⟨hpending, hwaiting⟩
  | case2 c a r hread hb ih => exact ih ((kept_over text).of_read h hread) hr
  | case3 c r hread hb ih => exact ih ((kept_over text).comment h hread) hr
  | case4 | case5 | case6 | case7 | case8 | case9 => cases hr

end Cursor

namespace Lexer

variable {text : List Char} {l : Lexer}

/-- How many of the next `n` answers of `read` are tokens or errors. -/
def answered (l : Lexer) : Nat → Nat
  | 0 => 0
  | n + 1 =>
    match l.read.1 with
    | .ok none => l.read.2.answered n
    | _ => l.read.2.answered n + 1

/-! ### One call -/

theorem read_suffix (h : l.cursor.Within text) :
    l.read.2.cursor.content <:+ l.cursor.content := by
  have hrest : l.read.2.cursor.content = (scan l.cursor.content).rest := h.readToken_eq.2.1
  rw [hrest]
  exact rest_scan_suffix _

theorem length_content_of_read (h : l.cursor.Within text) (hread : l.read.1 ≠ .ok none) :
    l.read.2.cursor.content.length < l.cursor.content.length := by
  obtain ⟨hanswer, hrest, -⟩ := h.readToken_eq
  have hfound : scan l.cursor.content ≠ .finish := fun hfinish =>
    hread (hanswer.trans (Scan.answer_eq_end_iff.mpr hfinish))
  have hcontent : l.read.2.cursor.content = (scan l.cursor.content).rest := hrest
  rw [hcontent]
  exact length_rest_scan_lt hfound

theorem exhausted_of_read (h : l.cursor.Within text) (hread : l.read.1 = .ok none) :
    l.read.2.cursor.Exhausted :=
  h.toOver.exhausted (Prod.ext hread rfl)

/-! ### Further calls -/

theorem read_of_exhausted (h : l.cursor.Exhausted) : l.read = (.ok none, l) := by
  rw [read, h.readToken]

theorem cursor_call_of_exhausted (h : l.cursor.Exhausted) (k : Call) :
    (l.call k).cursor = l.cursor := by
  cases k with
  | read => rw [call, read_of_exhausted h]
  | next =>
    rw [call]
    cases hf : l.finished with
    | true => rw [next_of_finished hf]
    | false => rw [cursor_next hf, h.readToken]

theorem next_of_exhausted (h : l.cursor.Exhausted) : l.next.1 = none := by
  cases hf : l.finished with
  | true => rw [next_of_finished hf]
  | false => rw [next_end hf h.readToken]

theorem cursor_after_of_exhausted (h : l.cursor.Exhausted) (calls : List Call) :
    (l.after calls).cursor = l.cursor := by
  induction calls generalizing l with
  | nil => rfl
  | cons k calls ih =>
    have hcall := cursor_call_of_exhausted h k
    exact (ih (hcall ▸ h)).trans hcall

/-- What is left is shorter by each answer that is not the end. -/
theorem answered_le (h : l.cursor.Within text) (n : Nat) :
    l.answered n ≤ l.cursor.content.length := by
  induction n generalizing l with
  | zero => exact Nat.zero_le _
  | succ n ih =>
    have hwithin : l.read.2.cursor.Within text := (Cursor.kept_within text).readToken h
    have hrest := ih hwithin
    rw [answered]
    split
    · exact hrest.trans (read_suffix h).length_le
    · next hread => exact Nat.lt_of_le_of_lt hrest (length_content_of_read h hread)

theorem length_tokens_drain (l : Lexer) : l.drain.tokens.length ≤ l.cursor.content.length := by
  fun_induction drain l with
  | case1 | case2 => exact Nat.zero_le _
  | case3 l rest t hnext tail ih =>
    have hlt := length_content_of_next hnext
    exact Nat.lt_of_le_of_lt ih hlt

theorem read_progress (text : String) (calls : List Call) :
    let l := (ofText text).after calls
    l.cursor.readTokenIn (l.cursor.content.length + 1) = some l.cursor.readToken ∧
      l.read.2.cursor.content <:+ l.cursor.content ∧
      (l.read.1 ≠ .ok none → l.read.2.cursor.content.length < l.cursor.content.length) ∧
      (l.read.1 = .ok none → l.read.2.cursor.content = [] ∧ ∀ later,
        let m := l.read.2.after later
        m.cursor = l.read.2.cursor ∧ m.read = (.ok none, m) ∧ m.next.1 = none) ∧
      (∀ n, l.answered n ≤ l.cursor.content.length) ∧
      (∀ ts, l.tokens = .ok ts → ts.length ≤ l.cursor.content.length) ∧
      l.cursor.content.length ≤ text.toList.length := by
  intro l
  have h : l.cursor.Within text.toList := within_after text calls
  refine ⟨Cursor.readTokenIn_eq (Nat.le_refl _), read_suffix h, length_content_of_read h, ?_,
    answered_le h, ?_, h.content_suffix.length_le⟩
  · intro hread
    have hend := exhausted_of_read h hread
    refine ⟨hend.content, fun later => ?_⟩
    have hcursor := cursor_after_of_exhausted hend later
    have hend' : (l.read.2.after later).cursor.Exhausted := hcursor ▸ hend
    exact ⟨hcursor, read_of_exhausted hend', next_of_exhausted hend'⟩
  · intro ts hts
    obtain ⟨-, rfl⟩ := tokens_eq_ok_iff.mp hts
    exact length_tokens_drain l

/-- An escape that is none in front of a literal without an end, and the end behind them; and a run
over as many tokens as characters. -/
theorem read_progress_unclosed :
    let l := (ofText "\"\\x\" ;").after []
    let m := (ofText "\"\\x\" ;").after [.read, .read]
    l.read.2.cursor.content.length < l.cursor.content.length ∧
      (m.read.2.cursor.content = [] ∧ (m.read.2.after [.next, .read]).cursor = m.read.2.cursor) ∧
      [Token.leftParen, .symbol "x", .quote].length ≤ (ofText "(x'").cursor.content.length := by
  intro l m
  obtain ⟨-, -, hshorter, -⟩ := read_progress "\"\\x\" ;" []
  obtain ⟨-, -, -, hend, -⟩ := read_progress "\"\\x\" ;" [.read, .read]
  obtain ⟨-, -, -, -, -, htokens, -⟩ := read_progress "(x'" []
  obtain ⟨hcontent, hstays⟩ := hend (by decide +kernel)
  exact ⟨hshorter (by decide +kernel), ⟨hcontent, (hstays [.next, .read]).1⟩,
    htokens _ (tokens_eq_ok_iff.mpr (by decide +kernel))⟩

end Lexer
end MicroLisp
