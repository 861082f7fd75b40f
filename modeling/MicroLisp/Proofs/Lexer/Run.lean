import MicroLisp.Proofs.Lexer.Calls

/-!
# A whole run

Draining a run delivers the tokens that the flat scanner finds in what is left of
the text, and ends as the scan ends (`drain_eq`).
-/

namespace MicroLisp

open Text

/-- The error in which a scan of an end of `text` ends, if it does. -/
def Scan.failure (text : List Char) : Scan → Option Error
  | .finish | .token _ _ => none
  | .badEscape e rest => some (.unsupportedEscape e (lineAt text (startOf text rest - 1)))
  | .unclosed literal => some (.unterminatedString (lineAt text (startOf text literal)))

namespace Lexer

variable {text : List Char} {l : Lexer} {c : Cursor}

/-! ### Draining, call by call -/

theorem next_token {t : Token} (hf : l.finished = false)
    (hr : l.cursor.readToken = (.ok (some t), c)) : l.next = (some (.ok t), ⟨c, false⟩) := by
  simp [next, hf, hr]

theorem next_end (hf : l.finished = false) (hr : l.cursor.readToken = (.ok none, c)) :
    l.next = (none, ⟨c, true⟩) := by
  simp [next, hf, hr]

theorem next_error {e : Error} (hf : l.finished = false)
    (hr : l.cursor.readToken = (.error e, c)) : l.next = (some (.error e), ⟨c, true⟩) := by
  simp [next, hf, hr]

theorem drain_token {t : Token} {rest : Lexer} (h : l.next = (some (.ok t), rest)) :
    l.drain = { rest.drain with tokens := t :: rest.drain.tokens } := by
  rw [drain]
  split <;> simp_all

theorem drain_end {rest : Lexer} (h : l.next = (none, rest)) : l.drain = ⟨[], none, rest⟩ := by
  rw [drain]
  split <;> simp_all

theorem drain_error {e : Error} {rest : Lexer} (h : l.next = (some (.error e), rest)) :
    l.drain = ⟨[], some e, rest⟩ := by
  rw [drain]
  split <;> simp_all

theorem kept_drain {P : Cursor → Prop} (kept : Cursor.Kept P) {l : Lexer}
    (h : P l.cursor) : P l.drain.last.cursor := by
  fun_induction drain l with
  | case1 l rest hnext =>
    have hrest : P l.next.2.cursor := kept_call kept h .next
    rwa [hnext] at hrest
  | case2 l rest e hnext =>
    have hrest : P l.next.2.cursor := kept_call kept h .next
    rwa [hnext] at hrest
  | case3 l rest t hnext tail ih =>
    have hrest : P l.next.2.cursor := kept_call kept h .next
    rw [hnext] at hrest
    exact ih hrest

/-- Each token of a run is the answer of a call that was made on the way. -/
theorem exists_call {P : Cursor → Prop} (kept : Cursor.Kept P) (h : P l.cursor) {t : Token}
    (ht : t ∈ l.drain.tokens) : ∃ c, P c ∧ c.readToken.1 = .ok (some t) := by
  fun_induction drain l with
  | case1 l rest hnext => cases ht
  | case2 l rest e hnext => cases ht
  | case3 l rest u hnext tail ih =>
    rcases List.mem_cons.mp ht with rfl | ht
    · refine ⟨l.cursor, h, ?_⟩
      unfold next at hnext
      split at hnext
      · cases hnext
      · split at hnext <;> simp_all
    · have hrest : P l.next.2.cursor := kept_call kept h .next
      rw [hnext] at hrest
      exact ih hrest ht

/-- The answer of the last call of a run. -/
def Outcome.lastAnswer (o : Outcome) : Except Error (Option Token) :=
  match o.failure with
  | none => .ok none
  | some e => .error e

/-- The cursor in front of the last call has what every call that delivers a token keeps. -/
theorem exists_last_call {P : Cursor → Prop}
    (step : ∀ {c rest : Cursor} {t : Token}, P c → c.readToken = (.ok (some t), rest) → P rest)
    (h : P l.cursor) (hf : l.finished = false) :
    ∃ c, P c ∧ c.readToken = (l.drain.lastAnswer, l.drain.last.cursor) := by
  induction hn : l.cursor.content.length using Nat.strongRecOn generalizing l with
  | _ n ih =>
    rcases hr : l.cursor.readToken with ⟨e | (_ | t), c⟩
    · rw [drain_error (next_error hf hr)]
      exact ⟨l.cursor, h, hr⟩
    · rw [drain_end (next_end hf hr)]
      exact ⟨l.cursor, h, hr⟩
    · have hlt := Cursor.length_content_of_readToken hr
      rw [hn] at hlt
      rw [drain_token (next_token hf hr)]
      exact ih c.content.length hlt (l := ⟨c, false⟩) (step h hr) rfl rfl

/-! ### The result of a run -/

theorem tokens_eq_ok_iff {ts : List Token} :
    l.tokens = .ok ts ↔ l.drain.failure = none ∧ l.drain.tokens = ts := by
  rw [tokens, Outcome.result]
  cases l.drain.failure with
  | none => simp
  | some e => simp

theorem tokens_eq_error_iff {e : Error} : l.tokens = .error e ↔ l.drain.failure = some e := by
  rw [tokens, Outcome.result]
  cases l.drain.failure with
  | none => simp
  | some e' => simp

/-! ### Draining and scanning -/

theorem drain_eq (h : l.cursor.Within text) (hf : l.finished = false) :
    l.drain.tokens = (scanAll l.cursor.content).1 ∧
      l.drain.failure = (scanAll l.cursor.content).2.failure text := by
  induction hn : l.cursor.content.length using Nat.strongRecOn generalizing l with
  | _ n ih =>
    obtain ⟨hanswer, hrest, -⟩ := h.readToken_eq
    have hwithin := (Cursor.kept_within text).readToken h
    rcases hr : l.cursor.readToken with ⟨r, c⟩
    rw [hr] at hanswer hrest hwithin
    cases hs : scan l.cursor.content with
    | token t rest =>
      rw [hs] at hanswer hrest
      obtain rfl : r = .ok (some t) := hanswer
      have hcontent : c.content = rest := hrest
      have hlt := length_of_scan_eq_token hs
      rw [← hcontent, hn] at hlt
      obtain ⟨htokens, hfailure⟩ := ih c.content.length hlt (l := ⟨c, false⟩) hwithin rfl rfl
      rw [drain_token (next_token hf hr), scanAll_token hs, ← hcontent]
      exact ⟨congrArg (t :: ·) htokens, hfailure⟩
    | finish =>
      rw [hs] at hanswer
      obtain rfl : r = .ok none := hanswer
      rw [drain_end (next_end hf hr), scanAll_end (by simp [hs]), hs]
      exact ⟨rfl, rfl⟩
    | badEscape e rest =>
      rw [hs] at hanswer
      obtain rfl := hanswer
      rw [drain_error (next_error hf hr), scanAll_end (by simp [hs]), hs]
      exact ⟨rfl, rfl⟩
    | unclosed literal =>
      rw [hs] at hanswer
      obtain rfl := hanswer
      rw [drain_error (next_error hf hr), scanAll_end (by simp [hs]), hs]
      exact ⟨rfl, rfl⟩

theorem drain_start (text : String) (journal : List Event) :
    (start text journal).drain.tokens = (scanAll text.toList).1 ∧
      (start text journal).drain.failure = (scanAll text.toList).2.failure text.toList := by
  have hcontent : (start text journal).cursor.content = text.toList :=
    Cursor.content_start text.toList journal
  have h := drain_eq (l := start text journal) (Cursor.within_start text.toList journal) rfl
  rwa [hcontent] at h

theorem drain_ofText (text : String) :
    (ofText text).drain.tokens = (scanAll text.toList).1 ∧
      (ofText text).drain.failure = (scanAll text.toList).2.failure text.toList :=
  drain_start text []

/-- What came before a run makes no difference to what it delivers. -/
theorem delivers_start (text : String) (journal : List Event) :
    (start text journal).drain.tokens = (ofText text).drain.tokens ∧
      (start text journal).drain.failure = (ofText text).drain.failure := by
  obtain ⟨htokens, hfailure⟩ := drain_start text journal
  obtain ⟨htokens', hfailure'⟩ := drain_ofText text
  exact ⟨htokens.trans htokens'.symm, hfailure.trans hfailure'.symm⟩

theorem tokens_start (text : String) (journal : List Event) :
    (start text journal).tokens = (ofText text).tokens := by
  obtain ⟨htokens, hfailure⟩ := delivers_start text journal
  rw [tokens, tokens, Outcome.result, Outcome.result, htokens, hfailure]

end Lexer
end MicroLisp
