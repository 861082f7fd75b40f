import MicroLisp.Cursor.StringLiteral
import MicroLisp.Cursor.Word

/-!
# Lexer

The tokens of a program, one at a time.  `Cursor.readToken` skips blanks and
comments and reads one lexeme; it can be called again after an error and goes on
behind the offending character.  A `Lexer` adds the notion of a finished run: its
`next` stops for good at the end or the first error, and `drain` runs it to there.
-/

namespace MicroLisp

namespace Cursor

/-- Reads the next token; `none` at the end of the text. -/
def readToken (c : Cursor) : Except Error (Option Token) × Cursor :=
  match _h : c.read with
  | (none, rest) => (.ok none, rest)
  | (some a, rest) =>
    if isBlank a then readToken rest
    else if a = ';' then readToken (rest.note (.commentSkipped rest.line)).nextLine
    else if a = '(' then (.ok (some .leftParen), rest)
    else if a = ')' then (.ok (some .rightParen), rest)
    else if a = '\'' then (.ok (some .quote), rest)
    else if a = '"' then
      match rest.readString with
      | (.ok s, rest') => (.ok (some (.string s)), rest')
      | (.error e, rest') => (.error e, rest')
    else
      let (t, rest') := (rest.unread a).readWord
      (.ok (some t), rest')
termination_by c.content.length
decreasing_by
  · exact length_content_read _h
  · have hlt : rest.content.length < c.content.length := length_content_read _h
    exact Nat.lt_of_le_of_lt (length_content_nextLine_le _) hlt

theorem length_content_of_readToken {c rest : Cursor} {t : Token}
    (h : c.readToken = (.ok (some t), rest)) : rest.content.length < c.content.length := by
  fun_induction readToken c with
  | case1 c r hr => simp at h
  | case2 c a r hr hb ih => exact Nat.lt_trans (ih h) (length_content_read hr)
  | case3 c r hr hb ih =>
    have hlt : r.content.length < c.content.length := length_content_read hr
    exact Nat.lt_trans (Nat.lt_of_lt_of_le (ih h) (length_content_nextLine_le _)) hlt
  | case4 c r hr hb => simp at h; exact h.2 ▸ length_content_read hr
  | case5 c r hr hb => simp at h; exact h.2 ▸ length_content_read hr
  | case6 c r hr hb => simp at h; exact h.2 ▸ length_content_read hr
  | case7 c r s r' hs hr =>
    obtain ⟨-, rfl⟩ := Prod.mk.inj h
    have hle := length_content_readStringFrom_le r.line [] r
    simp only [readString] at hs
    rw [hs] at hle
    exact Nat.lt_of_le_of_lt hle (length_content_read hr)
  | case8 c r e r' hs hr => simp at h
  | case9 c a r hr hb hs ho hc hq hd t' r' hw =>
    obtain ⟨-, rfl⟩ := Prod.mk.inj h
    have hle := length_content_readWord_unread_le (a := a) (by simp_all [endsWord]) r
    rw [hw] at hle
    exact Nat.lt_of_le_of_lt hle (length_content_read hr)

end Cursor

/-- A run over a program. -/
structure Lexer where
  cursor : Cursor
  /-- Set once `next` has met the end or an error. -/
  finished : Bool

namespace Lexer

/-- A run over a text that has yet to begin, with the events that came before it. -/
def start (text : String) (journal : List Event) : Lexer :=
  ⟨Cursor.start text.toList journal, false⟩

def ofText (text : String) : Lexer := start text []

/-- Number of the line that is being read, zero before the first one. -/
def line (l : Lexer) : Nat := l.cursor.line

def events (l : Lexer) : List Event := l.cursor.journal.reverse

/-- Reads the next token, whether the run is finished or not. -/
def read (l : Lexer) : Except Error (Option Token) × Lexer :=
  let (r, rest) := l.cursor.readToken
  (r, { l with cursor := rest })

/-- The next token or the error that ends the run; `none` when the run is finished. -/
def next (l : Lexer) : Option (Except Error Token) × Lexer :=
  if l.finished then (none, l)
  else match l.cursor.readToken with
    | (.ok (some t), rest) => (some (.ok t), ⟨rest, false⟩)
    | (.ok none, rest) => (none, ⟨rest, true⟩)
    | (.error e, rest) => (some (.error e), ⟨rest, true⟩)

theorem length_content_of_next {l rest : Lexer} {t : Token}
    (h : l.next = (some (.ok t), rest)) :
    rest.cursor.content.length < l.cursor.content.length := by
  unfold next at h
  split at h
  · simp at h
  · split at h
    · next hr =>
      simp only [Prod.mk.injEq, Option.some.injEq, Except.ok.injEq] at h
      obtain ⟨rfl, rfl⟩ := h
      exact Cursor.length_content_of_readToken hr
    · simp at h
    · simp at h

/-- What a run delivers: its tokens, the error that ended it, if one did, and the
state at its end. -/
structure Outcome where
  tokens : List Token
  failure : Option Error
  last : Lexer

/-- Calls `next` until the run is finished. -/
def drain (l : Lexer) : Outcome :=
  match _h : l.next with
  | (none, rest) => ⟨[], none, rest⟩
  | (some (.error e), rest) => ⟨[], some e, rest⟩
  | (some (.ok t), rest) =>
    let tail := drain rest
    { tail with tokens := t :: tail.tokens }
termination_by l.cursor.content.length
decreasing_by exact length_content_of_next _h

/-- The tokens of a run that ends without an error, or else the error alone. -/
def Outcome.result (o : Outcome) : Except Error (List Token) :=
  match o.failure with
  | none => .ok o.tokens
  | some e => .error e

def tokens (l : Lexer) : Except Error (List Token) := l.drain.result

end Lexer
end MicroLisp
