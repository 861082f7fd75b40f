import Mathlib.Data.List.TakeWhile
import MicroLisp.Escape
import MicroLisp.Proofs.Text.Position
import MicroLisp.Text.Character
import MicroLisp.Word

/-!
# A flat scanner

Reading tokens off a plain sequence of characters, without lines, cursors or
characters put back.  `scan` looks for the next token of a text and says what is
left behind it; `scanAt` is the same at a position of a text and gives the answer
with its line number and the position behind.  `scanAll` goes on to the first
answer that is no token.
-/

namespace MicroLisp
open Text

/-- The escapes of string literals: the character behind the backslash and what it stands for. -/
def escapes : List (Char × Char) :=
  [('\\', '\\'), ('"', '"'), ('b', '\x08'), ('f', '\x0c'), ('n', '\n'), ('r', '\r'), ('t', '\t'),
    ('v', '\x0b')]

/-- What stands behind an opening quote. -/
inductive Literal
  | closed (value rest : List Char)
  | badEscape (escape : Char) (rest : List Char)
  | unclosed

namespace Literal

def push (a : Char) : Literal → Literal
  | .closed value rest => .closed (a :: value) rest
  | .badEscape e rest => .badEscape e rest
  | .unclosed => .unclosed

/-- Decodes up to the next quote that is not escaped. -/
def read : List Char → Literal
  | [] => .unclosed
  | a :: rest =>
    if a = '"' then .closed [] rest
    else if a = '\\' then
      match rest with
      | [] => .unclosed
      | e :: rest' =>
        match escapes.lookup e with
        | some b => (read rest').push b
        | none => .badEscape e rest'
    else (read rest).push a

end Literal

/-- What a scan finds, with what is left behind it; a literal without an end starts at its quote. -/
inductive Scan
  | finish
  | token (t : Token) (rest : List Char)
  | badEscape (escape : Char) (rest : List Char)
  | unclosed (literal : List Char)

def Literal.found (literal : List Char) : Literal → Scan
  | .closed value rest => .token (.string (String.ofList value)) rest
  | .badEscape e rest => .badEscape e rest
  | .unclosed => .unclosed literal

/-- The longest run of characters that do not end a word. -/
def wordOf (text : List Char) : List Char := text.takeWhile fun a => !endsWord a

def behindWord (text : List Char) : List Char := text.dropWhile fun a => !endsWord a

/-- Blanks and comments skipped; a comment goes on behind its newline. -/
def skipBlanks (text : List Char) : List Char :=
  match text with
  | [] => []
  | a :: rest =>
    if isBlank a then skipBlanks rest
    else if a = ';' then skipBlanks (behindLine rest)
    else a :: rest
termination_by text.length
decreasing_by
  · exact Nat.lt_succ_self _
  · exact Nat.lt_succ_of_le (behindLine_length_le _)

def lexeme (a : Char) (rest : List Char) : Scan :=
  if a = '(' then .token .leftParen rest
  else if a = ')' then .token .rightParen rest
  else if a = '\'' then .token .quote rest
  else if a = '"' then (Literal.read rest).found (a :: rest)
  else .token (Word.classify (wordOf (a :: rest))) (behindWord (a :: rest))

def scan (text : List Char) : Scan :=
  match skipBlanks text with
  | [] => .finish
  | a :: rest => lexeme a rest

namespace Scan

def rest : Scan → List Char
  | .finish | .unclosed _ => []
  | .token _ rest | .badEscape _ rest => rest

/-- The answer in `text`, of which the scan has seen an end: an escape is blamed on the line of
its letter, a literal without an end on the line of its opening quote. -/
def answer (text : List Char) : Scan → Except Error (Option Token)
  | .finish => .ok none
  | .token t _ => .ok (some t)
  | .badEscape e rest => .error (.unsupportedEscape e (lineAt text (startOf text rest - 1)))
  | .unclosed literal => .error (.unterminatedString (lineAt text (startOf text literal)))

theorem answer_eq_end_iff {text : List Char} {s : Scan} : s.answer text = .ok none ↔ s = .finish := by
  cases s <;> simp [answer]

end Scan

/-- The scan from position `p`: the answer and the position behind it. -/
def scanAt (text : List Char) (p : Nat) : Except Error (Option Token) × Nat :=
  ((scan (text.drop p)).answer text, startOf text (scan (text.drop p)).rest)

/-! ### Equations -/

theorem unescape?_eq_lookup (e : Char) : unescape? e = escapes.lookup e := by
  unfold unescape?
  split
  -- any other character is not in the table
  case h_9 =>
    symm
    rw [List.lookup_eq_none_iff]
    simp only [escapes, List.forall_mem_cons, bne_iff_ne]
    and_intros
    all_goals first | assumption | exact fun _ h => absurd h List.not_mem_nil
  all_goals rfl

namespace Literal

theorem read_quote (rest : List Char) : read ('"' :: rest) = .closed [] rest := by
  rw [read.eq_def]
  simp

theorem read_raw {a : Char} (hq : a ≠ '"') (hb : a ≠ '\\') (rest : List Char) :
    read (a :: rest) = (read rest).push a := by
  rw [read.eq_def]
  simp [hq, hb]

theorem read_backslash : read ['\\'] = .unclosed := rfl

theorem read_escape {e b : Char} (h : unescape? e = some b) (rest : List Char) :
    read ('\\' :: e :: rest) = (read rest).push b := by
  rw [unescape?_eq_lookup] at h
  simp [read, h]

theorem read_badEscape {e : Char} (h : unescape? e = none) (rest : List Char) :
    read ('\\' :: e :: rest) = .badEscape e rest := by
  rw [unescape?_eq_lookup] at h
  simp [read, h]

end Literal

theorem lexeme_quote (rest : List Char) :
    lexeme '"' rest = (Literal.read rest).found ('"' :: rest) := by
  simp [lexeme]

theorem skipBlanks_blank {a : Char} (h : isBlank a = true) (rest : List Char) :
    skipBlanks (a :: rest) = skipBlanks rest := by
  rw [skipBlanks, if_pos h]

theorem skipBlanks_comment (rest : List Char) :
    skipBlanks (';' :: rest) = skipBlanks (behindLine rest) := by
  rw [skipBlanks, if_neg (by decide), if_pos rfl]

theorem skipBlanks_start {a : Char} (hb : isBlank a = false) (hc : a ≠ ';') (rest : List Char) :
    skipBlanks (a :: rest) = a :: rest := by
  rw [skipBlanks, if_neg (by simp [hb]), if_neg hc]

theorem scan_nil : scan [] = .finish := by
  rw [scan, skipBlanks]

theorem scan_blank {a : Char} (h : isBlank a = true) (rest : List Char) :
    scan (a :: rest) = scan rest := by
  rw [scan, skipBlanks_blank h, scan]

theorem scan_comment (rest : List Char) : scan (';' :: rest) = scan (behindLine rest) := by
  rw [scan, skipBlanks_comment, scan]

theorem scan_start {a : Char} (hb : isBlank a = false) (hc : a ≠ ';') (rest : List Char) :
    scan (a :: rest) = lexeme a rest := by
  rw [scan, skipBlanks_start hb hc]

/-! ### What is left is an end of the text -/

theorem skipBlanks_suffix (text : List Char) : skipBlanks text <:+ text := by
  fun_induction skipBlanks text with
  | case1 => exact List.suffix_refl _
  | case2 a rest hb ih => exact ih.trans (List.suffix_cons a rest)
  | case3 rest hb ih =>
    exact (ih.trans (behindLine_suffix rest)).trans (List.suffix_cons _ rest)
  | case4 a rest hb hc => exact List.suffix_refl _

theorem wordOf_append_behindWord (text : List Char) : wordOf text ++ behindWord text = text :=
  List.takeWhile_append_dropWhile

theorem wordOf_cons {a : Char} (h : endsWord a = false) (rest : List Char) :
    wordOf (a :: rest) = a :: wordOf rest := by
  rw [wordOf, List.takeWhile_cons_of_pos (by simp [h]), wordOf]

theorem behindWord_cons {a : Char} (h : endsWord a = false) (rest : List Char) :
    behindWord (a :: rest) = behindWord rest := by
  rw [behindWord, List.dropWhile_cons_of_pos (by simp [h]), behindWord]

theorem endsWord_of_mem_wordOf {text : List Char} {a : Char} (h : a ∈ wordOf text) :
    endsWord a = false := by
  have hnot := List.mem_takeWhile_imp h
  simpa using hnot

namespace Literal

def rest : Literal → List Char
  | .closed _ rest | .badEscape _ rest => rest
  | .unclosed => []

theorem rest_push (a : Char) (l : Literal) : (l.push a).rest = l.rest := by
  cases l <;> rfl

theorem rest_found (literal : List Char) (l : Literal) : (l.found literal).rest = l.rest := by
  cases l <;> rfl

theorem rest_read_suffix (text : List Char) : (read text).rest <:+ text := by
  fun_induction read text with
  | case1 => exact List.suffix_refl _
  | case2 rest => exact List.suffix_cons _ _
  | case3 => exact List.nil_suffix
  | case4 e rest b hb hq ih =>
    rw [rest_push]
    exact (ih.trans (List.suffix_cons e rest)).trans (List.suffix_cons _ _)
  | case5 e rest hb hq => exact (List.suffix_cons e rest).trans (List.suffix_cons _ _)
  | case6 a rest hq hb ih =>
    rw [rest_push]
    exact ih.trans (List.suffix_cons a rest)

end Literal

theorem endsWord_eq_false {a : Char} (hb : isBlank a = false) (hc : a ≠ ';') (ho : a ≠ '(')
    (hp : a ≠ ')') (hq : a ≠ '\'') : endsWord a = false := by
  simp [endsWord, hb, hc, ho, hp, hq]

theorem start_of_endsWord {a : Char} (h : endsWord a = false) :
    isBlank a = false ∧ a ≠ ';' ∧ a ≠ '(' ∧ a ≠ ')' ∧ a ≠ '\'' := by
  simp only [endsWord, Bool.or_eq_false_iff, decide_eq_false_iff_not] at h
  obtain ⟨⟨⟨⟨hb, ho⟩, hp⟩, hq⟩, hc⟩ := h
  exact ⟨hb, hc, ho, hp, hq⟩

theorem lexeme_word {a : Char} (h : endsWord a = false) (hd : a ≠ '"') (rest : List Char) :
    lexeme a rest = .token (Word.classify (wordOf (a :: rest))) (behindWord (a :: rest)) := by
  obtain ⟨-, -, ho, hp, hq⟩ := start_of_endsWord h
  simp only [lexeme, ho, hp, hq, hd, ↓reduceIte]

theorem skipBlanks_head {text rest : List Char} {a : Char} (h : skipBlanks text = a :: rest) :
    isBlank a = false ∧ a ≠ ';' := by
  fun_induction skipBlanks text with
  | case1 => exact absurd h (List.cons_ne_nil _ _).symm
  | case2 b tail hb ih => exact ih h
  | case3 tail hb ih => exact ih h
  | case4 b tail hb hc =>
    obtain ⟨rfl, rfl⟩ := List.cons.inj h
    exact ⟨by simpa using hb, hc⟩

theorem rest_lexeme_suffix {a : Char} (hb : isBlank a = false) (hc : a ≠ ';')
    (rest : List Char) : (lexeme a rest).rest <:+ rest := by
  unfold lexeme
  split_ifs with ho hp hq hd
  · exact List.suffix_refl _
  · exact List.suffix_refl _
  · exact List.suffix_refl _
  · rw [Literal.rest_found]
    exact Literal.rest_read_suffix rest
  · show behindWord (a :: rest) <:+ rest
    rw [behindWord_cons (endsWord_eq_false hb hc ho hp hq)]
    exact List.dropWhile_suffix _

theorem rest_scan_suffix (text : List Char) : (scan text).rest <:+ text := by
  unfold scan
  cases hs : skipBlanks text with
  | nil => exact List.nil_suffix
  | cons a rest =>
    obtain ⟨hb, hc⟩ := skipBlanks_head hs
    have hskip := skipBlanks_suffix text
    rw [hs] at hskip
    exact ((rest_lexeme_suffix hb hc rest).trans (List.suffix_cons a rest)).trans hskip

/-- Whatever is found, something has been read. -/
theorem length_rest_scan_lt {text : List Char} (h : scan text ≠ .finish) :
    (scan text).rest.length < text.length := by
  unfold scan at h ⊢
  cases hs : skipBlanks text with
  | nil =>
    rw [hs] at h
    exact absurd rfl h
  | cons a tail =>
    obtain ⟨hb, hc⟩ := skipBlanks_head hs
    have hlexeme := (rest_lexeme_suffix hb hc tail).length_le
    have hskip := (skipBlanks_suffix text).length_le
    rw [hs, List.length_cons] at hskip
    exact Nat.lt_of_lt_of_le (Nat.lt_succ_of_le hlexeme) hskip

theorem length_of_scan_eq_token {text rest : List Char} {t : Token}
    (h : scan text = .token t rest) : rest.length < text.length := by
  have hfound : scan text ≠ .finish := by
    rw [h]
    exact Scan.noConfusion
  have hlt := length_rest_scan_lt hfound
  rwa [h] at hlt

/-- The tokens of a text up to the first answer that is none. -/
def scanAll (text : List Char) : List Token × Scan :=
  match _h : scan text with
  | .token t rest => (t :: (scanAll rest).1, (scanAll rest).2)
  | .finish => ([], .finish)
  | .badEscape e rest => ([], .badEscape e rest)
  | .unclosed literal => ([], .unclosed literal)
termination_by text.length
decreasing_by exact length_of_scan_eq_token _h

theorem scanAll_token {text rest : List Char} {t : Token} (h : scan text = .token t rest) :
    scanAll text = (t :: (scanAll rest).1, (scanAll rest).2) := by
  rw [scanAll]
  split <;> simp_all

theorem scanAll_end {text : List Char} (h : ∀ t rest, scan text ≠ .token t rest) :
    scanAll text = ([], scan text) := by
  rw [scanAll]
  split <;> simp_all

theorem scanAll_congr {text text' : List Char} (h : scan text = scan text') :
    scanAll text = scanAll text' := by
  by_cases htoken : ∃ t rest, scan text' = .token t rest
  · obtain ⟨t, rest, hscan⟩ := htoken
    rw [scanAll_token (h.trans hscan), scanAll_token hscan]
  · have hend : ∀ t rest, scan text' ≠ .token t rest :=
      fun t rest hscan => htoken ⟨t, rest, hscan⟩
    rw [scanAll_end hend, ← h, scanAll_end (h ▸ hend)]

end MicroLisp
