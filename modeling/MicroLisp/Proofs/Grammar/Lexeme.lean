import MicroLisp.Proofs.Scan

/-!
# The lexical grammar

Blanks, encodings of string values, words and lexemes, each as a language of its
own, and what the flat scanner makes of a text that begins with one of them.  The
scanner is complete for a construct when it reads every spelling of it, and sound
when whatever it reads is such a spelling.
-/

namespace MicroLisp.Grammar
open Text

/-- Whitespace and comments, each comment with its newline. -/
inductive Blank : List Char → Prop
  | nil : Blank []
  | space {a : Char} {s : List Char} : isBlank a = true → Blank s → Blank (a :: s)
  | comment {body s : List Char} : '\n' ∉ body → Blank s → Blank (';' :: (body ++ '\n' :: s))

/-- A blank at the end of a text, where a comment need not have a newline. -/
inductive LastBlank : List Char → Prop
  | blank {s : List Char} : Blank s → LastBlank s
  | comment {s body : List Char} : Blank s → '\n' ∉ body → LastBlank (s ++ ';' :: body)

/-- The spellings of a string value: a character stands for itself, unless it is a quote or a
backslash, and an escape for its own character. -/
inductive Encoding : List Char → List Char → Prop
  | nil : Encoding [] []
  | raw {a : Char} {enc value : List Char} :
      a ≠ '"' → a ≠ '\\' → Encoding enc value → Encoding (a :: enc) (a :: value)
  | escape {e a : Char} {enc value : List Char} :
      (e, a) ∈ escapes → Encoding enc value → Encoding ('\\' :: e :: enc) (a :: value)

structure IsWord (w : List Char) : Prop where
  ne_nil : w ≠ []
  start : w.head? ≠ some '"'
  inside : ∀ a ∈ w, endsWord a = false

/-- A word can end in front of `s`. -/
def Breaks (s : List Char) : Prop := ∀ a, s.head? = some a → endsWord a = true

/-- A spelling and the token it spells. -/
inductive Lexeme : List Char → Token → Prop
  | leftParen : Lexeme ['('] .leftParen
  | rightParen : Lexeme [')'] .rightParen
  | quote : Lexeme ['\''] .quote
  | string {enc value : List Char} :
      Encoding enc value → Lexeme ('"' :: (enc ++ ['"'])) (.string (String.ofList value))
  | word {w : List Char} : IsWord w → Lexeme w (Word.classify w)

/-! ### Blanks -/

theorem skipBlanks_blank_append {b : List Char} (h : Blank b) (s : List Char) :
    skipBlanks (b ++ s) = skipBlanks s := by
  induction h with
  | nil => rfl
  | space ha hb ih => rw [List.cons_append, skipBlanks_blank ha, ih]
  | comment hbody hb ih =>
    rw [List.cons_append, List.append_assoc, List.cons_append, skipBlanks_comment,
      behindLine_append_newline hbody, ih]

theorem skipBlanks_lastBlank {b : List Char} (h : LastBlank b) : skipBlanks b = [] := by
  cases h with
  | blank hb =>
    have hskip := skipBlanks_blank_append hb []
    rwa [List.append_nil, skipBlanks] at hskip
  | comment hb hbody =>
    rw [skipBlanks_blank_append hb, skipBlanks_comment, behindLine_of_not_mem hbody, skipBlanks]

theorem LastBlank.space {a : Char} {s : List Char} (ha : isBlank a = true) (h : LastBlank s) :
    LastBlank (a :: s) := by
  cases h with
  | blank hb => exact .blank (.space ha hb)
  | comment hb hbody => exact .comment (.space ha hb) hbody

theorem LastBlank.line {body s : List Char} (hbody : '\n' ∉ body) (h : LastBlank s) :
    LastBlank (';' :: (body ++ '\n' :: s)) := by
  cases h with
  | blank hb => exact .blank (.comment hbody hb)
  | @comment s body' hb hbody' =>
    have hcomment := LastBlank.comment (Blank.comment hbody hb) hbody'
    simpa using hcomment

theorem blank_skipBlanks (text : List Char) :
    (skipBlanks text = [] ∧ LastBlank text) ∨
      ∃ b, Blank b ∧ text = b ++ skipBlanks text := by
  fun_induction skipBlanks text with
  | case1 => exact Or.inl ⟨rfl, .blank .nil⟩
  | case2 a rest ha ih =>
    rcases ih with ⟨hnil, hlast⟩ | ⟨b, hb, htext⟩
    · exact Or.inl ⟨hnil, hlast.space ha⟩
    · refine Or.inr ⟨a :: b, .space ha hb, ?_⟩
      rw [List.cons_append, ← htext]
  | case3 rest ha ih =>
    -- a comment without a newline can only stand at the end
    by_cases hnl : '\n' ∈ rest
    · obtain ⟨body, s, rfl, hbody⟩ := List.eq_append_cons_of_mem hnl
      rw [behindLine_append_newline hbody] at ih ⊢
      rcases ih with ⟨hnil, hlast⟩ | ⟨b, hb, htext⟩
      · exact Or.inl ⟨hnil, hlast.line hbody⟩
      · refine Or.inr ⟨';' :: (body ++ '\n' :: b), .comment hbody hb, ?_⟩
        rw [List.cons_append, List.append_assoc, List.cons_append, ← htext]
    · rw [behindLine_of_not_mem hnl, skipBlanks]
      exact Or.inl ⟨rfl, LastBlank.comment .nil hnl⟩
  | case4 a rest ha hc => exact Or.inr ⟨[], .nil, rfl⟩

theorem skipBlanks_append_start {b : List Char} (h : Blank b) {a : Char} (ha : isBlank a = false)
    (hc : a ≠ ';') (s : List Char) : skipBlanks (b ++ a :: s) = a :: s := by
  rw [skipBlanks_blank_append h, skipBlanks_start ha hc]

theorem scan_append_start {b : List Char} (h : Blank b) {a : Char} (ha : isBlank a = false)
    (hc : a ≠ ';') (s : List Char) : scan (b ++ a :: s) = lexeme a s := by
  rw [scan, skipBlanks_append_start h ha hc]

/-! ### Encodings -/

theorem unescape?_eq_some_iff {e a : Char} : unescape? e = some a ↔ (e, a) ∈ escapes := by
  rw [unescape?_eq_lookup]
  constructor
  · intro h
    obtain ⟨front, back, heq, -⟩ := List.lookup_eq_some_iff.mp h
    rw [heq]
    simp
  · intro h
    simp only [escapes, List.mem_cons, Prod.mk.injEq, List.not_mem_nil, or_false] at h
    rcases h with h | h | h | h | h | h | h | h
    all_goals
      obtain ⟨rfl, rfl⟩ := h
      rfl

theorem unescape?_eq_none_iff {e : Char} : unescape? e = none ↔ ∀ a, (e, a) ∉ escapes := by
  rw [Option.eq_none_iff_forall_ne_some]
  exact forall_congr' fun a => not_congr unescape?_eq_some_iff

theorem read_encoding {enc value : List Char} (h : Encoding enc value) (s : List Char) :
    Literal.read (enc ++ s) = value.foldr Literal.push (Literal.read s) := by
  induction h with
  | nil => rfl
  | raw hq hb henc ih => rw [List.cons_append, Literal.read_raw hq hb, ih, List.foldr_cons]
  | escape he henc ih =>
    rw [List.cons_append, List.cons_append, Literal.read_escape (unescape?_eq_some_iff.mpr he), ih,
      List.foldr_cons]

theorem foldr_push_closed (value rest : List Char) :
    value.foldr Literal.push (.closed [] rest) = .closed value rest := by
  induction value with
  | nil => rfl
  | cons a value ih => rw [List.foldr_cons, ih, Literal.push]

theorem foldr_push_badEscape (value rest : List Char) (e : Char) :
    value.foldr Literal.push (.badEscape e rest) = .badEscape e rest := by
  induction value with
  | nil => rfl
  | cons a value ih => rw [List.foldr_cons, ih, Literal.push]

theorem foldr_push_unclosed (value : List Char) :
    value.foldr Literal.push .unclosed = .unclosed := by
  induction value with
  | nil => rfl
  | cons a value ih => rw [List.foldr_cons, ih, Literal.push]

theorem read_closed {enc value : List Char} (h : Encoding enc value) (rest : List Char) :
    Literal.read (enc ++ '"' :: rest) = .closed value rest := by
  rw [read_encoding h, Literal.read_quote, foldr_push_closed]

theorem read_encoding_badEscape {enc value : List Char} (h : Encoding enc value) {e : Char}
    (he : ∀ a, (e, a) ∉ escapes) (rest : List Char) :
    Literal.read (enc ++ '\\' :: e :: rest) = .badEscape e rest := by
  rw [read_encoding h, Literal.read_badEscape (unescape?_eq_none_iff.mpr he), foldr_push_badEscape]

/-- A backslash at the end of the text, or nothing. -/
def tail (backslash : Bool) : List Char := if backslash then ['\\'] else []

theorem read_unclosed {enc value : List Char} (h : Encoding enc value) (backslash : Bool) :
    Literal.read (enc ++ tail backslash) = .unclosed := by
  rw [read_encoding h]
  cases backslash with
  | false => exact foldr_push_unclosed value
  | true => exact foldr_push_unclosed value

def Spells (text : List Char) : Literal → Prop
  | .closed value rest => ∃ enc, Encoding enc value ∧ text = enc ++ '"' :: rest
  | .badEscape e rest =>
    ∃ enc value, Encoding enc value ∧ (∀ a, (e, a) ∉ escapes) ∧ text = enc ++ '\\' :: e :: rest
  | .unclosed => ∃ enc value backslash, Encoding enc value ∧ text = enc ++ tail backslash

theorem Spells.raw {a : Char} {text : List Char} {l : Literal} (hq : a ≠ '"') (hb : a ≠ '\\')
    (h : Spells text l) : Spells (a :: text) (l.push a) := by
  cases l with
  | closed value rest =>
    obtain ⟨enc, henc, rfl⟩ := h
    exact ⟨a :: enc, henc.raw hq hb, rfl⟩
  | badEscape e rest =>
    obtain ⟨enc, value, henc, he, rfl⟩ := h
    exact ⟨a :: enc, a :: value, henc.raw hq hb, he, rfl⟩
  | unclosed =>
    obtain ⟨enc, value, backslash, henc, rfl⟩ := h
    exact ⟨a :: enc, a :: value, backslash, henc.raw hq hb, rfl⟩

theorem Spells.escape {e a : Char} {text : List Char} {l : Literal} (hea : (e, a) ∈ escapes)
    (h : Spells text l) : Spells ('\\' :: e :: text) (l.push a) := by
  cases l with
  | closed value rest =>
    obtain ⟨enc, henc, rfl⟩ := h
    exact ⟨'\\' :: e :: enc, henc.escape hea, rfl⟩
  | badEscape e' rest =>
    obtain ⟨enc, value, henc, he, rfl⟩ := h
    exact ⟨'\\' :: e :: enc, a :: value, henc.escape hea, he, rfl⟩
  | unclosed =>
    obtain ⟨enc, value, backslash, henc, rfl⟩ := h
    exact ⟨'\\' :: e :: enc, a :: value, backslash, henc.escape hea, rfl⟩

theorem spells_read (text : List Char) : Spells text (Literal.read text) := by
  fun_induction Literal.read text with
  | case1 => exact ⟨[], [], false, .nil, rfl⟩
  | case2 rest => exact ⟨[], .nil, rfl⟩
  | case3 => exact ⟨[], [], true, .nil, rfl⟩
  | case4 e rest a ha hq ih =>
    rw [← unescape?_eq_lookup] at ha
    exact ih.escape (unescape?_eq_some_iff.mp ha)
  | case5 e rest he hq =>
    rw [← unescape?_eq_lookup] at he
    exact ⟨[], [], .nil, unescape?_eq_none_iff.mp he, rfl⟩
  | case6 a rest hq hb ih => exact ih.raw hq hb

theorem Encoding.of_cons {a : Char} {enc value : List Char} (hb : a ≠ '\\')
    (h : Encoding (a :: enc) value) : ∃ value', Encoding enc value' := by
  cases h with
  | raw hq hb' henc => exact ⟨_, henc⟩
  | escape he henc => exact absurd rfl hb

theorem Encoding.of_cons_cons {e : Char} {enc value : List Char}
    (h : Encoding ('\\' :: e :: enc) value) : ∃ value', Encoding enc value' := by
  cases h with
  | raw hq hb henc => exact absurd rfl hb
  | escape he henc => exact ⟨_, henc⟩

theorem Encoding.of_append {enc value s whole : List Char} (h : Encoding enc value)
    (hs : Encoding (enc ++ s) whole) : ∃ value', Encoding s value' := by
  induction h generalizing whole with
  | nil => exact ⟨whole, hs⟩
  | raw hq hb henc ih =>
    obtain ⟨whole', hrest⟩ := hs.of_cons hb
    exact ih hrest
  | escape he henc ih =>
    obtain ⟨whole', hrest⟩ := hs.of_cons_cons
    exact ih hrest

theorem not_encoding_backslash (value : List Char) : ¬ Encoding ['\\'] value := by
  intro h
  cases h with
  | raw hq hb henc => exact hb rfl

theorem unclosed_unique {enc value enc' value' : List Char} {backslash backslash' : Bool}
    (h : Encoding enc value) (h' : Encoding enc' value')
    (heq : enc ++ tail backslash = enc' ++ tail backslash') :
    enc = enc' ∧ backslash = backslash' := by
  cases backslash with
  | false =>
    cases backslash' with
    | false =>
      rw [tail, if_neg Bool.false_ne_true, List.append_nil, List.append_nil] at heq
      exact ⟨heq, rfl⟩
    | true =>
      -- the last backslash would have to be an encoding of its own
      rw [tail, if_neg Bool.false_ne_true, List.append_nil] at heq
      rw [heq] at h
      obtain ⟨v, hv⟩ := h'.of_append h
      exact absurd hv (not_encoding_backslash v)
  | true =>
    cases backslash' with
    | false =>
      rw [tail, tail, if_neg Bool.false_ne_true, List.append_nil] at heq
      rw [← heq] at h'
      obtain ⟨v, hv⟩ := h.of_append h'
      exact absurd hv (not_encoding_backslash v)
    | true => exact ⟨List.append_cancel_right heq, rfl⟩

/-! ### Words -/

theorem wordOf_append {w s : List Char} (hw : ∀ a ∈ w, endsWord a = false) (hs : Breaks s) :
    wordOf (w ++ s) = w ∧ behindWord (w ++ s) = s := by
  have hw' : ∀ a ∈ w, (!endsWord a) = true := by
    intro a ha
    rw [hw a ha]
    rfl
  rw [wordOf, behindWord, List.takeWhile_append_of_pos hw', List.dropWhile_append_of_pos hw']
  cases s with
  | nil => exact ⟨List.append_nil w, rfl⟩
  | cons b s =>
    have hb := hs b rfl
    rw [List.takeWhile_cons_of_neg (by simp [hb]), List.dropWhile_cons_of_neg (by simp [hb])]
    exact ⟨List.append_nil w, rfl⟩

theorem breaks_behindWord (text : List Char) : Breaks (behindWord text) := by
  intro a ha
  have hnot := List.head?_dropWhile_not (fun b => !endsWord b) text
  rw [behindWord] at ha
  rw [ha] at hnot
  simpa using hnot

theorem IsWord.not_mem_newline {w : List Char} (h : IsWord w) : '\n' ∉ w := by
  intro hmem
  have hends := h.inside '\n' hmem
  cases hends

theorem isWord_wordOf {a : Char} (ha : endsWord a = false) (hq : a ≠ '"') (rest : List Char) :
    IsWord (wordOf (a :: rest)) where
  ne_nil := by
    rw [wordOf_cons ha]
    exact List.cons_ne_nil _ _
  start := by
    rw [wordOf_cons ha]
    simpa using hq
  inside := fun b hb => endsWord_of_mem_wordOf hb

end MicroLisp.Grammar
