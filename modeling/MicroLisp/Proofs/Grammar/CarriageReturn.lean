import MicroLisp.Proofs.Grammar.Parse

/-!
# A carriage return in front of each newline

A text keeps its lexemes when a carriage return is put in front of each of its
newlines: blanks stay blanks, words and delimiters hold no newline, and a string
literal stays one, only that its value has the carriage returns as well
(`Parses.withReturns`).
-/

namespace MicroLisp.Grammar

def withReturns (text : List Char) : List Char :=
  text.flatMap fun a => if a = '\n' then ['\r', '\n'] else [a]

/-- `returned` is `value` with a carriage return in front of `n` of its newlines. -/
inductive Returned : Nat → List Char → List Char → Prop
  | nil : Returned 0 [] []
  | keep {n : Nat} {value returned : List Char} (a : Char) :
      Returned n value returned → Returned n (a :: value) (a :: returned)
  | newline {n : Nat} {value returned : List Char} :
      Returned n value returned → Returned (n + 1) ('\n' :: value) ('\r' :: '\n' :: returned)

section Texts

variable {text value returned : List Char} {a : Char} {n : Nat}

theorem withReturns_newline (text : List Char) :
    withReturns ('\n' :: text) = '\r' :: '\n' :: withReturns text := rfl

theorem withReturns_cons (h : a ≠ '\n') (text : List Char) :
    withReturns (a :: text) = a :: withReturns text := by
  rw [withReturns, List.flatMap_cons, if_neg h]
  rfl

theorem withReturns_append (before text : List Char) :
    withReturns (before ++ text) = withReturns before ++ withReturns text := List.flatMap_append

theorem withReturns_of_not_mem (h : '\n' ∉ text) : withReturns text = text := by
  induction text with
  | nil => rfl
  | cons a text ih =>
    obtain ⟨ha, htext⟩ := List.ne_and_not_mem_of_not_mem_cons h
    rw [withReturns_cons ha.symm, ih htext]

theorem count_withReturns (text : List Char) : (withReturns text).count '\n' = text.count '\n' := by
  induction text with
  | nil => rfl
  | cons a text ih =>
    by_cases ha : a = '\n'
    · subst ha
      rw [withReturns_newline, List.count_cons_of_ne (by decide), List.count_cons_self,
        List.count_cons_self, ih]
    · rw [withReturns_cons ha, List.count_cons_of_ne ha, List.count_cons_of_ne ha, ih]

theorem Returned.length_eq (h : Returned n value returned) :
    returned.length = value.length + n := by
  induction h with
  | nil => rfl
  | keep a h ih =>
    rw [List.length_cons, List.length_cons, ih]
    omega
  | newline h ih =>
    rw [List.length_cons, List.length_cons, List.length_cons, ih]
    omega

theorem Returned.eq_of_zero (h : Returned 0 value returned) : returned = value := by
  generalize hn : 0 = n at h
  induction h with
  | nil => rfl
  | keep a h ih => rw [ih hn]
  | newline h ih => cases hn

end Texts

/-! ### Blanks, encodings and lexemes -/

theorem Blank.withReturns {b : List Char} (h : Blank b) : Blank (withReturns b) := by
  induction h with
  | nil => exact .nil
  | @space a s ha hb ih =>
    by_cases hn : a = '\n'
    · subst hn
      exact .space (by decide) (.space ha ih)
    · rw [withReturns_cons hn]
      exact .space ha ih
  | @comment body s hbody hb ih =>
    -- the carriage return ends up in the comment
    have hbody' : '\n' ∉ body ++ ['\r'] := by
      rw [List.mem_append, not_or]
      exact ⟨hbody, by decide⟩
    have hcomment := Blank.comment hbody' ih
    rw [List.append_assoc] at hcomment
    rw [withReturns_cons (by decide), withReturns_append, withReturns_of_not_mem hbody,
      withReturns_newline]
    exact hcomment

theorem LastBlank.withReturns {b : List Char} (h : LastBlank b) : LastBlank (withReturns b) := by
  cases h with
  | blank hb => exact .blank hb.withReturns
  | comment hb hbody =>
    rw [withReturns_append, withReturns_cons (by decide), withReturns_of_not_mem hbody]
    exact .comment hb.withReturns hbody

theorem not_mem_escapes_newline (a : Char) : ('\n', a) ∉ escapes := by
  simp [escapes]

theorem not_mem_escapes_return (a : Char) : ('\r', a) ∉ escapes := by
  simp [escapes]

theorem Encoding.withReturns {enc value : List Char} (h : Encoding enc value) :
    ∃ returned, Encoding (withReturns enc) returned ∧
      Returned (enc.count '\n') value returned := by
  induction h with
  | nil => exact ⟨[], .nil, .nil⟩
  | @raw a enc value hq hb henc ih =>
    obtain ⟨returned, hreturned, hvalue⟩ := ih
    by_cases ha : a = '\n'
    · subst ha
      rw [withReturns_newline, List.count_cons_self]
      exact ⟨_, .raw (by decide) (by decide) (.raw hq hb hreturned), hvalue.newline⟩
    · rw [withReturns_cons ha, List.count_cons_of_ne ha]
      exact ⟨_, .raw hq hb hreturned, hvalue.keep a⟩
  | @escape e a enc value he henc ih =>
    obtain ⟨returned, hreturned, hvalue⟩ := ih
    have hne : e ≠ '\n' := by
      rintro rfl
      exact not_mem_escapes_newline a he
    rw [withReturns_cons (by decide), withReturns_cons hne, List.count_cons_of_ne (by decide),
      List.count_cons_of_ne hne]
    exact ⟨_, .escape he hreturned, hvalue.keep a⟩

theorem Breaks.withReturns {s : List Char} (h : Breaks s) : Breaks (withReturns s) := by
  cases s with
  | nil => exact h
  | cons a s =>
    by_cases ha : a = '\n'
    · subst ha
      intro b hb
      obtain rfl := Option.some.inj hb
      decide
    · rw [withReturns_cons ha]
      exact h

/-- A token and what it becomes when its lexeme, with `n` newlines, has its carriage returns. -/
inductive ReturnedToken : Nat → Token → Token → Prop
  | same (t : Token) : ReturnedToken 0 t t
  | string {n : Nat} {value returned : List Char} :
      Returned n value returned →
      ReturnedToken n (.string (String.ofList value)) (.string (String.ofList returned))

theorem ReturnedToken.eq_iff {n : Nat} {t t' : Token} (h : ReturnedToken n t t') :
    t' = t ↔ n = 0 := by
  cases h with
  | same t => exact ⟨fun _ => rfl, fun _ => rfl⟩
  | @string n value returned hreturned =>
    constructor
    · intro heq
      have hlength := hreturned.length_eq
      rw [String.ofList_injective (Token.string.inj heq)] at hlength
      omega
    · rintro rfl
      rw [hreturned.eq_of_zero]

theorem Lexeme.withReturns {l : List Char} {t : Token} (h : Lexeme l t) :
    ∃ t', Lexeme (withReturns l) t' ∧ ReturnedToken (l.count '\n') t t' := by
  cases h with
  | leftParen => exact ⟨_, .leftParen, .same _⟩
  | rightParen => exact ⟨_, .rightParen, .same _⟩
  | quote => exact ⟨_, .quote, .same _⟩
  | @string enc value henc =>
    obtain ⟨returned, hreturned, hvalue⟩ := henc.withReturns
    have hcount : ('"' :: (enc ++ ['"'])).count '\n' = enc.count '\n' := by
      rw [List.count_cons_of_ne (by decide), List.count_append]
      rfl
    rw [withReturns_cons (by decide), withReturns_append, hcount]
    exact ⟨_, .string hreturned, .string hvalue⟩
  | word hw =>
    rw [withReturns_of_not_mem hw.not_mem_newline, List.count_eq_zero.mpr hw.not_mem_newline]
    exact ⟨_, .word hw, .same _⟩

theorem isWord_of_withReturns {l : List Char} (h : IsWord (withReturns l)) : IsWord l := by
  have hcount := count_withReturns l
  rw [List.count_eq_zero.mpr h.not_mem_newline] at hcount
  rwa [withReturns_of_not_mem (List.count_eq_zero.mp hcount.symm)] at h

/-! ### Parses -/

def Piece.withReturns (p : Piece) : Piece :=
  ⟨Grammar.withReturns p.blank, Grammar.withReturns p.lexeme⟩

/-- A bad escape of a newline is one of a carriage return now. -/
def Ending.withReturns : Ending → Ending
  | .closed blank => .closed (Grammar.withReturns blank)
  | .badEscape blank enc escape rest =>
    if escape = '\n' then
      .badEscape (Grammar.withReturns blank) (Grammar.withReturns enc) '\r'
        ('\n' :: Grammar.withReturns rest)
    else
      .badEscape (Grammar.withReturns blank) (Grammar.withReturns enc) escape
        (Grammar.withReturns rest)
  | .unclosed blank enc backslash =>
    .unclosed (Grammar.withReturns blank) (Grammar.withReturns enc) backslash

theorem Ending.text_withReturns (e : Ending) : e.withReturns.text = Grammar.withReturns e.text := by
  cases e with
  | closed b => rfl
  | badEscape b enc letter rest =>
    rw [text, withReturns_append, withReturns_cons (by decide), withReturns_append,
      withReturns_cons (by decide)]
    by_cases hletter : letter = '\n'
    · subst hletter
      rw [withReturns_newline]
      rfl
    · rw [withReturns_cons hletter, Ending.withReturns, if_neg hletter, text]
  | unclosed b enc backslash =>
    have htail : Grammar.withReturns (tail backslash) = tail backslash := by
      cases backslash <;> rfl
    rw [text, withReturns_append, withReturns_cons (by decide), withReturns_append, htail,
      Ending.withReturns, text]

theorem Ending.Valid.withReturns {e : Ending} (h : e.Valid) : e.withReturns.Valid := by
  cases h with
  | closed hb => exact .closed hb.withReturns
  | @badEscape b enc value rest letter hb henc hletter =>
    obtain ⟨returned, hreturned, -⟩ := henc.withReturns
    rw [Ending.withReturns]
    split
    · exact .badEscape hb.withReturns hreturned not_mem_escapes_return
    · exact .badEscape hb.withReturns hreturned hletter
  | unclosed hb henc =>
    obtain ⟨returned, hreturned, -⟩ := henc.withReturns
    exact .unclosed hb.withReturns hreturned

/-- The tokens of pieces, and what they become with their carriage returns. -/
inductive ReturnedTokens : List Piece → List Token → List Token → Prop
  | nil : ReturnedTokens [] [] []
  | cons {p : Piece} {ps : List Piece} {t t' : Token} {ts ts' : List Token} :
      ReturnedToken (p.lexeme.count '\n') t t' → ReturnedTokens ps ts ts' →
      ReturnedTokens (p :: ps) (t :: ts) (t' :: ts')

theorem ReturnedTokens.eq_iff {ps : List Piece} {ts ts' : List Token}
    (h : ReturnedTokens ps ts ts') : ts' = ts ↔ ∀ p ∈ ps, '\n' ∉ p.lexeme := by
  induction h with
  | nil => simp
  | cons ht hts ih =>
    rw [List.cons.injEq, ht.eq_iff, ih, List.count_eq_zero, List.forall_mem_cons]

theorem Parses.withReturns {text : List Char} {ps : List Piece} {e : Ending} {ts : List Token}
    (h : Parses text ps e ts) :
    ∃ ts', Parses (withReturns text) (ps.map Piece.withReturns) e.withReturns ts' ∧
      ReturnedTokens ps ts ts' := by
  induction h with
  | @ending e he =>
    rw [← e.text_withReturns]
    exact ⟨[], .ending he.withReturns, .nil⟩
  | piece hb hl hs hrest ih =>
    obtain ⟨ts', hparse, hts⟩ := ih
    obtain ⟨t', hlexeme, ht⟩ := hl.withReturns
    rw [withReturns_append, withReturns_append]
    exact ⟨t' :: ts', .piece hb.withReturns hlexeme
      (fun hw => (hs (isWord_of_withReturns hw)).withReturns) hparse, .cons ht hts⟩

end MicroLisp.Grammar
