import MicroLisp.Proofs.Cursor.Chronicle
import MicroLisp.Proofs.Grammar.Parse
import MicroLisp.Proofs.Token.Spelling

/-!
# Remarks on a text

What there is to remark on in a text: the comments that a scan comes to, each with its
line, and the words that do not fit into an integer.  A comment mark is come to over
blanks, other comments and whole lexemes alone (`mem_remarks_iff`), so that no mark in a
string literal, in a comment or behind an error counts; and the words are those of the
lexemes of the text (`warned_remarks`).
-/

namespace MicroLisp

open Text

def warning (word : List Char) : List Event :=
  if Word.outOfRange word then [.outOfRange (String.ofList word)] else []

/-- The remarks on `rest`, an end of `text`, up to the first error. -/
def remarks (text rest : List Char) : List Event :=
  match rest with
  | [] => []
  | a :: tail =>
    if _hb : isBlank a then remarks text tail
    else if _hc : a = ';' then
      .commentSkipped (lineAt text (startOf text (a :: tail))) :: remarks text (behindLine tail)
    else
      match _h : lexeme a tail with
      | .token _ left => warning (wordOf (a :: tail)) ++ remarks text left
      | _ => []
termination_by rest.length
decreasing_by
  · exact Nat.lt_succ_self _
  · exact Nat.lt_succ_of_le (behindLine_length_le _)
  · have hsuffix := rest_lexeme_suffix (by simpa using _hb) _hc tail
    rw [_h] at hsuffix
    exact Nat.lt_succ_of_le hsuffix.length_le

section Equations

variable {text s left : List Char} {a : Char} {t : Token}

theorem remarks_nil (text : List Char) : remarks text [] = [] := by
  rw [remarks]

theorem remarks_blank (ha : isBlank a = true) (text s : List Char) :
    remarks text (a :: s) = remarks text s := by
  rw [remarks, dif_pos ha]

theorem remarks_comment (text s : List Char) :
    remarks text (';' :: s) =
      .commentSkipped (lineAt text (startOf text (';' :: s))) :: remarks text (behindLine s) := by
  rw [remarks, dif_neg (by decide), dif_pos rfl]

theorem remarks_token (hb : isBlank a = false) (hc : a ≠ ';') (h : lexeme a s = .token t left) :
    remarks text (a :: s) = warning (wordOf (a :: s)) ++ remarks text left := by
  rw [remarks, dif_neg (by simp [hb]), dif_neg hc]
  split <;> simp_all

theorem remarks_error (hb : isBlank a = false) (hc : a ≠ ';')
    (h : ∀ t left, lexeme a s ≠ .token t left) : remarks text (a :: s) = [] := by
  rw [remarks, dif_neg (by simp [hb]), dif_neg hc]
  split <;> simp_all

end Equations

namespace Grammar

variable {text s rest : List Char} {a : Char}

/-! ### The comment marks that a scan comes to -/

/-- From a text a scan comes to its end `rest` over blanks, comments and whole lexemes. -/
inductive Reaches : List Char → List Char → Prop
  | here (text : List Char) : Reaches text text
  | blank {a : Char} {s rest : List Char} :
      isBlank a = true → Reaches s rest → Reaches (a :: s) rest
  | comment {body s rest : List Char} :
      '\n' ∉ body → Reaches s rest → Reaches (';' :: (body ++ '\n' :: s)) rest
  | lexeme {l s rest : List Char} {t : Token} :
      Lexeme l t → (IsWord l → Breaks s) → Reaches s rest → Reaches (l ++ s) rest

theorem Lexeme.lexeme_eq {l : List Char} {t : Token} (h : Lexeme l t) (hs : IsWord l → Breaks s)
    {tail : List Char} (heq : l ++ s = a :: tail) :
    isBlank a = false ∧ a ≠ ';' ∧ MicroLisp.lexeme a tail = .token t s := by
  have hscan := h.scan_eq .nil hs
  obtain ⟨b, w, rfl, hb, hc⟩ := h.start
  rw [List.cons_append] at heq
  obtain ⟨rfl, rfl⟩ := List.cons.inj heq
  rw [List.nil_append, List.cons_append, scan_start hb hc] at hscan
  exact ⟨hb, hc, hscan⟩

theorem not_reaches_nil : ¬ Reaches [] (';' :: rest) := by
  intro h
  generalize htext : ([] : List Char) = text at h
  cases h with
  | here => cases htext
  | blank => cases htext
  | comment => cases htext
  | lexeme hl =>
    obtain ⟨b, w, rfl, -⟩ := hl.start
    cases htext

theorem reaches_blank (ha : isBlank a = true) :
    Reaches (a :: s) (';' :: rest) ↔ Reaches s (';' :: rest) := by
  refine ⟨fun h => ?_, .blank ha⟩
  generalize htext : a :: s = text at h
  cases h with
  | here =>
    obtain ⟨rfl, -⟩ := List.cons.inj htext
    exact absurd ha (by decide)
  | blank hb h =>
    obtain ⟨rfl, rfl⟩ := List.cons.inj htext
    exact h
  | comment =>
    obtain ⟨rfl, -⟩ := List.cons.inj htext
    exact absurd ha (by decide)
  | lexeme hl hs h =>
    obtain ⟨hb, -⟩ := hl.lexeme_eq hs htext.symm
    rw [ha] at hb
    cases hb

theorem reaches_comment :
    Reaches (';' :: s) (';' :: rest) ↔ rest = s ∨ Reaches (behindLine s) (';' :: rest) := by
  constructor
  · intro h
    generalize htext : ';' :: s = text at h
    cases h with
    | here => exact Or.inl (List.cons.inj htext).2.symm
    | blank hb =>
      obtain ⟨rfl, -⟩ := List.cons.inj htext
      exact absurd hb (by decide)
    | comment hbody h =>
      rw [(List.cons.inj htext).2, behindLine_append_newline hbody]
      exact Or.inr h
    | lexeme hl hs h =>
      obtain ⟨-, hc, -⟩ := hl.lexeme_eq hs htext.symm
      exact absurd rfl hc
  · rintro (rfl | h)
    · exact .here _
    · by_cases hnl : '\n' ∈ s
      · obtain ⟨body, behind, rfl, hbody⟩ := List.eq_append_cons_of_mem hnl
        rw [behindLine_append_newline hbody] at h
        exact .comment hbody h
      · rw [behindLine_of_not_mem hnl] at h
        exact absurd h not_reaches_nil

theorem reaches_token {t : Token} {left : List Char} (hb : isBlank a = false) (hc : a ≠ ';')
    (h : lexeme a s = .token t left) :
    Reaches (a :: s) (';' :: rest) ↔ Reaches left (';' :: rest) := by
  constructor
  · intro hreach
    generalize htext : a :: s = text at hreach
    cases hreach with
    | here => exact absurd (List.cons.inj htext).1 hc
    | blank hb' =>
      obtain ⟨rfl, -⟩ := List.cons.inj htext
      rw [hb] at hb'
      cases hb'
    | comment => exact absurd (List.cons.inj htext).1 hc
    | lexeme hl hs hreach =>
      obtain ⟨-, -, htoken⟩ := hl.lexeme_eq hs htext.symm
      rw [h] at htoken
      obtain ⟨-, rfl⟩ := Scan.token.inj htoken
      exact hreach
  · intro hreach
    rcases lexeme_sound hb hc .nil s with ⟨e, he, heq⟩ | ⟨t', l, left', htoken, hsplit, hl, hs⟩
    · have hscan := he.scan_eq
      rw [← heq, List.nil_append, scan_start hb hc, h] at hscan
      exact absurd hscan.symm (e.scan_ne_token t left)
    · rw [h] at htoken
      obtain ⟨rfl, rfl⟩ := Scan.token.inj htoken
      rw [hsplit]
      exact .lexeme hl hs hreach

theorem not_reaches_error (hb : isBlank a = false) (hc : a ≠ ';')
    (h : ∀ t left, lexeme a s ≠ .token t left) : ¬ Reaches (a :: s) (';' :: rest) := by
  intro hreach
  generalize htext : a :: s = text at hreach
  cases hreach with
  | here => exact hc (List.cons.inj htext).1
  | blank hb' =>
    obtain ⟨rfl, -⟩ := List.cons.inj htext
    rw [hb] at hb'
    cases hb'
  | comment => exact hc (List.cons.inj htext).1
  | lexeme hl hs =>
    obtain ⟨-, -, htoken⟩ := hl.lexeme_eq hs htext.symm
    exact h _ _ htoken

theorem commentSkipped_not_mem_warning (n : Nat) (w : List Char) :
    .commentSkipped n ∉ warning w := by
  unfold warning
  split <;> simp

theorem mem_remarks_iff (text s : List Char) (n : Nat) :
    .commentSkipped n ∈ remarks text s ↔
      ∃ rest, Reaches s (';' :: rest) ∧ n = lineAt text (startOf text (';' :: rest)) := by
  fun_induction remarks text s with
  | case1 => simp [not_reaches_nil]
  | case2 a tail ha ih => simp only [reaches_blank ha, ih]
  | case3 tail ha ih =>
    rw [List.mem_cons, ih]
    simp only [reaches_comment, or_and_right, exists_or, exists_eq_left, Event.commentSkipped.injEq]
  | case4 a tail hb hc t left h ih =>
    have hb' : isBlank a = false := by simpa using hb
    rw [List.mem_append, ih]
    simp only [reaches_token hb' hc h, commentSkipped_not_mem_warning, false_or]
  | case5 a tail hb hc h =>
    have hb' : isBlank a = false := by simpa using hb
    simp only [List.not_mem_nil, not_reaches_error hb' hc h, false_and, exists_false]

/-! ### The words that do not fit -/

theorem isWord_of_outOfRange {w : List Char} (h : Word.outOfRange w = true) : IsWord w := by
  unfold Word.outOfRange at h
  cases hn : Numeral.integer? w with
  | none =>
    rw [hn] at h
    cases h
  | some n => exact isWord_of_integer? hn

theorem warning_of_not_isWord {w : List Char} (h : ¬ IsWord w) : warning w = [] :=
  if_neg fun hrange => h (isWord_of_outOfRange hrange)

theorem warning_wordOf {l : List Char} {t : Token} (h : Lexeme l t) (hs : IsWord l → Breaks s) :
    warning (wordOf (l ++ s)) = warning l := by
  have delimiter : ∀ {d : Char}, endsWord d = true → warning (wordOf ([d] ++ s)) = warning [d] := by
    intro d hd
    have hnil : wordOf ([d] ++ s) = [] := List.takeWhile_cons_of_neg (by simp [hd])
    rw [hnil, warning_of_not_isWord fun hw => hw.ne_nil rfl, warning_of_not_isWord]
    intro hw
    have hinside := hw.inside d List.mem_cons_self
    rw [hd] at hinside
    cases hinside
  cases h with
  | leftParen => exact delimiter rfl
  | rightParen => exact delimiter rfl
  | quote => exact delimiter rfl
  | string henc =>
    rw [List.cons_append, wordOf_cons (by decide), warning_of_not_isWord fun hw => hw.start rfl,
      warning_of_not_isWord fun hw => hw.start rfl]
  | word hw => rw [(wordOf_append hw.inside (hs hw)).1]

theorem warned_warning (w : List Char) :
    (warning w).filterMap Event.warned? = ([w].filter Word.outOfRange).map String.ofList := by
  unfold warning
  split
  · next h => rw [List.filter_cons_of_pos h]; rfl
  · next h => rw [List.filter_cons_of_neg h]; rfl

theorem warned_remarks_skipBlanks (text s : List Char) :
    (remarks text s).filterMap Event.warned? =
      (remarks text (skipBlanks s)).filterMap Event.warned? := by
  fun_induction skipBlanks s with
  | case1 => rfl
  | case2 a tail ha ih => rw [remarks_blank ha, ih]
  | case3 tail ha ih =>
    rw [remarks_comment, ← ih]
    rfl
  | case4 a tail ha hc => rfl

theorem warned_remarks_ending (h : ∀ t left, scan s ≠ .token t left) :
    (remarks text s).filterMap Event.warned? = [] := by
  rw [warned_remarks_skipBlanks]
  unfold scan at h
  cases hs : skipBlanks s with
  | nil => rw [remarks_nil, List.filterMap_nil]
  | cons a tail =>
    rw [hs] at h
    obtain ⟨hb, hc⟩ := skipBlanks_head hs
    rw [remarks_error hb hc h, List.filterMap_nil]

theorem warned_remarks {ps : List Piece} {e : Ending} {ts : List Token} (text : List Char)
    (h : Parses s ps e ts) :
    (remarks text s).filterMap Event.warned? =
      ((ps.map Piece.lexeme).filter Word.outOfRange).map String.ofList := by
  induction h with
  | @ending e he =>
    apply warned_remarks_ending
    intro t left
    rw [he.scan_eq]
    exact e.scan_ne_token t left
  | @piece b l s t ps e ts hb hl hs hrest ih =>
    obtain ⟨a, w, rfl, hblank, hc⟩ := hl.start
    obtain ⟨-, -, htoken⟩ := hl.lexeme_eq hs (List.cons_append)
    have hskip : skipBlanks (b ++ (a :: w) ++ s) = a :: (w ++ s) := by
      rw [List.append_assoc, List.cons_append, skipBlanks_append_start hb hblank hc]
    have hwarning := warning_wordOf hl hs
    rw [List.cons_append] at hwarning
    rw [warned_remarks_skipBlanks, hskip, remarks_token hblank hc htoken, hwarning,
      List.filterMap_append, warned_warning, ih, ← List.map_append, ← List.filter_append]
    rfl

end Grammar
end MicroLisp
