import MicroLisp.Proofs.Grammar.Lexeme

/-!
# Parses of a text

A text is cut into pieces, each a blank and a lexeme, and an ending: a blank, or
else a string literal that breaks off at a bad escape or at the end of the text.
Every text has exactly one parse (`exists_parses`, `Parses.unique`), and the flat
scanner finds it (`Parses.scanAll_eq`).
-/

namespace MicroLisp.Grammar

/-- A lexeme and the blank in front of it. -/
structure Piece where
  blank : List Char
  lexeme : List Char

/-- What stands behind the last lexeme. -/
inductive Ending
  | closed (blank : List Char)
  | badEscape (blank enc : List Char) (escape : Char) (rest : List Char)
  | unclosed (blank enc : List Char) (backslash : Bool)

namespace Ending

def text : Ending → List Char
  | .closed blank => blank
  | .badEscape blank enc e rest => blank ++ '"' :: (enc ++ '\\' :: e :: rest)
  | .unclosed blank enc backslash => blank ++ '"' :: (enc ++ tail backslash)

inductive Valid : Ending → Prop
  | closed {b : List Char} : LastBlank b → Valid (.closed b)
  | badEscape {b enc value rest : List Char} {e : Char} :
      Blank b → Encoding enc value → (∀ a, (e, a) ∉ escapes) → Valid (.badEscape b enc e rest)
  | unclosed {b enc value : List Char} {backslash : Bool} :
      Blank b → Encoding enc value → Valid (.unclosed b enc backslash)

def scan : Ending → Scan
  | .closed _ => .finish
  | .badEscape _ _ e rest => .badEscape e rest
  | .unclosed _ enc backslash => .unclosed ('"' :: (enc ++ tail backslash))

end Ending

/-- `text` consists of pieces, which spell the tokens, and an ending.  A word is not cut short. -/
inductive Parses : List Char → List Piece → Ending → List Token → Prop
  | ending {e : Ending} : e.Valid → Parses e.text [] e []
  | piece {b l s : List Char} {t : Token} {ps : List Piece} {e : Ending} {ts : List Token} :
      Blank b → Lexeme l t → (IsWord l → Breaks s) → Parses s ps e ts →
      Parses (b ++ l ++ s) (⟨b, l⟩ :: ps) e (t :: ts)

/-! ### The scanner finds what is spelled -/

theorem Lexeme.start {l : List Char} {t : Token} (h : Lexeme l t) :
    ∃ a rest, l = a :: rest ∧ isBlank a = false ∧ a ≠ ';' := by
  cases h with
  | leftParen => exact ⟨'(', [], rfl, by decide, by decide⟩
  | rightParen => exact ⟨')', [], rfl, by decide, by decide⟩
  | quote => exact ⟨'\'', [], rfl, by decide, by decide⟩
  | string henc => exact ⟨'"', _, rfl, by decide, by decide⟩
  | word hw =>
    obtain ⟨a, rest, rfl⟩ := List.exists_cons_of_ne_nil hw.ne_nil
    obtain ⟨hb, hc, -⟩ := start_of_endsWord (hw.inside a List.mem_cons_self)
    exact ⟨a, rest, rfl, hb, hc⟩

theorem Lexeme.scan_eq {b l s : List Char} {t : Token} (hb : Blank b) (h : Lexeme l t)
    (hs : IsWord l → Breaks s) : MicroLisp.scan (b ++ l ++ s) = .token t s := by
  rw [List.append_assoc]
  cases h with
  | leftParen => exact scan_append_start hb (by decide) (by decide) s
  | rightParen => exact scan_append_start hb (by decide) (by decide) s
  | quote => exact scan_append_start hb (by decide) (by decide) s
  | @string enc value henc =>
    have hl : ('"' :: (enc ++ ['"'])) ++ s = '"' :: (enc ++ '"' :: s) := by simp
    rw [hl, scan_append_start hb (by decide) (by decide), lexeme_quote, read_closed henc,
      Literal.found]
  | word hw =>
    obtain ⟨hword, hrest⟩ := wordOf_append hw.inside (hs hw)
    obtain ⟨a, w, rfl⟩ := List.exists_cons_of_ne_nil hw.ne_nil
    have ha := hw.inside a List.mem_cons_self
    have hq : a ≠ '"' := fun he => hw.start (congrArg some he)
    obtain ⟨hblank, hc, -⟩ := start_of_endsWord ha
    rw [List.cons_append] at hword hrest ⊢
    rw [scan_append_start hb hblank hc, lexeme_word ha hq, hword, hrest]

theorem Ending.Valid.scan_eq {e : Ending} (h : e.Valid) : MicroLisp.scan e.text = e.scan := by
  cases h with
  | closed hb => rw [Ending.text, MicroLisp.scan, skipBlanks_lastBlank hb, Ending.scan]
  | badEscape hb henc he =>
    rw [Ending.text, scan_append_start hb (by decide) (by decide), lexeme_quote,
      read_encoding_badEscape henc he, Literal.found, Ending.scan]
  | unclosed hb henc =>
    rw [Ending.text, scan_append_start hb (by decide) (by decide), lexeme_quote,
      read_unclosed henc, Literal.found, Ending.scan]

theorem Ending.scan_ne_token (e : Ending) (t : Token) (rest : List Char) :
    e.scan ≠ .token t rest := by
  cases e <;> exact Scan.noConfusion

theorem Parses.scanAll_eq {text : List Char} {ps : List Piece} {e : Ending} {ts : List Token}
    (h : Parses text ps e ts) : scanAll text = (ts, e.scan) := by
  induction h with
  | @ending e he =>
    have hscan := he.scan_eq
    rw [scanAll_end, hscan]
    intro t rest
    rw [hscan]
    exact e.scan_ne_token t rest
  | piece hb hl hs hrest ih => rw [scanAll_token (hl.scan_eq hb hs), ih]

/-! ### What is scanned is spelled -/

theorem lexeme_sound {a : Char} (ha : isBlank a = false) (hc : a ≠ ';') {b : List Char}
    (hb : Blank b) (rest : List Char) :
    (∃ e : Ending, e.Valid ∧ b ++ a :: rest = e.text) ∨
      ∃ t l s, lexeme a rest = .token t s ∧ a :: rest = l ++ s ∧ Lexeme l t ∧
        (IsWord l → Breaks s) := by
  have delimiter : ∀ {d : Char} {s : List Char}, endsWord d = true → IsWord [d] → Breaks s := by
    intro d s hd hw
    have hnot := hw.inside d List.mem_cons_self
    rw [hd] at hnot
    exact absurd hnot (by decide)
  by_cases ho : a = '('
  · subst ho
    exact Or.inr ⟨_, ['('], rest, rfl, rfl, .leftParen, delimiter (by decide)⟩
  by_cases hp : a = ')'
  · subst hp
    exact Or.inr ⟨_, [')'], rest, rfl, rfl, .rightParen, delimiter (by decide)⟩
  by_cases hq : a = '\''
  · subst hq
    exact Or.inr ⟨_, ['\''], rest, rfl, rfl, .quote, delimiter (by decide)⟩
  by_cases hd : a = '"'
  · subst hd
    have hspells := spells_read rest
    rw [lexeme_quote]
    cases hl : Literal.read rest with
    | closed value s =>
      rw [hl] at hspells
      obtain ⟨enc, henc, rfl⟩ := hspells
      refine Or.inr ⟨_, '"' :: (enc ++ ['"']), s, rfl, by simp, .string henc, ?_⟩
      intro hw
      exact absurd rfl hw.start
    | badEscape e s =>
      rw [hl] at hspells
      obtain ⟨enc, value, henc, he, rfl⟩ := hspells
      exact Or.inl ⟨.badEscape b enc e s, .badEscape hb henc he, rfl⟩
    | unclosed =>
      rw [hl] at hspells
      obtain ⟨enc, value, backslash, henc, rfl⟩ := hspells
      exact Or.inl ⟨.unclosed b enc backslash, .unclosed hb henc, rfl⟩
  · have hends := endsWord_eq_false ha hc ho hp hq
    refine Or.inr ⟨_, _, _, lexeme_word hends hd rest, (wordOf_append_behindWord _).symm,
      .word (isWord_wordOf hends hd rest), ?_⟩
    intro _
    exact breaks_behindWord _

/-- A text is an ending, or it begins with a piece. -/
theorem scan_sound (text : List Char) :
    (∃ e : Ending, e.Valid ∧ text = e.text) ∨
      ∃ b l s t, text = b ++ l ++ s ∧ scan text = .token t s ∧ Blank b ∧ Lexeme l t ∧
        (IsWord l → Breaks s) := by
  rcases blank_skipBlanks text with ⟨hnil, hlast⟩ | ⟨b, hb, htext⟩
  · exact Or.inl ⟨.closed text, .closed hlast, rfl⟩
  · cases hskip : skipBlanks text with
    | nil =>
      rw [hskip, List.append_nil] at htext
      exact Or.inl ⟨.closed b, .closed (.blank hb), htext⟩
    | cons a rest =>
      obtain ⟨ha, hc⟩ := skipBlanks_head hskip
      rw [hskip] at htext
      rcases lexeme_sound ha hc hb rest with ⟨e, he, heq⟩ | ⟨t, l, s, hlex, hsplit, hl, hs⟩
      · exact Or.inl ⟨e, he, htext.trans heq⟩
      · refine Or.inr ⟨b, l, s, t, ?_, ?_, hb, hl, hs⟩
        · rw [htext, hsplit, List.append_assoc]
        · rw [scan, hskip, ← hlex]

theorem exists_parses (text : List Char) : ∃ ps e ts, Parses text ps e ts := by
  induction hn : text.length using Nat.strongRecOn generalizing text with
  | _ n ih =>
    rcases scan_sound text with ⟨e, he, rfl⟩ | ⟨b, l, s, t, htext, hscan, hb, hl, hs⟩
    · exact ⟨[], e, [], .ending he⟩
    · have hlt := length_of_scan_eq_token hscan
      obtain ⟨ps, e, ts, hrest⟩ := ih s.length (hn ▸ hlt) s rfl
      rw [htext]
      exact ⟨⟨b, l⟩ :: ps, e, t :: ts, .piece hb hl hs hrest⟩

/-! ### A text has one parse -/

theorem blank_unique {b b' s s' : List Char} {a a' : Char} (hb : Blank b) (hb' : Blank b')
    (ha : isBlank a = false) (hc : a ≠ ';') (ha' : isBlank a' = false) (hc' : a' ≠ ';')
    (heq : b ++ a :: s = b' ++ a' :: s') : b = b' ∧ a :: s = a' :: s' := by
  have hskip := skipBlanks_append_start hb ha hc s
  rw [heq, skipBlanks_append_start hb' ha' hc'] at hskip
  rw [hskip] at heq
  exact ⟨List.append_cancel_right heq, hskip.symm⟩

theorem Ending.Valid.unique {e e' : Ending} (h : e.Valid) (h' : e'.Valid)
    (heq : e.text = e'.text) : e = e' := by
  have hscan : e.scan = e'.scan := by rw [← h.scan_eq, ← h'.scan_eq, heq]
  cases h with
  | closed hb =>
    cases h' with
    | closed hb' => exact congrArg Ending.closed heq
    | badEscape hb' henc' he' => cases hscan
    | unclosed hb' henc' => cases hscan
  | badEscape hb henc he =>
    cases h' with
    | closed hb' => cases hscan
    | badEscape hb' henc' he' =>
      obtain ⟨rfl, rfl⟩ := Scan.badEscape.inj hscan
      obtain ⟨rfl, hbody⟩ :=
        blank_unique hb hb' (by decide) (by decide) (by decide) (by decide) heq
      rw [List.append_cancel_right (List.cons.inj hbody).2]
    | unclosed hb' henc' => cases hscan
  | unclosed hb henc =>
    cases h' with
    | closed hb' => cases hscan
    | badEscape hb' henc' he' => cases hscan
    | unclosed hb' henc' =>
      obtain ⟨rfl, hbody⟩ :=
        blank_unique hb hb' (by decide) (by decide) (by decide) (by decide) heq
      obtain ⟨rfl, rfl⟩ := unclosed_unique henc henc' (List.cons.inj hbody).2
      rfl

theorem piece_unique {b b' l l' s s' : List Char} {t t' : Token} (hb : Blank b) (hb' : Blank b')
    (hl : Lexeme l t) (hl' : Lexeme l' t') (hs : IsWord l → Breaks s) (hs' : IsWord l' → Breaks s')
    (heq : b ++ l ++ s = b' ++ l' ++ s') : b = b' ∧ l = l' ∧ t = t' ∧ s = s' := by
  -- the scanner finds one token and leaves one rest, so what is in front of the rest is the same
  have hscan := hl.scan_eq hb hs
  rw [heq, hl'.scan_eq hb' hs'] at hscan
  obtain ⟨rfl, rfl⟩ := Scan.token.inj hscan
  obtain ⟨a, w, rfl, ha, hc⟩ := hl.start
  obtain ⟨a', w', rfl, ha', hc'⟩ := hl'.start
  rw [List.append_assoc, List.append_assoc, List.cons_append, List.cons_append] at heq
  obtain ⟨rfl, hword⟩ := blank_unique hb hb' ha hc ha' hc' heq
  rw [← List.cons_append, ← List.cons_append] at hword
  exact ⟨rfl, List.append_cancel_right hword, rfl, rfl⟩

theorem Parses.unique {text : List Char} {ps ps' : List Piece} {e e' : Ending}
    {ts ts' : List Token} (h : Parses text ps e ts) (h' : Parses text ps' e' ts') :
    ps' = ps ∧ e' = e ∧ ts' = ts := by
  -- a text that begins with a piece is no ending, since the scanner finds a token in the one only
  induction h generalizing ps' ts' with
  | @ending e he =>
    have hscan := he.scan_eq
    generalize heq : e.text = text at h'
    cases h' with
    | ending he' => exact ⟨rfl, he'.unique he heq.symm, rfl⟩
    | piece hb' hl' hs' hrest' =>
      rw [heq, hl'.scan_eq hb' hs'] at hscan
      exact absurd hscan.symm (e.scan_ne_token _ _)
  | @piece b l s t ps e ts hb hl hs hrest ih =>
    have hscan := hl.scan_eq hb hs
    generalize heq : b ++ l ++ s = text at h'
    cases h' with
    | ending he' =>
      rw [heq, he'.scan_eq] at hscan
      exact absurd hscan (e'.scan_ne_token _ _)
    | piece hb' hl' hs' hrest' =>
      obtain ⟨rfl, rfl, rfl, rfl⟩ := piece_unique hb hb' hl hl' hs hs' heq
      obtain ⟨rfl, rfl, rfl⟩ := ih hrest'
      exact ⟨rfl, rfl, rfl⟩

end MicroLisp.Grammar
