import MicroLisp.Proofs.Grammar.Parse
import MicroLisp.Proofs.Lexer.Run

/-!
# Runs over texts put together

A text that reads well can be put in front of another one, with a newline
between them: its tokens come first and what follows is read as if it stood
alone, only further down.  A bad escape is not mended by what follows it
(`tokens_append`).
-/

namespace MicroLisp

open Text

/-- The error further down by `n` lines. -/
def Error.lowered (n : Nat) : Error → Error
  | .unterminatedString line => .unterminatedString (line + n)
  | .unsupportedEscape escape line => .unsupportedEscape escape (line + n)
  | .internerFull capacity => .internerFull capacity
  | .io message => .io message

namespace Text

theorem startOf_append_right (before : List Char) {text rest : List Char} (h : rest <:+ text) :
    startOf (before ++ text) rest = before.length + startOf text rest := by
  have hle := h.length_le
  simp only [startOf, List.length_append]
  omega

theorem startOf_append_left (text rest more : List Char) :
    startOf (text ++ more) (rest ++ more) = startOf text rest := by
  simp only [startOf, List.length_append]
  omega

end Text

namespace Grammar

theorem Breaks.append {s : List Char} (h : Breaks s) {more : List Char}
    (hmore : s ≠ [] ∨ Breaks more) : Breaks (s ++ more) := by
  cases s with
  | nil => exact hmore.resolve_left (fun hne => hne rfl)
  | cons a s => exact h

theorem breaks_newline (s : List Char) : Breaks ('\n' :: s) := by
  intro a ha
  obtain rfl := Option.some.inj ha
  decide

theorem Parses.ending_suffix {text : List Char} {ps : List Piece} {e : Ending} {ts : List Token}
    (h : Parses text ps e ts) : e.text <:+ text := by
  induction h with
  | ending he => exact List.suffix_refl _
  | piece hb hl hs hrest ih => exact ih.trans (List.suffix_append _ _)

/-! ### A text in front of another one -/

theorem scan_lastBlank_newline {b : List Char} (h : LastBlank b) (s : List Char) :
    scan (b ++ '\n' :: s) = scan s := by
  rw [scan, scan]
  cases h with
  | blank hb => rw [skipBlanks_blank_append hb, skipBlanks_blank (by decide)]
  | @comment b body hb hbody =>
    have hsplit : (b ++ ';' :: body) ++ '\n' :: s = b ++ ';' :: (body ++ '\n' :: s) := by simp
    rw [hsplit, skipBlanks_blank_append hb, skipBlanks_comment, behindLine_append_newline hbody]

theorem Parses.scanAll_newline {a last : List Char} {ps : List Piece} {e : Ending}
    {ts : List Token} (h : Parses a ps e ts) (he : e = .closed last) (b : List Char) :
    scanAll (a ++ '\n' :: b) = (ts ++ (scanAll b).1, (scanAll b).2) := by
  induction h with
  | ending hvalid =>
    subst he
    cases hvalid with
    | closed hb =>
      rw [Ending.text, scanAll_congr (scan_lastBlank_newline hb b)]
      rfl
  | @piece bl l s t ps e ts hb hl hs hrest ih =>
    -- a word at the end of the text ends at the newline now
    have hbreaks : IsWord l → Breaks (s ++ '\n' :: b) :=
      fun hw => (hs hw).append (Or.inr (breaks_newline b))
    have hscan := hl.scan_eq hb hbreaks
    rw [List.append_assoc, scanAll_token hscan, ih he]
    rfl

theorem Ending.failure_append (before : List Char) {text : List Char} {e : Ending}
    (h : e.text <:+ text) :
    e.scan.failure (before ++ text) =
      (e.scan.failure text).map (Error.lowered (before.count '\n')) := by
  cases e with
  | closed b => rfl
  | badEscape b enc letter rest =>
    have hletter : letter :: rest <:+ text := by
      refine List.IsSuffix.trans ⟨b ++ '"' :: (enc ++ ['\\']), ?_⟩ h
      simp [Ending.text]
    simp only [Ending.scan, Scan.failure, Option.map_some, Error.lowered]
    rw [← startOf_cons _ rest letter, ← startOf_cons _ rest letter,
      startOf_append_right before hletter, lineAt_append_right, Nat.add_comm]
  | unclosed b enc backslash =>
    have hquote : '"' :: (enc ++ tail backslash) <:+ text := (List.suffix_append b _).trans h
    simp only [Ending.scan, Scan.failure, Option.map_some, Error.lowered]
    rw [startOf_append_right before hquote, lineAt_append_right, Nat.add_comm]

/-! ### A text behind a bad escape -/

theorem Parses.append_badEscape {a b enc rest : List Char} {letter : Char} {ps : List Piece}
    {ts : List Token} (h : Parses a ps (.badEscape b enc letter rest) ts) (more : List Char) :
    Parses (a ++ more) ps (.badEscape b enc letter (rest ++ more)) ts := by
  generalize he : Ending.badEscape b enc letter rest = e at h
  induction h with
  | ending hvalid =>
    subst he
    cases hvalid with
    | badEscape hb henc hletter =>
      have hvalid : (Ending.badEscape b enc letter (rest ++ more)).Valid :=
        .badEscape hb henc hletter
      have htext : (Ending.badEscape b enc letter rest).text ++ more =
          (Ending.badEscape b enc letter (rest ++ more)).text := by
        simp [Ending.text]
      rw [htext]
      exact .ending hvalid
  | @piece bl l s t ps e ts hb hl hs hrest ih =>
    -- the literal follows, so the word is not the end of the text and what is added is not seen
    have hne : s ≠ [] := by
      rintro rfl
      have hnil := List.suffix_nil.mp hrest.ending_suffix
      rw [← he] at hnil
      simp [Ending.text] at hnil
    have hbreaks : IsWord l → Breaks (s ++ more) := fun hw => (hs hw).append (Or.inl hne)
    rw [List.append_assoc]
    exact .piece hb hl hbreaks (ih he)

end Grammar

namespace Lexer
open Grammar

theorem toList_append_newline (a b : String) :
    (a ++ "\n" ++ b).toList = a.toList ++ '\n' :: b.toList := by
  rw [String.toList_append, String.toList_append, List.append_assoc]
  rfl

theorem drain_append_newline {a : String} (h : (ofText a).drain.failure = none) (b : String) :
    (ofText (a ++ "\n" ++ b)).drain.tokens = (ofText a).drain.tokens ++ (ofText b).drain.tokens ∧
      (ofText (a ++ "\n" ++ b)).drain.failure =
        (ofText b).drain.failure.map (Error.lowered (1 + a.toList.count '\n')) := by
  obtain ⟨ps, e, ts, ha⟩ := exists_parses a.toList
  obtain ⟨ps', e', us, hb⟩ := exists_parses b.toList
  obtain ⟨hatokens, hafailure⟩ := drain_ofText a
  obtain ⟨hbtokens, hbfailure⟩ := drain_ofText b
  obtain ⟨htokens, hfailure⟩ := drain_ofText (a ++ "\n" ++ b)
  rw [ha.scanAll_eq] at hatokens hafailure
  rw [hb.scanAll_eq] at hbtokens hbfailure
  obtain ⟨last, rfl⟩ : ∃ last, e = .closed last := by
    rw [hafailure] at h
    cases e with
    | closed last => exact ⟨last, rfl⟩
    | badEscape b enc letter rest => cases h
    | unclosed b enc backslash => cases h
  rw [toList_append_newline, ha.scanAll_newline rfl, hb.scanAll_eq] at htokens hfailure
  refine ⟨by rw [htokens, hatokens, hbtokens], ?_⟩
  have hsplit : a.toList ++ '\n' :: b.toList = (a.toList ++ ['\n']) ++ b.toList := by simp
  have hcount : (a.toList ++ ['\n']).count '\n' = 1 + a.toList.count '\n' := by
    rw [List.count_append, List.count_singleton_self, Nat.add_comm]
  rw [hfailure, hbfailure, hsplit, Ending.failure_append _ hb.ending_suffix, hcount]

theorem drain_append_badEscape {a : String} {letter : Char} {line : Nat}
    (h : (ofText a).drain.failure = some (.unsupportedEscape letter line)) (b : String) :
    (ofText (a ++ b)).drain.tokens = (ofText a).drain.tokens ∧
      (ofText (a ++ b)).drain.failure = some (.unsupportedEscape letter line) := by
  obtain ⟨ps, e, ts, ha⟩ := exists_parses a.toList
  obtain ⟨hatokens, hafailure⟩ := drain_ofText a
  obtain ⟨htokens, hfailure⟩ := drain_ofText (a ++ b)
  rw [ha.scanAll_eq] at hatokens hafailure
  rw [hafailure] at h
  cases e with
  | closed last => cases h
  | unclosed bl enc backslash => cases h
  | badEscape bl enc letter' rest =>
    rw [String.toList_append, (ha.append_badEscape b.toList).scanAll_eq] at htokens hfailure
    refine ⟨htokens.trans hatokens.symm, ?_⟩
    rw [hfailure, ← h]
    simp only [Ending.scan, Scan.failure]
    rw [startOf_append_left, lineAt_append_left]
    exact (Nat.sub_le _ _).trans (startOf_le _ _)

/-- A text that reads well in front of another one, and a bad escape in front of anything. -/
theorem tokens_append (a b : String) :
    (∀ ts, (ofText a).tokens = .ok ts →
      (∀ us, (ofText b).tokens = .ok us → (ofText (a ++ "\n" ++ b)).tokens = .ok (ts ++ us)) ∧
      (∀ e, (ofText b).tokens = .error e →
        (ofText (a ++ "\n" ++ b)).tokens = .error (e.lowered (1 + a.toList.count '\n')) ∧
        (ofText (a ++ "\n" ++ b)).drain.tokens = ts ++ (ofText b).drain.tokens)) ∧
    (∀ letter line, (ofText a).tokens = .error (.unsupportedEscape letter line) →
      (ofText (a ++ b)).tokens = .error (.unsupportedEscape letter line) ∧
      (ofText (a ++ b)).drain.tokens = (ofText a).drain.tokens) := by
  constructor
  · intro ts hts
    obtain ⟨hnone, rfl⟩ := tokens_eq_ok_iff.mp hts
    obtain ⟨htokens, hfailure⟩ := drain_append_newline hnone b
    constructor
    · intro us hus
      obtain ⟨hnone', rfl⟩ := tokens_eq_ok_iff.mp hus
      rw [hnone'] at hfailure
      exact tokens_eq_ok_iff.mpr ⟨hfailure, htokens⟩
    · intro e he
      rw [tokens_eq_error_iff.mp he] at hfailure
      exact ⟨tokens_eq_error_iff.mpr hfailure, htokens⟩
  · intro letter line herror
    obtain ⟨htokens, hfailure⟩ := drain_append_badEscape (tokens_eq_error_iff.mp herror) b
    exact ⟨tokens_eq_error_iff.mpr hfailure, htokens⟩

/-- A comment without a newline in front of a quote, and of a bad escape on the second line. -/
theorem tokens_append_behind_comment :
    (ofText ("(x ;y" ++ "\n" ++ "'")).tokens = .ok [.leftParen, .symbol "x", .quote] ∧
    (ofText ("(x ;y" ++ "\n" ++ ")\n\"\\q")).tokens = .error (.unsupportedEscape 'q' 3) ∧
    (ofText ("(x ;y" ++ "\n" ++ ")\n\"\\q")).drain.tokens =
      [.leftParen, .symbol "x", .rightParen] ∧
    (ofText (")\n\"\\q" ++ "\"")).tokens = .error (.unsupportedEscape 'q' 2) := by
  have hcomment : (ofText "(x ;y").tokens = .ok [.leftParen, .symbol "x"] :=
    tokens_eq_ok_iff.mpr (by decide +kernel)
  have hquote : (ofText "'").tokens = .ok [.quote] := tokens_eq_ok_iff.mpr (by decide +kernel)
  have hescape : (ofText ")\n\"\\q").tokens = .error (.unsupportedEscape 'q' 2) :=
    tokens_eq_error_iff.mpr (by decide +kernel)
  have hdelivered : (ofText ")\n\"\\q").drain.tokens = [.rightParen] := by decide +kernel
  obtain ⟨hlowered, htokens⟩ :=
    ((tokens_append "(x ;y" ")\n\"\\q").1 _ hcomment).2 _ hescape
  rw [hdelivered] at htokens
  refine ⟨((tokens_append "(x ;y" "'").1 _ hcomment).1 _ hquote, hlowered, htokens, ?_⟩
  exact ((tokens_append ")\n\"\\q" "\"").2 _ _ hescape).1

end Lexer
end MicroLisp
