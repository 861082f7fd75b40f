import MicroLisp.Proofs.Grammar.Parse
import MicroLisp.Proofs.Lexer.Stream
import MicroLisp.Proofs.Token.Spelling

/-!
# Writing tokens and reading them again

The tokens of a text, written one behind the other with a blank between neighbours,
are read as the same tokens (`tokens_spaced`): each has a spelling that is read as
it, and in front of a blank no spelling runs on into the next.
-/

namespace MicroLisp

namespace Grammar

/-- Tokens in their own spellings, with `sep i` between the token at place `i` and the next. -/
def spaced (sep : Nat → List Char) : List Token → List Char
  | [] => []
  | [t] => t.spelling
  | t :: u :: ts => t.spelling ++ (sep 0 ++ spaced (fun i => sep (i + 1)) (u :: ts))

/-! ### What is read has a spelling -/

theorem exists_lexeme_of_scan {text rest : List Char} {t : Token}
    (h : scan text = .token t rest) : ∃ l, Lexeme l t := by
  rcases scan_sound text with ⟨e, he, rfl⟩ | ⟨b, l, s, u, htext, hscan, hb, hl, hs⟩
  · rw [he.scan_eq] at h
    exact absurd h (e.scan_ne_token t rest)
  · rw [hscan] at h
    obtain ⟨rfl, -⟩ := Scan.token.inj h
    exact ⟨l, hl⟩

theorem Parses.exists_lexeme {text : List Char} {ps : List Piece} {e : Ending} {ts : List Token}
    (h : Parses text ps e ts) {t : Token} (ht : t ∈ ts) : ∃ l, Lexeme l t := by
  induction h with
  | ending he => cases ht
  | piece hb hl hs hrest ih =>
    rcases List.mem_cons.mp ht with rfl | ht
    · exact ⟨_, hl⟩
    · exact ih ht

/-! ### Spellings between blanks -/

theorem breaks_nil : Breaks [] := by
  intro a ha
  cases ha

theorem Blank.breaks {b : List Char} (h : Blank b) (hne : b ≠ []) (s : List Char) :
    Breaks (b ++ s) := by
  intro a ha
  cases h with
  | nil => exact absurd rfl hne
  | space hblank hb =>
    obtain rfl := Option.some.inj ha
    exact endsWord_of_isBlank hblank
  | comment hbody hb =>
    obtain rfl := Option.some.inj ha
    rfl

theorem parses_spaced {ts : List Token} (h : ∀ t ∈ ts, Lexeme t.spelling t)
    {sep : Nat → List Char} (hsep : ∀ i, i + 1 < ts.length → Blank (sep i) ∧ sep i ≠ [])
    {b : List Char} (hb : Blank b) :
    ∃ ps last, Parses (b ++ spaced sep ts) ps (.closed last) ts := by
  induction ts generalizing sep b with
  | nil =>
    refine ⟨[], b, ?_⟩
    rw [spaced, List.append_nil]
    exact .ending (.closed (.blank hb))
  | cons t ts ih =>
    have ht := h t List.mem_cons_self
    cases ts with
    | nil =>
      have hend : Parses [] [] (.closed []) [] := .ending (.closed (.blank .nil))
      have hpiece := Parses.piece hb ht (fun _ => breaks_nil) hend
      rw [List.append_nil] at hpiece
      exact ⟨_, _, hpiece⟩
    | cons u ts =>
      obtain ⟨hblank, hne⟩ := hsep 0 (by simp)
      obtain ⟨ps, last, hrest⟩ := ih (fun t' ht' => h t' (List.mem_cons_of_mem _ ht'))
        (fun i hi => hsep (i + 1) (Nat.succ_lt_succ hi)) hblank
      have hpiece := Parses.piece hb ht (fun _ => hblank.breaks hne _) hrest
      rw [List.append_assoc] at hpiece
      exact ⟨_, _, hpiece⟩

end Grammar

namespace Lexer
open Grammar

theorem exists_lexeme_of_read {text : List Char} {l : Lexer} (h : l.cursor.Within text) {t : Token}
    (hread : l.read.1 = .ok (some t)) : ∃ spelling, Lexeme spelling t := by
  have hanswer : l.read.1 = (scan l.cursor.content).answer text := h.readToken_eq.1
  rw [hread] at hanswer
  cases hscan : scan l.cursor.content with
  | token u rest =>
    rw [hscan] at hanswer
    obtain rfl : t = u := by simpa [Scan.answer] using hanswer
    exact exists_lexeme_of_scan hscan
  | finish | badEscape | unclosed =>
    rw [hscan] at hanswer
    cases hanswer

theorem exists_lexeme_of_mem_drain {text : List Char} {l : Lexer} (h : l.cursor.Within text)
    {t : Token} (ht : t ∈ l.drain.tokens) : ∃ spelling, Lexeme spelling t := by
  obtain ⟨c, hc, hread⟩ := exists_call (Cursor.kept_within text) h ht
  exact exists_lexeme_of_read (l := ⟨c, false⟩) hc hread

theorem read_of_next {l : Lexer} {t : Token} (h : l.next.1 = some (.ok t)) :
    l.read.1 = .ok (some t) := by
  cases hf : l.finished with
  | true =>
    rw [next_of_finished hf] at h
    cases h
  | false =>
    rw [next_of_live hf] at h
    generalize l.read.1 = answer at h ⊢
    rcases answer with e | (_ | u)
    · cases h
    · cases h
    · obtain rfl : u = t := by simpa [forNext] using h
      rfl

/-- The tokens of a text without infinite floats, each in its own spelling and with a blank that is
not empty between neighbours, are read again as they are.  A symbol, whichever call delivers it, is a
word that stands for itself. -/
theorem tokens_spaced (text : String) :
    (∀ calls s, (((ofText text).after calls).read.1 = .ok (some (.symbol s)) ∨
        ((ofText text).after calls).next.1 = some (.ok (.symbol s))) →
      IsWord s.toList ∧ Word.classify s.toList = .symbol s) ∧
    ∀ ts, (ofText text).tokens = .ok ts →
      (∀ s, .symbol s ∈ ts → IsWord s.toList ∧ Word.classify s.toList = .symbol s) ∧
      ((∀ x, .float x ∈ ts → x.isInfinite = false) →
        ∀ sep : Nat → List Char, (∀ i, i + 1 < ts.length → Blank (sep i) ∧ sep i ≠ []) →
          (ofText (String.ofList (spaced sep ts))).tokens = .ok ts) := by
  constructor
  · intro calls s hdelivers
    have hread : ((ofText text).after calls).read.1 = .ok (some (.symbol s)) := by
      rcases hdelivers with hread | hnext
      · exact hread
      · exact read_of_next hnext
    obtain ⟨spelling, hlexeme⟩ := exists_lexeme_of_read (within_after text calls) hread
    exact hlexeme.symbol rfl
  · intro ts hts
    obtain ⟨-, rfl⟩ := tokens_eq_ok_iff.mp hts
    obtain ⟨ps, e, us, hparse⟩ := exists_parses text.toList
    have htokens := (drain_ofText text).1
    rw [hparse.scanAll_eq] at htokens
    rw [htokens]
    refine ⟨fun s hs => ?_, fun hfinite sep hsep => ?_⟩
    · obtain ⟨spelling, hlexeme⟩ := hparse.exists_lexeme hs
      exact hlexeme.symbol rfl
    · have hspelled : ∀ t ∈ us, Lexeme t.spelling t := by
        intro t ht
        obtain ⟨spelling, hlexeme⟩ := hparse.exists_lexeme ht
        refine hlexeme.respelled fun x hx => hfinite x ?_
        exact hx ▸ ht
      obtain ⟨ps', last, hparse'⟩ := parses_spaced hspelled hsep .nil
      obtain ⟨htokens', hfailure'⟩ := drain_ofText (String.ofList (spaced sep us))
      rw [List.nil_append] at hparse'
      rw [String.toList_ofList, hparse'.scanAll_eq] at htokens' hfailure'
      exact tokens_eq_ok_iff.mpr ⟨hfailure', htokens'⟩

/-- A quoted symbol and a literal of each kind. -/
def literals : List Token :=
  [.quote, .symbol "x", .float (Binary64.zero true), .float (Binary64.ofDecimal ⟨false, 1, 22⟩),
    .string "a\n\"", .boolean true, .int (-7)]

/-- The same tokens with a comment between neighbours: the zero keeps its sign, and an exponent gets
one.  A symbol that is met behind an error is a word as well. -/
theorem tokens_spaced_literals :
    (ofText "'x -0. 10000000000000000000000. \"a\\n\\\"\"#t -07").tokens = .ok literals ∧
    (ofText "';z\nx;z\n-0.0;z\n1e+22;z\n\"a\\n\\\"\";z\n#t;z\n-7").tokens = .ok literals ∧
    IsWord "x".toList ∧
    ((ofText "\"\\q a").after [.next]).read.1 = .ok (some (.symbol "a")) ∧
    Word.classify "a".toList = .symbol "a" := by
  have hread : (ofText "'x -0. 10000000000000000000000. \"a\\n\\\"\"#t -07").tokens =
      .ok literals := tokens_eq_ok_iff.mpr (by decide +kernel)
  have hfinite : ∀ x, .float x ∈ literals → x.isInfinite = false := by
    intro x hx
    have hmem : x = Binary64.zero true ∨ x = Binary64.ofDecimal ⟨false, 1, 22⟩ := by
      simpa [literals] using hx
    rcases hmem with rfl | rfl
    · decide +kernel
    · decide +kernel
  have hblank : Blank [';', 'z', '\n'] := .comment (show '\n' ∉ ['z'] by decide) .nil
  obtain ⟨hsymbols, hspaced⟩ := (tokens_spaced _).2 literals hread
  have htext : String.ofList (spaced (fun _ => [';', 'z', '\n']) literals) =
      "';z\nx;z\n-0.0;z\n1e+22;z\n\"a\\n\\\"\";z\n#t;z\n-7" := by decide +kernel
  have hbehind : ((ofText "\"\\q a").after [.next]).read.1 = .ok (some (.symbol "a")) := by
    decide +kernel
  refine ⟨hread, ?_, (hsymbols "x" (by simp [literals])).1, hbehind,
    ((tokens_spaced _).1 [.next] "a" (Or.inl hbehind)).2⟩
  rw [← htext]
  exact hspaced hfinite _ fun _ _ => ⟨hblank, List.cons_ne_nil _ _⟩

end Lexer
end MicroLisp
