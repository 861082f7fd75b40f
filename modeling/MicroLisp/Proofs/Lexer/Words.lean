import MicroLisp.Proofs.Cursor.Word
import MicroLisp.Proofs.Lexer.RoundTrip

/-!
# Words in a run

What a word stands for is decided by the grammar of numerals, for every sequence of
characters (`classify_by_grammar`), and so are the tokens that the words of a text spell
(`tokens_of_words`).  No word is a NaN, so tokens that a run delivers are equal to
themselves.  A cursor reads the longest word in front of it and nothing else; a
run asks for a word only behind a character that belongs to it, so that no run delivers an
empty symbol (`readWord_takes_longest`).
-/

namespace MicroLisp

open Numeral Word

theorem Token.eqv_self {t : Token} (h : ∀ x, t = .float x → x.isNaN = false) : t.eqv t = true := by
  cases t with
  | float x => simp [eqv, Binary64.eqv, h x rfl]
  | _ => exact beq_self_eq_true _

theorem Token.isEqv_self {ts : List Token} (h : ∀ x, .float x ∈ ts → x.isNaN = false) :
    ts.isEqv ts Token.eqv = true := by
  induction ts with
  | nil => rfl
  | cons t ts ih =>
    have ht : t.eqv t = true := Token.eqv_self fun x hx => h x (hx ▸ List.mem_cons_self)
    have hts := ih fun x hx => h x (List.mem_cons_of_mem t hx)
    simp only [List.isEqv, ht, hts, Bool.and_self]

namespace Lexer

theorem classify_of_not_inNumeral {word : List Char} {c : Char} (hc : c ∈ word) (h : ¬ InNumeral c)
    (hb : ∀ b : Bool, word ≠ ['#', if b then 't' else 'f']) :
    classify word = .symbol (String.ofList word) :=
  classify_eq_symbol_iff.mpr ⟨rfl, hb, fun _ hd => h (of_mem_decimal? hd.decimal? hc)⟩

theorem within_after_start (text : String) (journal : List Event) (calls : List Call) :
    ((start text journal).after calls).cursor.Within text.toList :=
  kept_after (Cursor.kept_within text.toList) (Cursor.within_start text.toList journal) calls

/-- Which kind of token a word is, of any characters whatever, and that lists of tokens that a run
delivers are equal to themselves. -/
theorem classify_by_grammar :
    (∀ word : List Char,
      (∀ b, classify word = .boolean b ↔ word = ['#', if b then 't' else 'f']) ∧
      (∀ n : Int, (∃ v : Int64, v.toInt = n ∧ classify word = .int v) ↔
        IsInteger word n ∧ -2 ^ 63 ≤ n ∧ n ≤ 2 ^ 63 - 1) ∧
      ((∃ x, classify word = .float x) ↔ (∃ d, IsDecimal word d) ∧
        ∀ n, ¬ (IsInteger word n ∧ -2 ^ 63 ≤ n ∧ n ≤ 2 ^ 63 - 1)) ∧
      (∀ s, classify word = .symbol s ↔ s = String.ofList word ∧
        (∀ b : Bool, word ≠ ['#', if b then 't' else 'f']) ∧ ∀ d, ¬ IsDecimal word d) ∧
      (∀ n, IsInteger word n → ∃ d, IsDecimal word d) ∧
      (∀ d, IsDecimal word d →
        DenotesDouble word ∧ Binary64.ofText? word = some (Binary64.ofDecimal d)) ∧
      (∀ c ∈ word, ¬ InNumeral c → (∀ b : Bool, word ≠ ['#', if b then 't' else 'f']) →
        classify word = .symbol (String.ofList word)) ∧
      ∀ x, classify word = .float x → x.isNaN = false) ∧
    (∀ s ∈ ["inf", "nan", "1e3", "1E+3", "5\n", "", "٣"], classify s.toList = .symbol s) ∧
    ∀ text journal calls ts, ((start text journal).after calls).tokens = .ok ts →
      ts.isEqv ts Token.eqv = true := by
  refine ⟨fun word => ⟨fun b => classify_eq_boolean_iff, fun n => exists_classify_eq_int_iff, ?_,
    fun s => classify_eq_symbol_iff, ?_, fun d hd => ⟨hd.denotesDouble, hd.ofText?⟩,
    fun c hc hnot => classify_of_not_inNumeral hc hnot, fun x => isNaN_of_classify_eq_float⟩, ?_, ?_⟩
  · constructor
    · rintro ⟨x, hx⟩
      obtain ⟨⟨d, hd, -⟩, hint⟩ := classify_eq_float_iff.mp hx
      exact ⟨⟨d, hd⟩, hint⟩
    · rintro ⟨⟨d, hd⟩, hint⟩
      exact ⟨_, classify_eq_float_iff.mpr ⟨⟨d, hd, rfl⟩, hint⟩⟩
  · intro n hn
    obtain ⟨d, hd, -⟩ := hn.exists_isDecimal
    exact ⟨d, hd⟩
  · decide +kernel
  · intro text journal calls ts hts
    obtain ⟨-, rfl⟩ := tokens_eq_ok_iff.mp hts
    apply Token.isEqv_self
    intro x hx
    obtain ⟨spelling, hlexeme⟩ := exists_lexeme_of_mem_drain (within_after_start text journal calls) hx
    exact hlexeme.isNaN rfl

/-- An integer below the least that fits, a digit of another script, and a run that delivers a zero. -/
theorem classify_by_grammar_beyond :
    (∃ d, IsDecimal "-9223372036854775809".toList d) ∧
      DenotesDouble "-9223372036854775809".toList ∧
      classify ['1', '٣'] = .symbol "1٣" ∧
      (Binary64.zero true).isNaN = false ∧
      [Token.float (Binary64.zero true), .quote].isEqv [.float (Binary64.zero true), .quote] Token.eqv =
        true := by
  obtain ⟨hwords, -, htokens⟩ := classify_by_grammar
  obtain ⟨-, -, -, -, hinteger, hdouble, -⟩ := hwords "-9223372036854775809".toList
  obtain ⟨-, -, -, -, -, -, hsymbol, -⟩ := hwords ['1', '٣']
  obtain ⟨-, -, -, -, -, -, -, hnan⟩ := hwords "-.0".toList
  have hread : integer? "-9223372036854775809".toList = some (-9223372036854775809) := by
    decide +kernel
  have hzero : classify "-.0".toList = .float (Binary64.zero true) := by decide +kernel
  have hrun : ((start "x -.0'" []).after [.next]).tokens =
      .ok [.float (Binary64.zero true), .quote] := tokens_eq_ok_iff.mpr (by decide +kernel)
  obtain ⟨d, hd⟩ := hinteger _ (isInteger_of_integer? hread)
  refine ⟨⟨d, hd⟩, (hdouble d hd).1, ?_, hnan _ hzero, htokens _ _ _ _ hrun⟩
  exact hsymbol '٣' (by decide) (by simp [InNumeral]) (by decide)

/-! ### The words of a text -/

theorem reading_of_lexeme {l : List Char} {t : Token} (h : Grammar.Lexeme l t)
    (hl : Grammar.IsWord l) : Reading l t := by
  have delimiter : ∀ {d : Char}, endsWord d = true → ¬ Grammar.IsWord [d] := by
    intro d hd hw
    rw [hw.inside d List.mem_cons_self] at hd
    cases hd
  cases h with
  | leftParen | rightParen | quote => exact absurd hl (delimiter rfl)
  | string henc => exact absurd rfl hl.start
  | word hw => exact reading_classify l

theorem readings_of_parse {text : List Char} {ps : List Grammar.Piece} {e : Grammar.Ending}
    {ts : List Token} (h : Grammar.Parses text ps e ts) :
    List.Forall₂ (fun p t => Grammar.IsWord p.lexeme → Reading p.lexeme t) ps ts := by
  induction h with
  | ending he => exact .nil
  | piece hb hl hs hrest ih => exact .cons (reading_of_lexeme hl) ih

/-- The tokens that a run delivers are spelled by the pieces of its text, one by one, and those that
words spell are what the grammar of numerals makes of the words. -/
theorem tokens_of_words (text : String) :
    ∃ ps e, Grammar.Parses text.toList ps e (ofText text).drain.tokens ∧
      List.Forall₂ (fun p t => Grammar.IsWord p.lexeme → Reading p.lexeme t) ps
        (ofText text).drain.tokens := by
  obtain ⟨ps, e, ts, hparse⟩ := Grammar.exists_parses text.toList
  obtain ⟨htokens, -⟩ := drain_ofText text
  rw [hparse.scanAll_eq] at htokens
  rw [htokens]
  exact ⟨ps, e, hparse, readings_of_parse hparse⟩

/-! ### Reading words -/

theorem ne_emptySymbol_of_read {text : List Char} {c : Cursor} (h : c.Within text) :
    c.readToken.1 ≠ .ok (some (.symbol "")) := by
  intro hread
  rcases h.word_of_readToken hread with hkind | hkind | ⟨a, rest, hrest, ha, heq⟩
  · cases hkind
  · cases hkind
  · have hw := Grammar.longestWord_wordOf (rest.unread a).content
    have hword := congrArg Prod.fst heq
    rw [hread, hrest.readWord_eq.1] at hword
    have hempty := eq_of_classify_eq_symbol (Option.some.inj (Except.ok.inj hword)).symm
    exact hw.ne_nil ha (String.ofList_eq_empty_iff.mp hempty.symm)

/-- Behind any readings, characters put back and lines skipped, the longest word is read and what
follows it is left; at the end of the text nothing is put back.  In a run the word stands on one line,
which the run does not leave, and it is not empty. -/
theorem readWord_takes_longest (text : String) (steps : List Cursor.Step) (calls : List Call) :
    (let c := (Cursor.ofText text.toList).after steps;
      (∃! w, Grammar.LongestWord c.content w) ∧
      ∀ w s, Grammar.LongestWord c.content w → c.content = w ++ s →
        let behind := (c.after (Cursor.reads (w.length + 1))).restored s
        c.readWord = (classify w,
            if outOfRange w then behind.note (.outOfRange (String.ofList w)) else behind) ∧
          behind.content = s ∧ (s = [] → behind.pending = [] ∧ behind.upcoming.waiting = [])) ∧
    let l := (ofText text).after calls
    (∀ w, Grammar.LongestWord l.cursor.content w → w ≠ [] →
      Cursor.OnOneLine text.toList l.cursor w) ∧
    (∀ t, l.read.1 = .ok (some t) → t.kind.isDelimiter = true ∨ t.kind = .string ∨
      ∃ (a : Char) (rest : Cursor) (w : List Char), endsWord a = false ∧
        Grammar.LongestWord (rest.unread a).content w ∧ w ≠ [] ∧
        Cursor.OnOneLine text.toList (rest.unread a) w ∧
        l.cursor.readToken = (.ok (some (classify w)), (rest.unread a).readWord.2)) ∧
    l.read.1 ≠ .ok (some (.symbol "")) ∧
    l.next.1 ≠ some (.ok (.symbol "")) ∧
    ∀ ts, l.tokens = .ok ts → .symbol "" ∉ ts := by
  refine ⟨?_, ?_⟩
  · intro c
    have h : c.Over text.toList := Cursor.over_after text.toList steps
    exact ⟨Grammar.existsUnique_longestWord _, fun w s hw hs => h.readWord_of_longest hw hs⟩
  · intro l
    have h : l.cursor.Within text.toList := within_after text calls
    have hread : l.read.1 ≠ .ok (some (.symbol "")) := ne_emptySymbol_of_read h
    refine ⟨fun w hw hne => h.onOneLine hw hne, ?_, hread, fun hnext => hread (read_of_next hnext), ?_⟩
    · intro t ht
      rcases h.word_of_readToken ht with hkind | hkind | ⟨a, rest, hrest, ha, heq⟩
      · exact Or.inl hkind
      · exact Or.inr (Or.inl hkind)
      · have hw := Grammar.longestWord_wordOf (rest.unread a).content
        have hne := hw.ne_nil ha
        rw [hrest.readWord_eq.1] at heq
        exact Or.inr (Or.inr ⟨a, rest, _, ha, hw, hne, hrest.onOneLine hw hne, heq⟩)
    · intro ts hts hmem
      obtain ⟨-, rfl⟩ := tokens_eq_ok_iff.mp hts
      obtain ⟨c, hc, hempty⟩ := exists_call (Cursor.kept_within text.toList) h hmem
      exact ne_emptySymbol_of_read hc hempty

/-- A word that begins with a character put back, a word at the end of the text, and the first word of
a run. -/
theorem readWord_takes_longest_putBack :
    let c := (Cursor.ofText "z\n12".toList).after [.unread 'q']
    let d := (Cursor.ofText "z\n12".toList).after [.nextLine, .read, .nextLine, .unread '4']
    (c.readWord.1 = .symbol "qz" ∧ c.readWord.2.content = ['\n', '1', '2']) ∧
      (d.readWord.1 = .int 412 ∧ d.readWord.2.pending = []) ∧
      Cursor.OnOneLine "z\n12".toList (ofText "z\n12").cursor ['z'] ∧
      (∃ (a : Char) (rest : Cursor), endsWord a = false ∧
        (ofText "z\n12").cursor.readToken.2 = (rest.unread a).readWord.2) ∧
      .symbol "" ∉ [Token.symbol "z", .int 12] := by
  intro c d
  obtain ⟨⟨-, hc⟩, hline, hdispatch, -, -, htokens⟩ := readWord_takes_longest "z\n12" [.unread 'q'] []
  obtain ⟨⟨-, hd⟩, -⟩ :=
    readWord_takes_longest "z\n12" [.nextLine, .read, .nextLine, .unread '4'] []
  have hcword : wordOf c.content = ['q', 'z'] := by decide +kernel
  have hdword : wordOf d.content = ['4', '1', '2'] := by decide +kernel
  have hzword : wordOf (ofText "z\n12").cursor.content = ['z'] := by decide +kernel
  obtain ⟨hcread, hcrest, -⟩ :=
    hc _ ['\n', '1', '2'] (hcword ▸ Grammar.longestWord_wordOf c.content) (by decide +kernel)
  obtain ⟨hdread, -, hdend⟩ :=
    hd _ [] (hdword ▸ Grammar.longestWord_wordOf d.content) (by decide +kernel)
  have hrange : outOfRange ['q', 'z'] = false ∧ outOfRange ['4', '1', '2'] = false := by decide
  rw [hrange.1, if_neg Bool.false_ne_true] at hcread
  rw [hrange.2, if_neg Bool.false_ne_true] at hdread
  refine ⟨⟨?_, ?_⟩, ⟨?_, ?_⟩, ?_, ?_, ?_⟩
  · rw [hcread]
    decide +kernel
  · rw [hcread]
    exact hcrest
  · rw [hdread]
    decide +kernel
  · rw [hdread]
    exact (hdend rfl).1
  · exact hline _ (hzword ▸ Grammar.longestWord_wordOf _) (List.cons_ne_nil _ _)
  · rcases hdispatch (.symbol "z") (by decide +kernel) with hkind | hkind |
      ⟨a, rest, _, ha, -, -, -, heq⟩
    · cases hkind
    · cases hkind
    · exact ⟨a, rest, ha, congrArg Prod.snd heq⟩
  · exact htokens _ (tokens_eq_ok_iff.mpr (by decide +kernel))

end Lexer
end MicroLisp
