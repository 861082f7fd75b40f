import MicroLisp.Proofs.Grammar.Remarks
import MicroLisp.Proofs.Input
import MicroLisp.Proofs.Lexer.LineNumber
import MicroLisp.Proofs.Word

/-!
# What the events of a run account for

Behind each call the journal holds the remarks on all that has been read, and those on
the rest of the text are left to the run (`Within.remarked_readToken`).  At the end of a
run nothing is left, and its lines have been loaded up to the one that it came to: the
last line of the text, or that of a bad escape.  The events of a run over a stream say
no less and no more (`events_of_stream`).
-/

namespace MicroLisp
open Text Grammar

variable {text : List Char} {c rest : Cursor} {a : Char}

namespace Cursor

def remarked (c : Cursor) : List Event := c.journal.reverse.filter Event.isRemark

theorem remarked_note (c : Cursor) (e : Event) :
    (c.note e).remarked = c.remarked ++ [e].filter Event.isRemark := by
  rw [remarked, note, List.reverse_cons, List.filter_append]
  rfl

theorem remarked_loaded {es journal : List Event} {line length : Nat}
    (h : journal.reverse.filter Event.isRemark = es) :
    (Event.lineLoaded line length :: journal).reverse.filter Event.isRemark = es := by
  rw [List.reverse_cons, List.filter_append, h]
  exact List.append_nil es

theorem remarked_nextLine (c : Cursor) : c.nextLine.remarked = c.remarked :=
  journal_nextLine (Q := (·.reverse.filter Event.isRemark = c.remarked)) remarked_loaded rfl

theorem keptByReading_remarked (es : List Event) : KeptByReading (·.remarked = es) :=
  keptByReading_journal (Q := (·.reverse.filter Event.isRemark = es)) remarked_loaded

theorem remarked_of_read {r : Option Char} (hr : c.read = (r, rest)) :
    rest.remarked = c.remarked :=
  (keptByReading_remarked c.remarked).of_read rfl hr

theorem Over.remarked_readWord (h : Over text c) :
    c.readWord.2.remarked = c.remarked ++ warning (wordOf c.content) := by
  have hword : c.takeWord.1 = wordOf c.content := (h.takeWordFrom_eq []).1
  have hkept : c.takeWord.2.remarked = c.remarked :=
    (keptByReading_remarked c.remarked).takeWordFrom [] rfl
  simp only [readWord, hword, warning]
  split
  · rw [remarked_note, hkept]
    rfl
  · rw [hkept, List.append_nil]

/-! ### What a call adds to the journal -/

/-- What is left to remark on behind a call: nothing if it was the last one. -/
def remarksLeft (text : List Char) : Except Error (Option Token) × Cursor → List Event
  | (.ok (some _), rest) => remarks text rest.content
  | _ => []

theorem remarks_delimiter (hb : isBlank a = false) (hc : a ≠ ';') (ha : endsWord a = true)
    {s : List Char} {t : Token} (h : lexeme a s = .token t s) :
    remarks text (a :: s) = remarks text s := by
  have hnil : wordOf (a :: s) = [] := List.takeWhile_cons_of_neg (by simp [ha])
  rw [remarks_token hb hc h, hnil, warning_of_not_isWord fun hw => hw.ne_nil rfl]
  rfl

theorem Within.remarksLeft_readString (h : Within text c) (hr : c.read = (some '"', rest))
    {result : Except Error String} {left : Cursor} (hs : rest.readString = (result, left)) :
    left.remarked ++ remarksLeft text (result.map (fun s => some (.string s)), left) =
      c.remarked ++ remarks text c.content := by
  obtain ⟨hanswer, hrest, -⟩ := h.readString_eq hr hs
  have hkept : left.remarked = c.remarked := by
    have hstring := (keptByReading_remarked c.remarked).readStringFrom rest.line []
      (remarked_of_read hr)
    have hs' : rest.readStringFrom rest.line [] = (result, left) := hs
    rwa [hs'] at hstring
  have hstart : isBlank '"' = false ∧ '"' ≠ ';' := by decide
  rw [hkept, hanswer, content_read hr]
  congr 1
  cases hl : Literal.read rest.content with
  | closed value behind =>
    rw [hl] at hrest
    have hlexeme := lexeme_quote rest.content
    rw [hl] at hlexeme
    have hword : warning (wordOf ('"' :: rest.content)) = [] := by
      rw [wordOf_cons (by decide)]
      exact warning_of_not_isWord fun hw => hw.start rfl
    rw [remarks_token hstart.1 hstart.2 hlexeme, hword]
    exact congrArg (remarks text) hrest
  | badEscape e behind =>
    rw [remarks_error hstart.1 hstart.2]
    · rfl
    · intro t s
      rw [lexeme_quote, hl]
      exact Scan.noConfusion
  | unclosed =>
    rw [remarks_error hstart.1 hstart.2]
    · rfl
    · intro t s
      rw [lexeme_quote, hl]
      exact Scan.noConfusion

/-- A call moves what it reads from the remarks that are left to those in the journal. -/
theorem Within.remarked_readToken (h : Within text c) :
    c.readToken.2.remarked ++ remarksLeft text c.readToken =
      c.remarked ++ remarks text c.content := by
  fun_induction Cursor.readToken c with
  | case1 c r hr =>
    obtain ⟨hnil, -⟩ := h.read_eq_none hr
    rw [remarked_of_read hr, hnil, remarks_nil]
    rfl
  | case2 c b r hr hb ih =>
    rw [ih ((kept_within text).of_read h hr), remarked_of_read hr, content_read hr,
      remarks_blank hb]
  | case3 c r hr hb ih =>
    -- the comment is noted before the line that follows it is loaded
    rw [ih ((kept_within text).comment h hr), remarked_nextLine, remarked_note,
      remarked_of_read hr, content_nextLine, h.line_of_read hr, content_read hr, remarks_comment,
      h.behindLine_of_read hr (by decide), List.append_assoc]
    rfl
  | case4 c r hr hb =>
    rw [remarked_of_read hr, content_read hr, remarks_delimiter (by decide) (by decide) rfl rfl]
    rfl
  | case5 c r hr hb =>
    rw [remarked_of_read hr, content_read hr, remarks_delimiter (by decide) (by decide) rfl rfl]
    rfl
  | case6 c r hr hb =>
    rw [remarked_of_read hr, content_read hr, remarks_delimiter (by decide) (by decide) rfl rfl]
    rfl
  | case7 c r s r' hs hr => exact h.remarksLeft_readString hr hs
  | case8 c r e r' hs hr => exact h.remarksLeft_readString hr hs
  | case9 c b r hr hb hs ho hp hq hd t' r' hw =>
    have hb' : isBlank b = false := by simpa using hb
    have hends := endsWord_eq_false hb' hs ho hp hq
    obtain ⟨-, hrest, -⟩ := h.readWord_unread_eq hr hends hw
    have hword := (h.unread hr).toOver.remarked_readWord
    rw [hw, content_unread, ← content_read hr] at hword
    rw [remarksLeft, hrest, hword, content_read hr, remarks_token hb' hs (lexeme_word hends hd _),
      List.append_assoc]
    have hkept : r.remarked = c.remarked := remarked_of_read hr
    rw [← hkept]
    rfl

end Cursor

/-! ### What a run adds up to -/

/-- The number of lines that a run with this result has loaded. -/
def linesRead (text : List Char) : Except Error (List Token) → Nat
  | .error (.unsupportedEscape _ line) => line
  | _ => lineCount text

/-- The events of a run over `text`, of `bytes` bytes, that has loaded `lines` lines and has
delivered the tokens of `lexemes`. -/
structure Accounts (text : List Char) (bytes lines : Nat) (lexemes : List (List Char))
    (events : List Event) : Prop where
  opens : Opens bytes events
  loaded : events.filterMap Event.loaded? =
    (List.range lines).map fun k => (k + 1, (line text (k + 1)).length)
  comment : ∀ n front back, events = front ++ .commentSkipped n :: back →
    (front.filterMap Event.loaded?).getLast? = some (n, (line text n).length) ∧
      if n = lineCount text then back = []
      else ∃ later, back = .lineLoaded (n + 1) (line text (n + 1)).length :: later
  comment_once : ∀ n, events.count (.commentSkipped n) ≤ 1
  comment_iff : ∀ n, .commentSkipped n ∈ events ↔
    ∃ rest, Reaches text (';' :: rest) ∧ n = lineAt text (startOf text (';' :: rest))
  warned : events.filterMap Event.warned? =
    (lexemes.filter Word.outOfRange).map String.ofList

/-- Comments and warnings are told apart from the lines by being remarks. -/
theorem filterMap_warned?_filter (es : List Event) :
    (es.filter Event.isRemark).filterMap Event.warned? = es.filterMap Event.warned? := by
  rw [List.filterMap_filter]
  congr 1
  funext e
  cases e <;> rfl

namespace Cursor

theorem Chronicled.accounts {bytes : Nat} {ps : List Piece} {e : Ending} {ts : List Token}
    (h : c.Chronicled text bytes) (hremarked : c.remarked = remarks text text)
    (hparse : Parses text ps e ts) :
    Accounts text bytes c.line (ps.map Piece.lexeme) c.journal.reverse := by
  have hmem : ∀ n, .commentSkipped n ∈ c.journal.reverse ↔
      ∃ rest, Reaches text (';' :: rest) ∧ n = lineAt text (startOf text (';' :: rest)) := by
    intro n
    rw [← mem_remarks_iff, ← hremarked, remarked, List.mem_filter]
    exact (and_iff_left rfl).symm
  refine ⟨h.chronicle.opens, h.chronicle.lines, ?_, ?_, hmem, ?_⟩
  · intro n front back hsplit
    have hjournal : c.journal = back.reverse ++ .commentSkipped n :: front.reverse := by
      rw [← List.reverse_reverse c.journal, hsplit]
      simp
    obtain ⟨hfront, hback⟩ := h.comment_split hjournal
    have hlines := hfront.lines
    rw [List.reverse_reverse] at hlines
    obtain ⟨rest, -, hn⟩ := (hmem n).mp (hsplit ▸ List.mem_append_right _ List.mem_cons_self)
    obtain ⟨k, rfl⟩ : ∃ k, n = k + 1 := ⟨_, hn.trans (Nat.add_comm 1 _)⟩
    refine ⟨?_, ?_⟩
    · rw [hlines, List.range_succ, List.map_append]
      exact List.getLast?_concat
    · split at hback
      · next heq => rw [if_pos heq, List.reverse_eq_nil_iff.mp hback]
      · next hne =>
        obtain ⟨later, hlater⟩ := hback
        rw [if_neg hne]
        refine ⟨later.reverse, ?_⟩
        rw [← List.reverse_reverse back, hlater, List.reverse_concat]
  · intro n
    rw [List.count_reverse]
    exact h.chronicle.count_comment_le n
  · rw [← filterMap_warned?_filter]
    show c.remarked.filterMap Event.warned? = _
    rw [hremarked, warned_remarks text hparse]

end Cursor

namespace Lexer

variable {l : Lexer}

/-- In front of the last call the remarks noted and those that are left are still all of them. -/
theorem last_call (h : l.cursor.Within text) (hf : l.finished = false) :
    ∃ c : Cursor, c.Within text ∧
      c.remarked ++ remarks text c.content = l.cursor.remarked ++ remarks text l.cursor.content ∧
      c.readToken = (l.drain.lastAnswer, l.drain.last.cursor) := by
  let whole := l.cursor.remarked ++ remarks text l.cursor.content
  have step : ∀ {c rest : Cursor} {t : Token},
      c.Within text ∧ c.remarked ++ remarks text c.content = whole →
        c.readToken = (.ok (some t), rest) →
          rest.Within text ∧ rest.remarked ++ remarks text rest.content = whole := by
    intro c rest t ⟨hc, hwhole⟩ hr
    have hrest := (Cursor.kept_within text).readToken hc
    have hcall := hc.remarked_readToken
    rw [hr] at hrest hcall
    exact ⟨hrest, hcall.trans hwhole⟩
  obtain ⟨c, ⟨hc, hwhole⟩, hlast⟩ := exists_last_call step ⟨h, rfl⟩ hf
  exact ⟨c, hc, hwhole, hlast⟩

theorem remarked_last (h : l.cursor.Within text) (hf : l.finished = false) :
    l.drain.last.cursor.remarked = l.cursor.remarked ++ remarks text l.cursor.content := by
  obtain ⟨c, hc, hwhole, hlast⟩ := last_call h hf
  have hcall := hc.remarked_readToken
  have hnone : Cursor.remarksLeft text (l.drain.lastAnswer, l.drain.last.cursor) = [] := by
    rw [Outcome.lastAnswer]
    split
    · rfl
    · rfl
  rwa [hwhole, hlast, hnone, List.append_nil] at hcall

theorem line_last (h : l.cursor.Within text) (hf : l.finished = false) :
    l.drain.last.line = linesRead text l.tokens ∧ ∀ e, l.tokens = .error e → e.isLexical = true := by
  obtain ⟨c, hc, -, hlast⟩ := last_call h hf
  have hline := lineBehind_readToken hc
  rw [hlast, Outcome.lastAnswer] at hline
  rw [tokens, Outcome.result]
  cases hfailure : l.drain.failure with
  | none =>
    rw [hfailure] at hline
    refine ⟨hline, fun e he => ?_⟩
    cases he
  | some e =>
    rw [hfailure] at hline
    cases e with
    | unsupportedEscape a n =>
      refine ⟨hline.1, fun e he => ?_⟩
      cases he
      rfl
    | unterminatedString n =>
      refine ⟨hline.2.1, fun e he => ?_⟩
      cases he
      rfl
    | io message => exact hline.elim
    | internerFull capacity => exact hline.elim

theorem accounts_start (text : String) {ps : List Piece} {e : Ending} {ts : List Token}
    (hparse : Parses text.toList ps e ts) (bytes : Nat) :
    let l := start text [.inputRead bytes]
    Accounts text.toList bytes (linesRead text.toList l.tokens) (ps.map Piece.lexeme)
      l.drain.last.events := by
  intro l
  have hwithin : l.cursor.Within text.toList := Cursor.within_start _ _
  have hlast : l.drain.last.cursor.Chronicled text.toList bytes :=
    kept_drain (Cursor.kept_chronicled text.toList bytes) (Cursor.chronicled_start text.toList bytes)
  have hremarked := remarked_last hwithin rfl
  have hcontent : l.cursor.content = text.toList := Cursor.content_start _ _
  have hline : l.drain.last.cursor.line = linesRead text.toList l.tokens :=
    (line_last hwithin rfl).1
  rw [hcontent] at hremarked
  rw [← hline]
  exact hlast.accounts hremarked hparse

/-- The events of a run over the text of a stream account for the whole run: the input comes first,
then the lines up to the last one that is read, each with its length; a comment comes right in front
of the next line or of the end; a word out of range is warned of for each token that is spelled by it. -/
theorem events_of_stream {stream : List Delivery} {text : String} (h : readText stream = .ok text) :
    ∃ l ps e, ofStream stream = .ok l ∧ Parses text.toList ps e l.drain.tokens ∧
      Accounts text.toList text.utf8ByteSize (linesRead text.toList l.tokens)
        (ps.map Piece.lexeme) l.drain.last.events ∧
      (∀ e, l.tokens = .error e → e.isLexical = true) ∧
      (∀ ts, l.tokens = .ok ts →
        ((l.drain.last.events.filterMap Event.loaded?).map Prod.snd).sum = text.length) ∧
      ∀ w, Word.outOfRange w = true ↔ Word.Exceeds w := by
  obtain ⟨ps, e, ts, hparse⟩ := exists_parses text.toList
  let l := start text [.inputRead text.utf8ByteSize]
  have hl : ofStream stream = .ok l := ofStream_of_readText h
  have htokens : l.drain.tokens = ts := by
    rw [(drain_start text _).1, hparse.scanAll_eq]
  have haccounts := accounts_start text hparse text.utf8ByteSize
  have hlexical := (line_last (l := l) (Cursor.within_start _ _) rfl).2
  refine ⟨l, ps, e, hl, htokens ▸ hparse, haccounts, hlexical, ?_, fun w => Word.outOfRange_iff⟩
  intro ts hts
  rw [haccounts.loaded, hts, List.map_map]
  exact (Lines.sum_length_lines text.toList).trans String.length_toList

/-- A mark in a string literal is no comment, and behind the last comment there is no event. -/
theorem events_of_stream_comments :
    let text := "; a\n9223372036854775808 \"; b\n\" ; c"
    let l := start text [.inputRead 34]
    readText [.bytes text.toUTF8] = .ok text ∧
      l.drain.last.events =
        [.inputRead 34, .lineLoaded 1 4, .commentSkipped 1, .lineLoaded 2 25,
          .outOfRange "9223372036854775808", .lineLoaded 3 5, .commentSkipped 3] ∧
      ((l.drain.last.events.filterMap Event.loaded?).map Prod.snd).sum = text.length ∧
      ∃ rest, Reaches text.toList (';' :: rest) ∧
        3 = lineAt text.toList (startOf text.toList (';' :: rest)) := by
  intro text l
  have hread : readText [.bytes text.toUTF8] = .ok text := by decide +kernel
  have hevents : l.drain.last.events =
      [.inputRead 34, .lineLoaded 1 4, .commentSkipped 1, .lineLoaded 2 25,
        .outOfRange "9223372036854775808", .lineLoaded 3 5, .commentSkipped 3] := by
    decide +kernel
  have hfailure : l.drain.failure = none := by decide +kernel
  obtain ⟨l', ps, e, hl, -, haccounts, -, hsum, -⟩ := events_of_stream hread
  obtain rfl : l' = l := Except.ok.inj (hl.symm.trans (ofStream_of_readText hread))
  refine ⟨hread, hevents, hsum _ (tokens_eq_ok_iff.mpr ⟨hfailure, rfl⟩), ?_⟩
  exact (haccounts.comment_iff 3).mp (hevents ▸ by decide)

end Lexer
end MicroLisp
