import MicroLisp.Proofs.Cursor.Refinement
import MicroLisp.Proofs.Cursor.Stack
import MicroLisp.Proofs.Grammar.Lexeme

/-!
# String literals in front of any cursor

Whatever has been read, put back and skipped before, a string literal is told by what
the cursor has left, and reading it comes to nothing else than reading so many
characters: those of the literal and its closing quote, those up to a bad escape, or
all there are (`readString_of_spelling`).
-/

namespace MicroLisp
open Text

namespace Literal

/-- How many times a character is read until it is clear what `text` begins with; behind its last
character one more reading finds the end. -/
def readings (text : List Char) : Literal → Nat
  | .closed _ rest | .badEscape _ rest => startOf text rest
  | .unclosed => text.length + 1

theorem readings_push (text : List Char) (a : Char) (l : Literal) :
    (l.push a).readings text = l.readings text := by
  cases l <;> rfl

theorem readings_cons {text : List Char} {l : Literal} (h : l.rest <:+ text) (a : Char) :
    l.readings (a :: text) = l.readings text + 1 := by
  have hle := h.length_le
  cases l with
  | closed value rest => exact Nat.succ_sub hle
  | badEscape e rest => exact Nat.succ_sub hle
  | unclosed => rfl

end Literal

namespace Grammar

variable {text : List Char} {l : Literal}

theorem Spells.read_eq (h : Spells text l) : Literal.read text = l := by
  cases l with
  | closed value rest =>
    obtain ⟨enc, henc, rfl⟩ := h
    exact read_closed henc rest
  | badEscape e rest =>
    obtain ⟨enc, value, henc, he, rfl⟩ := h
    exact read_encoding_badEscape henc he rest
  | unclosed =>
    obtain ⟨enc, value, backslash, henc, rfl⟩ := h
    exact read_unclosed henc backslash

theorem existsUnique_spells (text : List Char) : ∃! l, Spells text l :=
  ⟨Literal.read text, spells_read text, fun _ h => h.read_eq.symm⟩

end Grammar

namespace Cursor
open Grammar

variable {text : List Char} {c : Cursor}

def reads (k : Nat) : List Step := List.replicate k .read

theorem after_reads_succ (c : Cursor) (k : Nat) :
    c.after (reads (k + 1)) = c.read.2.after (reads k) := rfl

/-- Reading a literal is reading characters, one after the other. -/
theorem Over.readStringFrom_reads (h : Over text c) (opening : Nat) (taken : List Char) :
    (c.readStringFrom opening taken).2 =
      c.after (reads ((Literal.read c.content).readings c.content)) := by
  fun_induction Cursor.readStringFrom opening taken c with
  | case1 taken c r hr =>
    obtain ⟨hnil, -⟩ := h.read_eq_none hr
    rw [hnil]
    exact (congrArg Prod.snd hr).symm
  | case2 taken c r hr =>
    have hone : startOf ('"' :: r.content) r.content = 1 := startOf_append ['"'] r.content
    rw [content_read hr, Literal.read_quote, Literal.readings, hone]
    exact (congrArg Prod.snd hr).symm
  | case3 taken c r r' hr' hr hq =>
    obtain ⟨hnil, -⟩ := ((kept_over text).of_read h hr).read_eq_none hr'
    rw [content_read hr, hnil, Literal.read_backslash, Literal.readings, List.length_singleton,
      after_reads_succ, hr]
    exact (congrArg Prod.snd hr').symm
  | case4 taken c r e r' hr' b hb hr hq ih =>
    have hover := (kept_over text).of_read ((kept_over text).of_read h hr) hr'
    have he := unescape?_of_unescape_eq_ok hb
    have hsuffix := Literal.rest_read_suffix r'.content
    rw [content_read hr, content_read hr', Literal.read_escape he, Literal.readings_push,
      Literal.readings_cons (hsuffix.trans (List.suffix_cons e _)), Literal.readings_cons hsuffix,
      after_reads_succ, after_reads_succ, hr, hr']
    exact ih hover
  | case5 taken c r e r' hr' err herr hr hq =>
    obtain ⟨he, -⟩ := unescape?_of_unescape_eq_error herr
    have htwo : startOf ('\\' :: e :: r'.content) r'.content = 2 := startOf_append ['\\', e] r'.content
    rw [content_read hr, content_read hr', Literal.read_badEscape he, Literal.readings, htwo,
      after_reads_succ, hr]
    exact (congrArg Prod.snd hr').symm
  | case6 taken c b r hr hq hb ih =>
    have hsuffix := Literal.rest_read_suffix r.content
    rw [content_read hr, Literal.read_raw hq hb, Literal.readings_push,
      Literal.readings_cons hsuffix, after_reads_succ, hr]
    exact ih ((kept_over text).of_read h hr)

theorem Over.readString_of_spells (h : Over text c) {l : Literal} (hl : Spells c.content l) :
    let behind := c.after (reads (l.readings c.content))
    c.readString = (l.answer c.line behind.line [], behind) ∧ c.readString.2.content = l.rest := by
  obtain ⟨hanswer, hrest⟩ := h.readStringFrom_eq c.line []
  have hreads := h.readStringFrom_reads c.line []
  rw [hl.read_eq] at hanswer hrest hreads
  rw [hreads] at hanswer
  exact ⟨Prod.ext hanswer hreads, hrest⟩

theorem Over.readString_of_encoding (h : Over text c) {value : String} {enc rest : List Char}
    (henc : Encoding enc value.toList) (hc : c.content = enc ++ '"' :: rest) :
    c.readString = (.ok value, c.after (reads (enc.length + 1))) ∧
      c.readString.2.content = rest := by
  have hspells : Spells c.content (.closed value.toList rest) := ⟨enc, henc, hc⟩
  obtain ⟨hread, hrest⟩ := h.readString_of_spells hspells
  have hreadings : startOf c.content rest = enc.length + 1 := by
    rw [hc, List.append_cons, startOf_append, List.length_append, List.length_singleton]
  rw [Literal.answer, Literal.readings, hreadings, List.reverse_nil, List.nil_append,
    String.ofList_toList] at hread
  exact ⟨hread, hrest⟩

theorem Over.readString_of_badEscape (h : Over text c) {value enc rest : List Char} {e : Char}
    (henc : Encoding enc value) (he : ∀ a, (e, a) ∉ escapes)
    (hc : c.content = enc ++ '\\' :: e :: rest) :
    let behind := c.after (reads (enc.length + 2))
    c.readString = (.error (.unsupportedEscape e behind.line), behind) ∧ behind.content = rest := by
  have hspells : Spells c.content (.badEscape e rest) := ⟨enc, value, henc, he, hc⟩
  obtain ⟨hread, hrest⟩ := h.readString_of_spells hspells
  have hreadings : startOf c.content rest = enc.length + 2 := by
    rw [hc, List.append_cons, List.append_cons, startOf_append, List.length_append,
      List.length_append]
    rfl
  rw [Literal.readings, hreadings] at hread
  rw [hread] at hrest
  exact ⟨hread, hrest⟩

theorem Over.readString_of_unclosed (h : Over text c) {value enc : List Char} {backslash : Bool}
    (henc : Encoding enc value) (hc : c.content = enc ++ tail backslash) :
    let behind := c.after (reads (c.content.length + 1))
    c.readString = (.error (.unterminatedString c.line), behind) ∧ behind.content = [] := by
  have hspells : Spells c.content .unclosed := ⟨enc, value, backslash, henc, hc⟩
  obtain ⟨hread, hrest⟩ := h.readString_of_spells hspells
  rw [hread] at hrest
  exact ⟨hread, hrest⟩

/-- A string literal in front of a cursor behind any steps.  What is left begins in exactly one of three
ways: with an encoding and a quote, with an encoding and a bad escape, or it is no more than an
encoding, with or without a backslash at the end.  Each has its own answer, and behind it the cursor
is the one behind so many readings of a character. -/
theorem readString_of_spelling (text : List Char) (steps : List Step) :
    let c := (ofText text).after steps
    (∃! l, Spells c.content l) ∧
      (∀ (value : String) (enc rest : List Char), Encoding enc value.toList →
        c.content = enc ++ '"' :: rest →
          c.readString = (.ok value, c.after (reads (enc.length + 1))) ∧
            c.readString.2.content = rest) ∧
      (∀ (value enc rest : List Char) (e : Char), Encoding enc value → (∀ a, (e, a) ∉ escapes) →
        c.content = enc ++ '\\' :: e :: rest →
          let behind := c.after (reads (enc.length + 2))
          c.readString = (.error (.unsupportedEscape e behind.line), behind) ∧
            behind.content = rest) ∧
      (∀ (value enc : List Char) (backslash : Bool), Encoding enc value →
        c.content = enc ++ tail backslash →
          let behind := c.after (reads (c.content.length + 1))
          c.readString = (.error (.unterminatedString c.line), behind) ∧ behind.content = []) ∧
      ∀ (value : String) (enc rest : List Char), Encoding enc value.toList →
        (ofText (enc ++ '"' :: rest)).readString.1 = .ok value ∧
          (ofText (enc ++ '"' :: rest)).readString.2.content = rest := by
  intro c
  have h : Over text c := over_after text steps
  refine ⟨existsUnique_spells c.content, ?_, ?_, ?_, ?_⟩
  · intro value enc rest henc hc
    exact h.readString_of_encoding henc hc
  · intro value enc rest e henc he hc
    exact h.readString_of_badEscape henc he hc
  · intro value enc backslash henc hc
    exact h.readString_of_unclosed henc hc
  · intro value enc rest henc
    have hover := over_start (enc ++ '"' :: rest) []
    obtain ⟨hread, hrest⟩ := hover.readString_of_encoding henc (content_start _ _)
    exact ⟨congrArg Prod.fst hread, hrest⟩

/-- An escape whose backslash has been put back in front of its letter, a newline behind a backslash,
and a literal that goes on to the end of the next line. -/
theorem readString_of_spelling_putBack :
    let c := (ofText ['q', '\n', 'n', '"', 'z']).after [.nextLine, .nextLine, .unread '\\', .unread 'a']
    let d := (ofText ['\\', '\n', 'b']).after []
    let e := (ofText ['a', '\n', '\\']).after [.read]
    (c.readString.1 = .ok "a\n" ∧ c.readString.2.content = ['z']) ∧
      d.readString.1 = .error (.unsupportedEscape '\n' 1) ∧
      e.readString.1 = .error (.unterminatedString 1) := by
  intro c d e
  have hvalue : "a\n".toList = ['a', '\n'] := by decide +kernel
  have hescape : Encoding ['a', '\\', 'n'] "a\n".toList := by
    rw [hvalue]
    exact .raw (by decide) (by decide) (.escape (by decide) .nil)
  have hletter : ∀ a, ('\n', a) ∉ escapes := unescape?_eq_none_iff.mp rfl
  obtain ⟨-, hclosed, -⟩ := readString_of_spelling ['q', '\n', 'n', '"', 'z'] _
  obtain ⟨-, -, hbad, -⟩ := readString_of_spelling ['\\', '\n', 'b'] []
  obtain ⟨-, -, -, hunclosed, -⟩ := readString_of_spelling ['a', '\n', '\\'] [.read]
  obtain ⟨hread, hrest⟩ := hclosed "a\n" _ ['z'] hescape (rfl : c.content = _)
  obtain ⟨hread', -⟩ := hbad [] [] ['b'] '\n' .nil hletter (rfl : d.content = _)
  obtain ⟨hread'', -⟩ :=
    hunclosed ['\n'] ['\n'] true (.raw (by decide) (by decide) .nil) (rfl : e.content = _)
  exact ⟨⟨congrArg Prod.fst hread, hrest⟩, congrArg Prod.fst hread', congrArg Prod.fst hread''⟩

end Cursor
end MicroLisp
