import MicroLisp.Proofs.Command.Framing
import MicroLisp.Proofs.Token.Dump

/-!
# The lines of a plain dump

A plain dump shows the value of a string as it is, so the newlines of strings are
newlines of the dump.  Without any of them its lines are its tokens, one by one, and
tell them; a string with newlines takes several lines, and they can be those of other
tokens (`output_lines`).
-/

namespace MicroLisp

namespace Dump

theorem map_line_plain (ts : List Token) :
    ts.map (line false) = (ts.map Token.dumpText).map (· ++ "\n") := by
  rw [List.map_map]
  rfl

theorem count_join_lines {ts : List Token} (h : ∀ s, .symbol s ∈ ts → '\n' ∉ s.toList) :
    (String.join (ts.map (line false))).toList.count '\n' =
      ts.length + (ts.map Token.newlines).sum := by
  induction ts with
  | nil => rfl
  | cons t ts ih =>
    have ht : t.dumpText.toList.count '\n' = t.newlines := by
      apply Token.count_dumpText
      rintro s rfl
      exact h s List.mem_cons_self
    have hline : (line false t).toList.count '\n' = t.newlines + 1 := by
      have htext : (line false t).toList = t.dumpText.toList ++ ['\n'] := String.toList_append
      rw [htext, List.count_append, ht]
      rfl
    have hrest := ih fun s hs => h s (List.mem_cons_of_mem t hs)
    rw [List.map_cons, String.join_cons, String.toList_append, List.count_append, hline, hrest,
      List.map_cons, List.sum_cons, List.length_cons]
    omega

theorem splitOn_join_plain {ts : List Token} (h : ∀ s, .symbol s ∈ ts → '\n' ∉ s.toList)
    (hstring : ∀ s, .string s ∈ ts → '\n' ∉ s.toList) :
    (String.join (ts.map (line false))).toList.splitOn '\n' =
      ts.map (fun t => t.dumpText.toList) ++ [[]] := by
  rw [map_line_plain, splitOn_join_newline, List.map_map]
  · rfl
  · intro text htext
    obtain ⟨t, ht, rfl⟩ := List.mem_map.mp htext
    rw [← List.count_eq_zero, Token.count_dumpText fun s hs => h s (hs ▸ ht)]
    cases t with
    | string s => exact List.count_eq_zero.mpr (hstring s ht)
    | int | float | boolean | symbol | leftParen | rightParen | quote => rfl

end Dump

namespace Command.Invocation

variable {i : Invocation} {o : Options}

/-- The settings are in order and do not ask for JSON. -/
structure PlainDump (i : Invocation) (o : Options) : Prop where
  options : Command.options i.env i.arguments = .ok o
  json : o.json = false

/-- No string among the tokens holds a newline. -/
def OneLineStrings (ts : List Token) : Prop := ∀ s, .string s ∈ ts → '\n' ∉ s.toList

theorem newline_not_mem_symbol {s : String} (h : .symbol s ∈ i.delivered o) : '\n' ∉ s.toList := by
  obtain ⟨spelling, hlexeme⟩ := exists_lexeme_of_delivered h
  exact (hlexeme.symbol rfl).1.not_mem_newline

theorem PlainDump.output_eq (h : i.PlainDump o) :
    i.report.output = String.join ((i.delivered o).map (Dump.line false)) := by
  rw [output_eq_join h.options, h.json]

theorem PlainDump.splitOn_output (hi : i.PlainDump o) (h : OneLineStrings (i.delivered o)) :
    i.report.output.toList.splitOn '\n' =
      (i.delivered o).map (fun t => t.dumpText.toList) ++ [[]] := by
  rw [hi.output_eq, Dump.splitOn_join_plain (fun _ => newline_not_mem_symbol) h]

/-- A plain dump has a line for each token that is delivered and one more for each newline in a
string.  Without such newlines its lines are the tokens, and another dump like that with the same
output is of the same tokens. -/
theorem output_lines (hi : i.PlainDump o) :
    i.report.output = String.join ((i.delivered o).map fun t => t.dumpText ++ "\n") ∧
      i.report.output.toList.count '\n' =
        (i.delivered o).length + ((i.delivered o).map Token.newlines).sum ∧
      (OneLineStrings (i.delivered o) →
        i.report.output.toList.splitOn '\n' =
            (i.delivered o).map (fun t => t.dumpText.toList) ++ [[]] ∧
          ∀ (j : Invocation) (o' : Options), j.PlainDump o' → OneLineStrings (j.delivered o') →
            j.report.output = i.report.output → j.delivered o' = i.delivered o) := by
  refine ⟨hi.output_eq, ?_, fun h => ⟨hi.splitOn_output h, ?_⟩⟩
  · rw [hi.output_eq, Dump.count_join_lines fun _ => newline_not_mem_symbol]
  · intro j o' hj hstrings heq
    have hlines := hj.splitOn_output hstrings
    rw [heq, hi.splitOn_output h] at hlines
    rw [← List.forall₂_eq_eq_eq]
    refine forall₂_of_map_eq (fun t ht u hu htext => ?_) (List.append_cancel_right hlines.symm)
    refine Token.eq_of_dumpText_eq ?_ ?_ (String.toList_inj.mp htext)
    · rintro x rfl
      exact isNaN_of_delivered ht
    · rintro x rfl
      exact isNaN_of_delivered hu

def plain : Options := ⟨false, false, false, none⟩

/-- The command without arguments. -/
def shown (program : String) : Invocation :=
  ⟨⟨none, none, none⟩, [], [.bytes program.toUTF8], fun _ => .error "", fun _ _ _ => ""⟩

theorem plainDump_shown (program : String) : (shown program).PlainDump plain := ⟨rfl, rfl⟩

theorem delivered_shown {program : String} (h : program.toUTF8.isEmpty = false) :
    (shown program).delivered plain = (Lexer.ofText program).drain.tokens :=
  Lexer.delivered_of_text (.bytes h .nil) (Or.inl rfl) ByteArray.append_empty.symm

/-- The same tokens from two programs, one of them with a word that is too large for an integer. -/
theorem output_lines_shown :
    (shown "(a\n\"b\" 1e+16 #t").report.output.toList.count '\n' = 5 ∧
      (shown "(a\n\"b\" 1e+16 #t").delivered plain =
        (shown "( a \"b\";c\n10000000000000000. #t").delivered plain := by
  have htokens : (shown "( a \"b\";c\n10000000000000000. #t").delivered plain =
      [.leftParen, .symbol "a", .string "b", .float (.bound false), .boolean true] :=
    (delivered_shown rfl).trans (by decide +kernel)
  have htokens' : (shown "(a\n\"b\" 1e+16 #t").delivered plain =
      [.leftParen, .symbol "a", .string "b", .float (.bound false), .boolean true] :=
    (delivered_shown rfl).trans (by decide +kernel)
  have hstrings : OneLineStrings
      [.leftParen, .symbol "a", .string "b", .float (.bound false), .boolean true] := by
    intro s hs
    obtain rfl : s = "b" := by simpa using hs
    decide
  have houtput : (shown "(a\n\"b\" 1e+16 #t").report.output =
      (shown "( a \"b\";c\n10000000000000000. #t").report.output := by
    rw [(plainDump_shown _).output_eq, (plainDump_shown _).output_eq, htokens, htokens']
  obtain ⟨-, hcount, hlines⟩ :=
    output_lines (plainDump_shown "( a \"b\";c\n10000000000000000. #t")
  obtain ⟨-, hsame⟩ := hlines (htokens ▸ hstrings)
  rw [← houtput, htokens] at hcount
  exact ⟨hcount, hsame _ plain (plainDump_shown _) (htokens' ▸ hstrings) houtput⟩

/-- The text of a string with the end of its own line and the beginning of another one. -/
def forged : String := "\"a>\n<Lexeme, type: string, value: b\""

/-- One token on two lines, and one token with the same output as two. -/
theorem output_lines_forged :
    (shown "\"a\nb\"").report.output = "<Lexeme, type: string, value: a\nb>\n" ∧
      (shown "\"a\nb\"").delivered plain = [.string "a\nb"] ∧
      (shown forged).report.output = (shown "\"a\" \"b\"").report.output ∧
      (shown forged).delivered plain = [.string "a>\n<Lexeme, type: string, value: b"] ∧
      (shown "\"a\" \"b\"").delivered plain = [.string "a", .string "b"] := by
  have hbroken : (shown "\"a\nb\"").delivered plain = [.string "a\nb"] :=
    (delivered_shown rfl).trans (by decide +kernel)
  have hforged : (shown forged).delivered plain =
      [.string "a>\n<Lexeme, type: string, value: b"] :=
    (delivered_shown rfl).trans (by decide +kernel)
  have hhonest : (shown "\"a\" \"b\"").delivered plain = [.string "a", .string "b"] :=
    (delivered_shown rfl).trans (by decide +kernel)
  refine ⟨?_, hbroken, ?_, hforged, hhonest⟩
  · rw [(plainDump_shown _).output_eq, hbroken]
    decide +kernel
  · rw [(plainDump_shown _).output_eq, (plainDump_shown _).output_eq, hforged, hhonest]
    decide +kernel

end Command.Invocation
end MicroLisp
