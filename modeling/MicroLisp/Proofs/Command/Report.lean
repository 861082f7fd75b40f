import MicroLisp.Command.Dump
import MicroLisp.Proofs.Input

/-!
# What the command reports

Given the bytes of a text, the command writes the tokens that a run over the text
delivers, one behind the other, and reports the error that the run ends in, if it does.
Bytes that are no text are reported as such and nothing is written.  Where the bytes
come from makes no difference (`report_of_bytes`).
-/

namespace MicroLisp

variable {pieces rest : List Delivery} {data : ByteArray}

/-! ### Dumping the bytes of a text -/

namespace Dump

theorem ofStream_of_lexer {stream : List Delivery} {l : Lexer} (h : Lexer.ofStream stream = .ok l)
    (json : Bool) :
    ofStream json stream =
      ⟨String.join (l.drain.tokens.map (line json)),
        l.drain.last.events ++
          if l.drain.failure.isNone then [.finished l.drain.tokens.length] else [],
        l.drain.failure⟩ := by
  rw [ofStream, h]

theorem ofStream_of_not_wellFormed (h : Delivers pieces data) (hrest : Ends rest)
    (hdata : ¬ Utf8.WellFormed data) (json : Bool) :
    ofStream json (pieces ++ rest) =
      ⟨"", [], some (.io "stream did not contain valid UTF-8")⟩ := by
  rw [ofStream, Lexer.ofStream_of_not_wellFormed h hrest hdata]

theorem unfinished_events (text : String) (bytes count : Nat) :
    .finished count ∉ (Lexer.start text [.inputRead bytes]).drain.last.events := by
  have hstart : (Lexer.start text [.inputRead bytes]).cursor.Unfinished := by
    intro n hmem
    cases List.mem_singleton.mp hmem
  have hlast := Lexer.kept_drain Cursor.kept_unfinished hstart
  rw [Lexer.events, List.mem_reverse]
  exact hlast count

/-- The output is that of the tokens delivered, and only a run without an error is closed by their
count. -/
theorem ofStream_of_text (h : Delivers pieces data) (hrest : Ends rest) {text : String}
    (htext : text.toUTF8 = data) (json : Bool) :
    let run := (Lexer.ofText text).drain
    let d := ofStream json (pieces ++ rest)
    d.output = String.join (run.tokens.map (line json)) ∧ d.failure = run.failure ∧
      ∃ events, (∀ count, .finished count ∉ events) ∧
        d.events = events ++ if run.failure.isNone then [.finished run.tokens.length] else [] := by
  intro run d
  have hd := ofStream_of_lexer (Lexer.ofStream_of_text h hrest htext) json
  obtain ⟨htokens, hfailure⟩ := Lexer.delivers_start text [.inputRead text.utf8ByteSize]
  rw [htokens, hfailure] at hd
  refine ⟨congrArg Dump.output hd, congrArg Dump.failure hd, _,
    unfinished_events text text.utf8ByteSize, congrArg Dump.events hd⟩

end Dump

/-! ### Running the command -/

namespace Command

/-- The filter has a part in the log alone. -/
theorem reportDump_eq (shows : Event → Bool) (d : Dump) :
    reportDump shows d =
      { reportDump LogLevel.off.shows d with logs := logLines shows d.events } := by
  unfold reportDump
  split
  · rfl
  · rfl

/-- All that a run of the command depends on. -/
structure Invocation where
  env : Environment
  arguments : List String
  stdin : List Delivery
  /-- The stream of a file, or the reason why it cannot be opened. -/
  files : String → Except String (List Delivery)
  wording : Wording

namespace Invocation

def report (i : Invocation) : Report := run i.wording i.env i.arguments i.stdin i.files

def program (i : Invocation) (o : Options) : Except String (List Delivery) :=
  match o.file with
  | none => .ok i.stdin
  | some name => i.files name

/-- The arguments are accepted as `o`, and the program that they name can be opened as `stream`. -/
structure Reads (i : Invocation) (o : Options) (stream : List Delivery) : Prop where
  accepted : Command.options i.env i.arguments = .ok o
  program_eq : i.program o = .ok stream

variable {i j : Invocation} {o o' : Options}

/-- With accepted options the program is dumped, or it cannot be opened. -/
theorem report_of_options (h : Command.options i.env i.arguments = .ok o) :
    i.report =
      match i.program o with
      | .ok stream => reportDump (logFilter i.env o) (Dump.ofStream o.json stream)
      | .error reason => reportUnopened (o.file.getD "") reason := by
  rw [report, run, h, program]
  dsimp only
  cases o.file with
  | none => rfl
  | some name =>
    dsimp only
    cases i.files name with
    | ok stream => rfl
    | error reason => rfl

theorem Reads.report_eq {stream : List Delivery} (h : i.Reads o stream) :
    i.report = reportDump (logFilter i.env o) (Dump.ofStream o.json stream) := by
  rw [report_of_options h.accepted, h.program_eq]

theorem report_unopened (h : Command.options i.env i.arguments = .ok o) {reason : String}
    (hprogram : i.program o = .error reason) :
    i.report = reportUnopened (o.file.getD "") reason := by
  rw [report_of_options h, hprogram]

/-- The command, given bytes as its standard input or as a file.  Bytes that are not well-formed UTF-8
are an error without output.  Otherwise each token that a run over the text delivers is written on a
line of its own; the exit code is zero if the run has a result, and else the error is that of the
run.  An event with the count of the tokens closes the run if and only if it has a result.  Of
another run with the same bytes and in the same mode the report is the same, but for the log. -/
theorem report_of_bytes (hi : i.Reads o (pieces ++ rest)) (h : Delivers pieces data)
    (hrest : Ends rest) :
    let d := Dump.ofStream o.json (pieces ++ rest)
    i.report.logs = logLines (logFilter i.env o) d.events ∧
      (¬ Utf8.WellFormed data →
        i.report.code = 1 ∧ i.report.output = "" ∧
          i.report.error =
            "error: " ++ Error.message (.io "stream did not contain valid UTF-8") ++ "\n" ∧
          d.events = []) ∧
      (∀ text : String, text.toUTF8 = data →
        i.report.output =
            String.join ((Lexer.ofText text).drain.tokens.map fun t =>
              (if o.json then t.jsonText else t.dumpText) ++ "\n") ∧
          match (Lexer.ofText text).tokens with
          | .ok ts =>
            i.report.code = 0 ∧ i.report.error = "" ∧ (Lexer.ofText text).drain.tokens = ts ∧
              ∃ events, d.events = events ++ [.finished ts.length] ∧
                ∀ count, .finished count ∉ events
          | .error e =>
            i.report.code = 1 ∧ i.report.error = "error: " ++ e.message ++ "\n" ∧
              ∀ count, .finished count ∉ d.events) ∧
      ∀ j o' pieces' rest', Reads j o' (pieces' ++ rest') → Delivers pieces' data → Ends rest' →
        o'.json = o.json →
          j.report.code = i.report.code ∧ j.report.output = i.report.output ∧
            j.report.error = i.report.error ∧
            (logFilter j.env o' = logFilter i.env o → j.report = i.report) := by
  intro d
  have hreport : i.report = reportDump (logFilter i.env o) d := hi.report_eq
  refine ⟨by rw [hreport, reportDump_eq], ?_, ?_, ?_⟩
  · intro hdata
    have hd : d = _ := Dump.ofStream_of_not_wellFormed h hrest hdata o.json
    rw [hreport, hd]
    exact ⟨rfl, rfl, rfl, rfl⟩
  · intro text htext
    obtain ⟨houtput, hfailure, events, hevents, hclosed⟩ :=
      Dump.ofStream_of_text h hrest htext o.json
    cases hrun : (Lexer.ofText text).drain.failure with
    | none =>
      have htokens := Lexer.tokens_eq_ok_iff.mpr ⟨hrun, rfl⟩
      rw [hrun] at hfailure hclosed
      rw [htokens, hreport, reportDump, hfailure]
      exact ⟨houtput, rfl, rfl, rfl, events, hclosed, hevents⟩
    | some e =>
      have htokens := Lexer.tokens_eq_error_iff.mpr hrun
      rw [hrun] at hfailure hclosed
      rw [htokens, hreport, reportDump, hfailure]
      refine ⟨houtput, rfl, rfl, fun count hmem => hevents count ?_⟩
      rwa [hclosed, Option.isNone_some, if_neg Bool.false_ne_true, List.append_nil] at hmem
  · intro j o' pieces' rest' hj h' hrest' hjson
    have hd : Dump.ofStream o'.json (pieces' ++ rest') = d := by
      rw [hjson, Dump.ofStream, Lexer.ofStream_congr h hrest h' hrest']
      rfl
    have hreport' : j.report = reportDump (logFilter j.env o') d := hd ▸ hj.report_eq
    rw [reportDump_eq] at hreport hreport'
    refine ⟨by rw [hreport, hreport'], by rw [hreport, hreport'], by rw [hreport, hreport'],
      fun hshown => ?_⟩
    rw [hreport, hreport', hshown]

/-- A file that ends inside a string literal. -/
def unclosed : Invocation :=
  ⟨⟨none, none, none⟩, ["--json", "p"], [], fun _ => .ok [.bytes "a \"b".toUTF8], fun _ _ _ => ""⟩

/-- The token in front of the literal is written, and then the literal is reported. -/
theorem report_of_bytes_unclosed :
    unclosed.Reads ⟨true, false, false, some "p"⟩ [.bytes "a \"b".toUTF8] ∧
      unclosed.report.code = 1 ∧
      unclosed.report.output = "\x7b\"type\":\"symbol\",\"value\":\"a\"\x7d\n" ∧
      unclosed.report.error =
        "error: found EOF while reading a string (string starts on line 1)\n" := by
  have hreads : unclosed.Reads ⟨true, false, false, some "p"⟩ ([.bytes "a \"b".toUTF8] ++ []) :=
    ⟨by decide +kernel, rfl⟩
  have hdelivers : Delivers [.bytes "a \"b".toUTF8] ("a \"b".toUTF8 ++ ByteArray.empty) :=
    .bytes (by decide +kernel) .nil
  obtain ⟨-, -, htext, -⟩ := report_of_bytes hreads hdelivers (Or.inl rfl)
  obtain ⟨houtput, hresult⟩ := htext "a \"b" ByteArray.append_empty.symm
  have htokens : (Lexer.ofText "a \"b").tokens = .error (.unterminatedString 1) :=
    Lexer.tokens_eq_error_iff.mpr (by decide +kernel)
  rw [htokens] at hresult
  refine ⟨hreads, hresult.1, houtput.trans (by decide +kernel), hresult.2.1.trans (by decide +kernel)⟩

end Invocation
end Command
end MicroLisp
