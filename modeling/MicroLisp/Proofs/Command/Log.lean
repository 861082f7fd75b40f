import Mathlib.Data.List.Basic
import MicroLisp.Proofs.Command.Report
import MicroLisp.Proofs.Command.Settings

/-!
# The log takes no part

The log of a run is chosen from its events by their severity, and that is all that
settings decide: as long as they are accepted, the exit code, the output, the error and
the events are the same (`report_of_settings`).  The events are those of the library, and
a run that succeeds adds the number of its tokens.
-/

namespace MicroLisp

namespace LogLevel

/-- How many kinds of severity a level lets through. -/
def verbosity : LogLevel → Nat
  | .off => 0
  | .atLeast least => 5 - least.rank

theorem shows_of_verbosity_le {l l' : LogLevel} (h : l.verbosity ≤ l'.verbosity) {e : Event}
    (he : l.shows e = true) : l'.shows e = true := by
  have hrank : ∀ s : Severity, s.rank ≤ 4 := by
    intro s
    cases s <;> decide
  rcases l with _ | least
  · cases he
  · have hleast := hrank least
    have hshown : least.rank ≤ e.severity.rank := of_decide_eq_true he
    rcases l' with _ | least'
    · simp only [verbosity] at h
      omega
    · have hleast' := hrank least'
      simp only [verbosity] at h
      exact decide_eq_true (by omega)

end LogLevel

namespace Command

theorem logLines_sublist {l l' : LogLevel} (h : l.verbosity ≤ l'.verbosity) (events : List Event) :
    (logLines l.shows events).Sublist (logLines l'.shows events) :=
  (List.monotone_filter_right events fun _ => LogLevel.shows_of_verbosity_le h).map _

def Settings.invocation (s : Settings) (wording : Wording) (arguments : List String)
    (stdin : List Delivery) (files : String → Except String (List Delivery)) : Invocation :=
  ⟨s.environment, s.arguments ++ arguments, stdin, files, wording⟩

namespace Invocation

/-- The events of a run of the command, which are none if nothing is read. -/
def events (i : Invocation) : List Event :=
  match Command.options i.env i.arguments with
  | .error _ => []
  | .ok o =>
    match i.program o with
    | .error _ => []
    | .ok stream => (Dump.ofStream o.json stream).events

def LogsBy (i : Invocation) (shows : Event → Bool) : Prop :=
  i.report.logs = (i.events.filter shows).map Event.logLine

/-- Two runs that differ in nothing but what is chosen for the log. -/
structure Alike (i j : Invocation) : Prop where
  code : j.report.code = i.report.code
  output : j.report.output = i.report.output
  error : j.report.error = i.report.error
  events : j.events = i.events

variable {i j : Invocation} {o o' : Options}

/-! ### Runs with accepted options -/

theorem events_of_reads {stream : List Delivery} (h : i.Reads o stream) :
    i.events = (Dump.ofStream o.json stream).events := by
  rw [events, h.accepted]
  dsimp only
  rw [h.program_eq]

theorem events_unopened (h : Command.options i.env i.arguments = .ok o) {reason : String}
    (hprogram : i.program o = .error reason) : i.events = [] := by
  rw [events, h]
  dsimp only
  rw [hprogram]

theorem logsBy (h : Command.options i.env i.arguments = .ok o) : i.LogsBy (logFilter i.env o) := by
  cases hprogram : i.program o with
  | error reason =>
    rw [LogsBy, report_unopened h hprogram, events_unopened h hprogram]
    rfl
  | ok stream =>
    have hreads : i.Reads o stream := ⟨h, hprogram⟩
    rw [LogsBy, hreads.report_eq, events_of_reads hreads, reportDump_eq]
    rfl

/-- The mode, the file, the standard input and the files settle all but the log. -/
theorem alike_of_options (hi : Command.options i.env i.arguments = .ok o)
    (hj : Command.options j.env j.arguments = .ok o') (hjson : o'.json = o.json)
    (hfile : o'.file = o.file) (hstdin : j.stdin = i.stdin) (hfiles : j.files = i.files) :
    i.Alike j := by
  have hsame : j.program o' = i.program o := by
    rw [program, program, hfile, hstdin, hfiles]
  cases hprogram : i.program o with
  | error reason =>
    rw [hprogram] at hsame
    have hreport := report_unopened hi hprogram
    have hreport' := report_unopened hj hsame
    rw [hfile, ← hreport] at hreport'
    refine ⟨by rw [hreport'], by rw [hreport'], by rw [hreport'], ?_⟩
    rw [events_unopened hi hprogram, events_unopened hj hsame]
  | ok stream =>
    rw [hprogram] at hsame
    have hreads : i.Reads o stream := ⟨hi, hprogram⟩
    have hreads' : j.Reads o' stream := ⟨hj, hsame⟩
    have hreport := hreads.report_eq
    have hreport' := hreads'.report_eq
    rw [reportDump_eq] at hreport hreport'
    rw [hjson] at hreport'
    refine ⟨by rw [hreport, hreport'], by rw [hreport, hreport'], by rw [hreport, hreport'], ?_⟩
    rw [events_of_reads hreads, events_of_reads hreads', hjson]

/-- What a run with these options comes to and what its events are: those of the library, closed by
the number of the tokens exactly if the run succeeds.  There are none if nothing can be read. -/
def Recounts (i : Invocation) (o : Options) : Prop :=
  match i.program o with
  | .error reason => i.report = reportUnopened (o.file.getD "") reason ∧ i.events = []
  | .ok stream =>
    match Lexer.ofStream stream with
    | .error _ => i.report.code = 1 ∧ i.events = []
    | .ok l =>
      i.report.output = String.join (l.drain.tokens.map (Dump.line o.json)) ∧
        (i.report.code = 0 ↔ ∃ ts, l.tokens = .ok ts) ∧
        (∀ count, .finished count ∉ l.drain.last.events) ∧
        i.events = l.drain.last.events ++
          if i.report.code = 0 then [.finished l.drain.tokens.length] else []

theorem recounts (h : Command.options i.env i.arguments = .ok o) : i.Recounts o := by
  unfold Recounts
  split
  · next reason hprogram => exact ⟨report_unopened h hprogram, events_unopened h hprogram⟩
  · next stream hprogram =>
    have hreads : i.Reads o stream := ⟨h, hprogram⟩
    rw [hreads.report_eq, events_of_reads hreads]
    split
    · next e he =>
      have hd : Dump.ofStream o.json stream = ⟨"", [], some e⟩ := by
        rw [Dump.ofStream, he]
      rw [hd]
      exact ⟨rfl, rfl⟩
    · next l hl =>
      -- the library itself never counts tokens, so the count that closes a run is the only one
      have hunfinished : ∀ count, .finished count ∉ l.drain.last.events := by
        obtain ⟨text, rfl⟩ := Lexer.start_of_ofStream hl
        exact Dump.unfinished_events text _
      rw [Dump.ofStream_of_lexer hl o.json, reportDump, Lexer.tokens, Lexer.Outcome.result]
      cases hfailure : l.drain.failure with
      | none => exact ⟨rfl, ⟨fun _ => ⟨_, rfl⟩, fun _ => rfl⟩, hunfinished, rfl⟩
      | some e =>
        refine ⟨rfl, ⟨fun hcode => ?_, ?_⟩, hunfinished, rfl⟩
        · cases hcode
        · rintro ⟨ts, hts⟩
          cases hts

/-! ### Settings -/

theorem logFilter_settings (s : Settings) (o : Options) (h : o.verbose = s.isVerbose) :
    logFilter s.environment o = s.level.shows := by
  rw [logFilter, Settings.level, h, Settings.environment]
  cases s.log with
  | none => rfl
  | some level => rfl

theorem report_of_exit {exit : Exit} (h : Command.options i.env i.arguments = .error exit) :
    i.report = reportExit exit (i.wording i.env i.arguments exit) ∧ i.events = [] := by
  rw [report, run, events, h]
  exact ⟨rfl, rfl⟩

variable {arguments : List String} {s t : Settings} {wording : Wording} {stdin : List Delivery}
  {files : String → Except String (List Delivery)}

theorem logsBy_settings (h : Without [.verbose, .noColor] arguments)
    (ho : Command.options ⟨none, none, none⟩ arguments = .ok o) (hs : s.Valid) :
    (s.invocation wording arguments stdin files).LogsBy s.level.shows := by
  have hlogs := logsBy (i := s.invocation wording arguments stdin files) (options_of_settings h hs ho)
  rwa [Settings.invocation, logFilter_settings s _ rfl] at hlogs

/-- A higher level only adds lines. -/
theorem Alike.logs_sublist (h : i.Alike j) {l l' : LogLevel} (hi : i.LogsBy l.shows)
    (hj : j.LogsBy l'.shows) (hlevel : l.verbosity ≤ l'.verbosity) :
    i.report.logs.Sublist j.report.logs := by
  rw [LogsBy] at hi hj
  rw [hi, hj, h.events]
  exact logLines_sublist hlevel i.events

/-- Settings of the log in front of arguments that give no others.  If the arguments do not ask for a
dump, settings come too late.  Otherwise valid ones are accepted, and the log is chosen from the events
at their level; the events are those of the library, closed by the number of the tokens if and only if
the run succeeds, and if nothing is read there are none.  Two valid settings differ in the log alone,
where a higher level only adds lines, and the same holds of any other run that is asked for the same
dump, wherever its settings stand.  Settings that are not valid are refused. -/
theorem report_of_settings (h : Without [.verbose, .noColor] arguments) (wording : Wording)
    (stdin : List Delivery) (files : String → Except String (List Delivery)) (s t : Settings) :
    let i := s.invocation wording arguments stdin files
    let j := t.invocation wording arguments stdin files
    (∀ exit, Command.options ⟨none, none, none⟩ arguments = .error exit →
      i.report = reportExit exit (wording i.env i.arguments exit) ∧ i.events = []) ∧
    ∀ o, Command.options ⟨none, none, none⟩ arguments = .ok o →
      (s.Valid ↔ ∃ o', Command.options i.env i.arguments = .ok o') ∧
      (s.Valid →
        i.LogsBy s.level.shows ∧ i.Recounts o ∧
        (t.Valid → i.Alike j ∧
          (s.level.verbosity ≤ t.level.verbosity → i.report.logs.Sublist j.report.logs)) ∧
        ∀ k o', Command.options k.env k.arguments = .ok o' → o'.json = o.json → o'.file = o.file →
          k.stdin = stdin → k.files = files → i.Alike k ∧ k.LogsBy (logFilter k.env o')) ∧
      (¬ s.Valid → ∃ fault,
        i.report = reportExit (.usage fault) (wording i.env i.arguments (.usage fault))) := by
  intro i j
  refine ⟨fun exit hexit => report_of_exit (options_of_exit h s hexit), fun o ho => ⟨⟨?_, ?_⟩, ?_, ?_⟩⟩
  · intro hs
    exact ⟨_, options_of_settings h hs ho⟩
  · rintro ⟨o', ho'⟩
    by_contra hs
    obtain ⟨fault, hfault⟩ := options_of_refused h hs ho
    cases hfault.symm.trans ho'
  · intro hs
    have hi : Command.options i.env i.arguments = .ok _ := options_of_settings h hs ho
    have hlogs : i.LogsBy s.level.shows := logsBy_settings h ho hs
    have hrecounts : i.Recounts { o with verbose := s.isVerbose, noColor := s.isNoColor } :=
      recounts hi
    refine ⟨hlogs, hrecounts, ?_, ?_⟩
    · intro ht
      have halike : i.Alike j := alike_of_options hi (options_of_settings h ht ho) rfl rfl rfl rfl
      exact ⟨halike, halike.logs_sublist hlogs (logsBy_settings h ho ht)⟩
    · intro k o' hk hjson hfile hstdin hfiles
      exact ⟨alike_of_options hi hk hjson hfile hstdin hfiles, logsBy hk⟩
  · intro hs
    obtain ⟨fault, hfault⟩ := options_of_refused h hs ho
    exact ⟨fault, (report_of_exit hfault).1⟩

/-- A verbose run that fails behind a comment and a number out of range.  The flag is given, so that
its value in the environment is not looked at. -/
theorem report_of_settings_verbose :
    let files : String → Except String (List Delivery) := fun _ =>
      .ok [.bytes "; c\n9223372036854775808 \"".toUTF8]
    let s : Settings := ⟨true, false, some "?", none, none⟩
    let t : Settings := ⟨false, true, none, some "?", some (.atLeast .trace)⟩
    let i := s.invocation (fun _ _ _ => "") ["--json", "p"] [] files
    let j := t.invocation (fun _ _ _ => "") ["--json", "p"] [] files
    (Without [.verbose, .noColor] ["--json", "p"] ∧ s.Valid ∧ t.Valid) ∧
      i.events = [.inputRead 25, .lineLoaded 1 4, .commentSkipped 1, .lineLoaded 2 21,
        .outOfRange "9223372036854775808"] ∧
      i.report.logs = ["DEBUG read input bytes=25", "DEBUG skipping comment line=1",
        "WARN integer literal out of range, reading it as a float word=\"9223372036854775808\""] ∧
      i.report.logs.Sublist j.report.logs ∧ j.report.code = i.report.code := by
  intro files s t i j
  have hwithout : Without [.verbose, .noColor] ["--json", "p"] := by
    unfold Without
    decide +kernel
  have hoptions : Command.options ⟨none, none, none⟩ ["--json", "p"] =
      .ok ⟨true, false, false, some "p"⟩ := by
    decide +kernel
  have hs : s.Valid := ⟨Or.inl rfl, Or.inr (by decide)⟩
  have ht : t.Valid := ⟨Or.inr (by decide), Or.inl rfl⟩
  have hevents : i.events = [.inputRead 25, .lineLoaded 1 4, .commentSkipped 1, .lineLoaded 2 21,
      .outOfRange "9223372036854775808"] := by
    decide +kernel
  obtain ⟨-, hdump⟩ := report_of_settings hwithout (fun _ _ _ => "") [] files s t
  obtain ⟨-, hvalid, -⟩ := hdump _ hoptions
  obtain ⟨hlogs, -, hother, -⟩ := hvalid hs
  obtain ⟨halike, hmore⟩ := hother ht
  refine ⟨⟨hwithout, hs, ht⟩, hevents, ?_, hmore (by decide), halike.code⟩
  have hlogs' : i.report.logs = (i.events.filter s.level.shows).map Event.logLine := hlogs
  rw [hlogs', hevents]
  decide +kernel

/-- A value in the environment that is no truth value ends the command in front of the program. -/
theorem report_of_settings_refused :
    let files : String → Except String (List Delivery) := fun _ => .error ""
    let s : Settings := ⟨false, false, none, none, some .off⟩
    let t : Settings := ⟨false, false, some "1", none, some .off⟩
    let i := s.invocation (fun _ _ _ => "") [] [.bytes "a".toUTF8] files
    let j := t.invocation (fun _ _ _ => "") [] [.bytes "a".toUTF8] files
    i.report.code = 0 ∧ i.report.output = "<Lexeme, type: symbol, value: a>\n" ∧
      j.report.code = 2 ∧ j.report.output = "" := by
  decide +kernel

end Invocation
end Command
end MicroLisp
