import Mathlib.Tactic.SplitIfs
import MicroLisp.Command.Options

/-!
# Settings of the log

Whether the log is verbose and coloured is said by two flags or else by the environment,
and a level in the environment comes before both.  Settings in front of arguments that
give neither flag change nothing else about the options (`options_of_settings`), unless
the environment has a value that is no truth value, which is refused
(`options_of_refused`).
-/

namespace MicroLisp.Command

def flagsOf (argument : String) : List Flag :=
  match argument.toList with
  | '-' :: '-' :: text => (Flag.ofName? (String.ofList text)).toList
  | '-' :: c :: letters => (c :: letters).filterMap Flag.ofLetter?
  | _ => []

/-- Arguments that give none of the flags `fs`. -/
def Without (fs : List Flag) (arguments : List String) : Prop :=
  ∀ argument ∈ arguments.takeWhile (· ≠ "--"), ∀ f ∈ fs, f ∉ flagsOf argument

variable {fs : List Flag} {g : Given} {f : Flag}

/-! ### Flags in front of arguments -/

namespace Given

/-- The same with the flags `fs` given before all else. -/
def behind (fs : List Flag) (g : Given) : Given := { g with flags := g.flags ++ fs }

def Free (fs : List Flag) (g : Given) : Prop := ∀ f ∈ fs, f ∉ g.flags

/-- What is taken without the flags `fs`, and what is taken behind them: the one is the other but for
these flags. -/
structure Alongside (fs : List Flag) (plain flagged : Except Exit Given) : Prop where
  eq_map : flagged = plain.map (behind fs)
  free : ∀ g, plain = .ok g → g.Free fs

theorem alongside_error (exit : Exit) : Alongside fs (.error exit) (.error exit) :=
  ⟨rfl, fun _ h => by cases h⟩

theorem alongside_ok (hg : g.Free fs) : Alongside fs (.ok g) (.ok (g.behind fs)) :=
  ⟨rfl, fun _ h => by cases h; exact hg⟩

theorem Alongside.bind {plain flagged : Except Exit Given} {k : Given → Except Exit Given}
    (h : Alongside fs plain flagged)
    (hk : ∀ g, g.Free fs → Alongside fs (k g) (k (g.behind fs))) :
    Alongside fs (plain >>= k) (flagged >>= k) := by
  obtain ⟨rfl, hfree⟩ := h
  cases plain with
  | error exit => exact alongside_error exit
  | ok g => exact hk g (hfree g rfl)

theorem alongside_foldlM {α : Type} {k : Given → α → Except Exit Given} {args : List α}
    (hg : g.Free fs)
    (hk : ∀ a ∈ args, ∀ g : Given, g.Free fs → Alongside fs (k g a) (k (g.behind fs) a)) :
    Alongside fs (args.foldlM k g) (args.foldlM k (g.behind fs)) := by
  induction args generalizing g with
  | nil => exact alongside_ok hg
  | cons a args ih =>
    rw [List.foldlM_cons, List.foldlM_cons]
    exact (hk a List.mem_cons_self g hg).bind fun g hg =>
      ih hg fun b hb => hk b (List.mem_cons_of_mem a hb)

theorem alongside_takeFlag (hg : g.Free fs) (hf : f ∉ fs) :
    Alongside fs (g.takeFlag f) ((g.behind fs).takeFlag f) := by
  have hmem : f ∈ g.flags ++ fs ↔ f ∈ g.flags := by simp [hf]
  simp only [takeFlag, behind, hmem]
  split_ifs
  · exact alongside_error _
  · exact alongside_error _
  · exact alongside_error _
  · exact alongside_error _
  · refine alongside_ok (g := ⟨f :: g.flags, g.file⟩) fun f' hf' hmem' => ?_
    rcases List.mem_cons.mp hmem' with rfl | hmem'
    · exact hf hf'
    · exact hg f' hf' hmem'

theorem alongside_takeFile (hg : g.Free fs) (name : String) :
    Alongside fs (g.takeFile name) ((g.behind fs).takeFile name) := by
  obtain ⟨flags, file⟩ := g
  cases file with
  | none => exact alongside_ok (g := ⟨flags, some name⟩) hg
  | some file => exact alongside_error _

theorem alongside_takeLong (hg : g.Free fs) {text : List Char}
    (h : ∀ f ∈ fs, f ∉ (Flag.ofName? (String.ofList text)).toList) :
    Alongside fs (g.takeLong text) ((g.behind fs).takeLong text) := by
  have hsplit := List.takeWhile_append_dropWhile (p := (· ≠ '=')) (l := text)
  simp only [takeLong]
  split
  · exact alongside_error _
  · next f hf =>
    split
    · next hnil =>
      -- without a value the name is the whole text
      rw [hnil, List.append_nil] at hsplit
      rw [hsplit] at hf
      refine alongside_takeFlag hg fun hmem => h f hmem ?_
      rw [hf]
      exact List.mem_singleton_self f
    · exact alongside_error _

theorem alongside_takeLetter (hg : g.Free fs) {letter : Char}
    (h : ∀ f ∈ fs, Flag.ofLetter? letter ≠ some f) :
    Alongside fs (g.takeLetter letter) ((g.behind fs).takeLetter letter) := by
  simp only [takeLetter]
  split
  · exact alongside_error _
  · next f hf => exact alongside_takeFlag hg fun hmem => h f hmem hf

theorem alongside_take (hg : g.Free fs) {argument : String}
    (h : ∀ f ∈ fs, f ∉ flagsOf argument) :
    Alongside fs (g.take argument) ((g.behind fs).take argument) := by
  simp only [take]
  split
  · next text hchars =>
    simp only [flagsOf, hchars] at h
    exact alongside_takeLong hg h
  · next c letters _ hchars =>
    simp only [flagsOf, hchars] at h
    refine alongside_foldlM hg fun letter hletter g hg => alongside_takeLetter hg ?_
    intro f hf hletter'
    exact h f hf (List.mem_filterMap.mpr ⟨letter, hletter, hletter'⟩)
  · exact alongside_takeFile hg argument

theorem alongside_takeAll (hg : g.Free fs) {arguments : List String}
    (h : Without fs arguments) :
    Alongside fs (g.takeAll arguments) ((g.behind fs).takeAll arguments) := by
  induction arguments generalizing g with
  | nil => exact alongside_ok hg
  | cons argument rest ih =>
    by_cases hend : argument = "--"
    · simp only [takeAll, hend, ↓reduceIte]
      exact alongside_foldlM hg fun name _ g hg => alongside_takeFile hg name
    · have htake : (argument :: rest).takeWhile (· ≠ "--") =
          argument :: rest.takeWhile (· ≠ "--") := List.takeWhile_cons_of_pos (by simpa using hend)
      rw [Without, htake] at h
      have hfirst := alongside_take hg (h argument List.mem_cons_self)
      have hrest : Without fs rest := fun a ha => h a (List.mem_cons_of_mem _ ha)
      simp only [takeAll, hend, ↓reduceIte]
      obtain ⟨heq, hfree⟩ := hfirst
      rw [heq]
      cases hx : g.take argument with
      | error exit => exact alongside_error exit
      | ok next => exact ih (hfree next hx) hrest

end Given

/-! ### Settings -/

/-- Two flags, given or not, and what the environment says about them and about the log. -/
structure Settings where
  verbose : Bool
  noColor : Bool
  verboseEnv : Option String
  noColorEnv : Option String
  log : Option LogLevel

def truthValues : List (Option String) := [none, some "true", some "false"]

namespace Settings

def arguments (s : Settings) : List String :=
  (if s.verbose then ["-v"] else []) ++ if s.noColor then ["--no-color"] else []

def flags (s : Settings) : List Flag :=
  (if s.noColor then [.noColor] else []) ++ if s.verbose then [.verbose] else []

def environment (s : Settings) : Environment :=
  ⟨s.verboseEnv, s.noColorEnv, s.log.map LogLevel.shows⟩

/-- The environment has truth values for the flags that are not given. -/
structure Valid (s : Settings) : Prop where
  verbose : s.verbose = true ∨ s.verboseEnv ∈ truthValues
  noColor : s.noColor = true ∨ s.noColorEnv ∈ truthValues

def isVerbose (s : Settings) : Bool := s.verbose || s.verboseEnv = some "true"

def isNoColor (s : Settings) : Bool := s.noColor || s.noColorEnv = some "true"

/-- The level in the environment wins over the flag. -/
def level (s : Settings) : LogLevel := s.log.getD (.atLeast (if s.isVerbose then .debug else .warn))

end Settings

variable {s : Settings} {arguments : List String}

theorem takeAll_settings (s : Settings) (arguments : List String) :
    Given.takeAll ⟨[], none⟩ (s.arguments ++ arguments) = Given.takeAll ⟨s.flags, none⟩ arguments := by
  obtain ⟨_ | _, _ | _, venv, cenv, log⟩ := s
  · rfl
  · rfl
  · rfl
  · rfl

theorem Settings.mem_flags (s : Settings) :
    (.verbose ∈ s.flags ↔ s.verbose = true) ∧ (.noColor ∈ s.flags ↔ s.noColor = true) ∧
      .json ∉ s.flags := by
  obtain ⟨_ | _, _ | _, venv, cenv, log⟩ := s
  · simp [flags]
  · simp [flags]
  · simp [flags]
  · simp [flags]

theorem Without.takeAll (h : Without [.verbose, .noColor] arguments) (s : Settings) :
    Given.takeAll ⟨[], none⟩ (s.arguments ++ arguments) =
      (Given.takeAll ⟨[], none⟩ arguments).map (Given.behind s.flags) := by
  have hflags : Without s.flags arguments := by
    intro argument hargument f hf
    refine h argument hargument f ?_
    cases f <;> simp_all [Settings.flags]
  rw [takeAll_settings]
  exact (Given.alongside_takeAll (g := ⟨[], none⟩) (fun _ _ => List.not_mem_nil) hflags).eq_map

/-! ### The environment -/

theorem isSet_behind (hf : f ∉ g.flags) {given : Bool} (hfs : f ∈ fs ↔ given = true)
    {setting : Option String} (h : given = true ∨ setting ∈ truthValues) :
    isSet (g.behind fs) f setting = .ok (given || setting = some "true") := by
  have hmem : f ∈ (g.behind fs).flags ↔ given = true := by
    rw [← hfs, Given.behind, List.mem_append]
    exact or_iff_right hf
  rw [isSet.eq_def]
  cases given with
  | true =>
    rw [if_pos (hmem.mpr rfl)]
    rfl
  | false =>
    rw [if_neg fun hin => Bool.false_ne_true (hmem.mp hin)]
    have hvalues := h.resolve_left Bool.false_ne_true
    simp only [truthValues, List.mem_cons, List.not_mem_nil, or_false] at hvalues
    rcases hvalues with rfl | rfl | rfl
    · rfl
    · rfl
    · rfl

theorem isSet_refused (hf : f ∉ g.flags) {given : Bool} (hfs : f ∈ fs ↔ given = true)
    {setting : Option String} (h : ¬ (given = true ∨ setting ∈ truthValues)) :
    ∃ fault, isSet (g.behind fs) f setting = .error (.usage fault) := by
  obtain ⟨hgiven, hvalues⟩ := not_or.mp h
  have hmem : f ∉ (g.behind fs).flags := fun hmem =>
    (List.mem_append.mp hmem).elim hf fun hin => hgiven (hfs.mp hin)
  rw [isSet.eq_def, if_neg hmem]
  split
  · exact absurd (by decide) hvalues
  · exact absurd (by decide) hvalues
  · exact absurd (by decide) hvalues
  · exact ⟨_, rfl⟩
  · exact ⟨_, rfl⟩

def optionsGiven (env : Environment) (g : Given) : Except Exit Options := do
  if g.file = some "" then throw (.usage .missingFile)
  let verbose ← isSet g .verbose env.verbose
  let noColor ← isSet g .noColor env.noColor
  return ⟨Flag.json ∈ g.flags, verbose, noColor, g.file⟩

theorem options_eq_bind (env : Environment) (arguments : List String) :
    options env arguments = Given.takeAll ⟨[], none⟩ arguments >>= optionsGiven env := rfl

theorem optionsGiven_eq (env : Environment) (hfile : g.file ≠ some "") {verbose noColor : Bool}
    (hverbose : isSet g .verbose env.verbose = .ok verbose)
    (hcolor : isSet g .noColor env.noColor = .ok noColor) :
    optionsGiven env g = .ok ⟨Flag.json ∈ g.flags, verbose, noColor, g.file⟩ := by
  simp only [optionsGiven, hfile, hverbose, hcolor, ↓reduceIte]
  rfl

theorem optionsGiven_missingFile (env : Environment) (hfile : g.file = some "") :
    optionsGiven env g = .error (.usage .missingFile) := by
  simp only [optionsGiven, hfile, ↓reduceIte]
  rfl

theorem optionsGiven_refused {env : Environment} (hfile : g.file ≠ some "")
    (h : (∃ fault, isSet g .verbose env.verbose = .error (.usage fault)) ∨
      (∃ verbose, isSet g .verbose env.verbose = .ok verbose) ∧
        ∃ fault, isSet g .noColor env.noColor = .error (.usage fault)) :
    ∃ fault, optionsGiven env g = .error (.usage fault) := by
  rcases h with ⟨fault, hverbose⟩ | ⟨⟨verbose, hverbose⟩, fault, hcolor⟩
  · refine ⟨fault, ?_⟩
    simp only [optionsGiven, hfile, hverbose, ↓reduceIte]
    rfl
  · refine ⟨fault, ?_⟩
    simp only [optionsGiven, hfile, hverbose, hcolor, ↓reduceIte]
    rfl

theorem isSet_none (hf : f ∉ g.flags) : isSet g f none = .ok false := by
  rw [isSet.eq_def, if_neg hf]

/-! ### Settings in front of arguments -/

/-- The arguments end it all alike with the settings and without, or they ask for a dump, and only then
are the settings looked at. -/
theorem Without.options_cases (h : Without [.verbose, .noColor] arguments) (s : Settings) :
    (∃ exit, options ⟨none, none, none⟩ arguments = .error exit ∧
      options s.environment (s.arguments ++ arguments) = .error exit) ∨
    ∃ g : Given, .verbose ∉ g.flags ∧ .noColor ∉ g.flags ∧ g.file ≠ some "" ∧
      options ⟨none, none, none⟩ arguments = .ok ⟨Flag.json ∈ g.flags, false, false, g.file⟩ ∧
      options s.environment (s.arguments ++ arguments) =
        optionsGiven s.environment (g.behind s.flags) := by
  have hfree := (Given.alongside_takeAll (g := ⟨[], none⟩) (fun _ _ => List.not_mem_nil) h).free
  rw [options_eq_bind, options_eq_bind, h.takeAll s]
  cases hx : Given.takeAll ⟨[], none⟩ arguments with
  | error exit => exact Or.inl ⟨exit, rfl, rfl⟩
  | ok g =>
    have hv : .verbose ∉ g.flags := hfree g hx _ (by decide)
    have hc : .noColor ∉ g.flags := hfree g hx _ (by decide)
    by_cases hfile : g.file = some ""
    · exact Or.inl ⟨_, optionsGiven_missingFile _ hfile,
        optionsGiven_missingFile _ (g := g.behind s.flags) hfile⟩
    · exact Or.inr ⟨g, hv, hc, hfile,
        optionsGiven_eq ⟨none, none, none⟩ hfile (isSet_none hv) (isSet_none hc), rfl⟩

/-- Arguments that do not ask for a dump do not get as far as the environment. -/
theorem options_of_exit (h : Without [.verbose, .noColor] arguments) (s : Settings) {exit : Exit}
    (hexit : options ⟨none, none, none⟩ arguments = .error exit) :
    options s.environment (s.arguments ++ arguments) = .error exit := by
  rcases h.options_cases s with ⟨exit', hplain, hset⟩ | ⟨g, -, -, -, hplain, -⟩
  · rw [hset, ← hplain, hexit]
  · cases hplain.symm.trans hexit

theorem options_of_settings (h : Without [.verbose, .noColor] arguments) (hs : s.Valid) {o : Options}
    (ho : options ⟨none, none, none⟩ arguments = .ok o) :
    options s.environment (s.arguments ++ arguments) =
      .ok { o with verbose := s.isVerbose, noColor := s.isNoColor } := by
  rcases h.options_cases s with ⟨exit, hplain, -⟩ | ⟨g, hv, hc, hfile, hplain, hset⟩
  · cases hplain.symm.trans ho
  · obtain rfl := Except.ok.inj (hplain.symm.trans ho)
    obtain ⟨hverbose, hcolor, hjson⟩ := s.mem_flags
    have hmem : Flag.json ∈ (g.behind s.flags).flags ↔ Flag.json ∈ g.flags := by
      rw [Given.behind, List.mem_append]
      exact or_iff_left hjson
    rw [hset, optionsGiven_eq s.environment (g := g.behind s.flags) hfile
        (isSet_behind hv hverbose hs.verbose) (isSet_behind hc hcolor hs.noColor),
      decide_eq_decide.mpr hmem]
    rfl

/-- Settings with any other value are refused. -/
theorem options_of_refused (h : Without [.verbose, .noColor] arguments) (hs : ¬ s.Valid)
    {o : Options} (ho : options ⟨none, none, none⟩ arguments = .ok o) :
    ∃ fault, options s.environment (s.arguments ++ arguments) = .error (.usage fault) := by
  rcases h.options_cases s with ⟨exit, hplain, -⟩ | ⟨g, hv, hc, hfile, -, hset⟩
  · cases hplain.symm.trans ho
  · rw [hset]
    obtain ⟨hverbose, hcolor, -⟩ := s.mem_flags
    apply optionsGiven_refused (g := g.behind s.flags) hfile
    by_cases hvalid : s.verbose = true ∨ s.verboseEnv ∈ truthValues
    · exact Or.inr ⟨⟨_, isSet_behind hv hverbose hvalid⟩,
        isSet_refused hc hcolor fun hok => hs ⟨hvalid, hok⟩⟩
    · exact Or.inl (isSet_refused hv hverbose hvalid)

end MicroLisp.Command
