import MicroLisp.Proofs.Interner.History
import MicroLisp.Proofs.Lexer.Composition

/-!
# Interning the symbols of a program

A program that reads well can be interned before what follows it: the answers come one
behind the other, and what holds the names in the end is the same as if both had been
interned as one program (`internProgram_append_newline`).
-/

namespace MicroLisp.Interner

variable {t : Interner}

/-- The symbols of a program as they come, up to its end or the first error. -/
def symbols (program : String) : List String :=
  (Lexer.ofText program).drain.tokens.filterMap Token.symbolName?

theorem internProgram_eq (t : Interner) (program : String) :
    t.internProgram program =
      ((t.internAll (symbols program)).1 ++
          ((Lexer.ofText program).drain.failure.map Except.error).toList,
        (t.internAll (symbols program)).2) := rfl

theorem lowered_internAll (h : t.WellFormed) (n : Nat) (names : List String) :
    (t.internAll names).1.map (Except.mapError (Error.lowered n)) = (t.internAll names).1 := by
  rw [internAll_eq h, List.map_map]
  apply List.map_congr_left
  intro name _
  show Except.mapError (Error.lowered n) ((t.after names).answer name) = (t.after names).answer name
  unfold answer
  split
  · rfl
  · rfl

theorem symbols_append_newline {a : String} (ha : (Lexer.ofText a).drain.failure = none)
    (b : String) : symbols (a ++ "\n" ++ b) = symbols a ++ symbols b := by
  rw [symbols, (Lexer.drain_append_newline ha b).1, List.filterMap_append]
  rfl

theorem internProgram_append {a : String} (h : t.WellFormed)
    (ha : (Lexer.ofText a).drain.failure = none) (b : String) :
    t.internProgram (a ++ "\n" ++ b) =
      ((t.internProgram a).1 ++
          ((t.internProgram a).2.internProgram b).1.map
            (Except.mapError (Error.lowered (1 + a.toList.count '\n'))),
        ((t.internProgram a).2.internProgram b).2) := by
  have hbehind : (t.internAll (symbols a)).2.WellFormed := by
    rw [internAll_eq h]
    exact wellFormed_after t _
  have hfailure := (Lexer.drain_append_newline ha b).2
  rw [internProgram_eq, internProgram_eq, internProgram_eq, symbols_append_newline ha, hfailure, ha,
    internAll_append, List.map_append, lowered_internAll hbehind]
  cases (Lexer.ofText b).drain.failure with
  | none => simp
  | some e => simp [Except.mapError]

/-- Interning two programs one behind the other, on an interner behind any operations, is interning
them as one.  The symbols that get the same number are those with the same name, a symbol that is
refused leaves the interner and all other answers as they would be without it, and `nil` has
number zero. -/
theorem internProgram_append_newline (capacity : Nat) (operations : List Operation) {a : String}
    {ts : List Token} (ha : (Lexer.ofText a).tokens = .ok ts) (b : String) :
    let t := (withCapacity capacity).operate operations
    let first := t.internProgram a
    let second := first.2.internProgram b
    let whole := t.internProgram (a ++ "\n" ++ b)
    let names := symbols a ++ symbols b
    let answers := (t.internAll names).1
    let lines := 1 + a.toList.count '\n'
    (whole.1 = first.1 ++ second.1.map (Except.mapError (Error.lowered lines)) ∧
        whole.2 = second.2 ∧
        symbols (a ++ "\n" ++ b) = names ∧
        whole.1 = answers ++
          ((Lexer.ofText b).drain.failure.map fun e => .error (e.lowered lines)).toList) ∧
      (∀ i j id : Nat, answers[i]? = some (.ok id) →
        (answers[j]? = some (.ok id) ↔ names[j]? = names[i]?)) ∧
      (∀ i j : Nat, names[i]? = names[j]? → answers[i]? = answers[j]?) ∧
      (∀ front name back e, names = front ++ name :: back →
        answers[front.length]? = some (.error e) →
          let before := (t.internAll front).2
          let rest := before.internAll back
          before.intern name = (.error e, before) ∧ e = .internerFull t.capacity ∧
            answers = (t.internAll front).1 ++ .error e :: rest.1 ∧ whole.2 = rest.2 ∧
            t.internAll (front ++ back) = ((t.internAll front).1 ++ rest.1, whole.2)) ∧
      ∀ i : Nat, names[i]? = some "nil" → answers[i]? = some (.ok 0) := by
  intro t first second whole names answers lines
  have hsound : t.Sound := sound_operate capacity operations
  have h : t.WellFormed := hsound.toWellFormed
  have hnone : (Lexer.ofText a).drain.failure = none := (Lexer.tokens_eq_ok_iff.mp ha).1
  obtain ⟨hpieces, hbehind⟩ := Prod.ext_iff.mp (internProgram_append h hnone b)
  have hsymbols : symbols (a ++ "\n" ++ b) = names := symbols_append_newline hnone b
  have hwhole := internProgram_eq t (a ++ "\n" ++ b)
  rw [hsymbols, (Lexer.drain_append_newline hnone b).2, Option.map_map] at hwhole
  obtain ⟨hanswers, hlast⟩ := Prod.ext_iff.mp hwhole
  refine ⟨⟨hpieces, hbehind, hsymbols, hanswers⟩, ?_, ?_, ?_, ?_⟩
  · intro i j id hi
    exact h.same_number_iff hi
  · intro i j heq
    show (t.internAll names).1[i]? = (t.internAll names).1[j]?
    rw [h.answers_getElem?, h.answers_getElem?, heq]
  · intro front name back e hnames he before rest
    have he' : (t.internAll (front ++ name :: back)).1[front.length]? = some (.error e) := hnames ▸ he
    obtain ⟨hrefused, hfull, hrun, hwithout⟩ := h.internAll_refused he'
    have hrest : whole.2 = rest.2 := hlast.trans (by rw [hnames, hrun])
    refine ⟨hrefused, hfull, ?_, hrest, ?_⟩
    · show (t.internAll names).1 = _
      rw [hnames, hrun]
    · rw [hrest]
      exact hwithout
  · intro i hi
    obtain ⟨hmem, hplace⟩ := hsound.idxOf_nil
    show (t.internAll names).1[i]? = some (.ok 0)
    rw [h.answers_getElem?, hi, Option.map_some, h.answer_after hmem, hplace]

/-- The interner is full behind the first symbol of the first program, and the second program breaks
off: the symbol that is refused in both leaves no trace. -/
theorem internProgram_append_newline_full :
    let t := (withCapacity 3).operate [.intern "x", .find "y", .name 1]
    let whole := t.internProgram ("(y z x)" ++ "\n" ++ "nil z y\n\"\\q")
    (Lexer.ofText "(y z x)").tokens =
        .ok [.leftParen, .symbol "y", .symbol "z", .symbol "x", .rightParen] ∧
      whole.1 = [.ok 2, .error (.internerFull 3), .ok 1, .ok 0, .error (.internerFull 3), .ok 2,
        .error (.unsupportedEscape 'q' 3)] ∧
      t.internAll ["y", "x", "nil", "z", "y"] =
        ([.ok 2, .ok 1, .ok 0, .error (.internerFull 3), .ok 2], whole.2) := by
  intro t whole
  have htokens : (Lexer.ofText "(y z x)").tokens =
      .ok [.leftParen, .symbol "y", .symbol "z", .symbol "x", .rightParen] :=
    Lexer.tokens_eq_ok_iff.mpr (by decide +kernel)
  have hnames : symbols "(y z x)" ++ symbols "nil z y\n\"\\q" = ["y", "z", "x", "nil", "z", "y"] := by
    decide +kernel
  have hfailure : (Lexer.ofText "nil z y\n\"\\q").drain.failure = some (.unsupportedEscape 'q' 2) := by
    decide +kernel
  obtain ⟨⟨-, -, -, hwhole⟩, -, -, hrefused, -⟩ :=
    internProgram_append_newline 3 [.intern "x", .find "y", .name 1] htokens "nil z y\n\"\\q"
  rw [hnames] at hwhole hrefused
  rw [hfailure] at hwhole
  obtain ⟨-, -, -, -, hwithout⟩ :=
    hrefused ["y"] "z" ["x", "nil", "z", "y"] (.internerFull 3) rfl (by decide +kernel)
  exact ⟨htokens, hwhole.trans (by decide +kernel), hwithout.trans (by decide +kernel)⟩

end MicroLisp.Interner
