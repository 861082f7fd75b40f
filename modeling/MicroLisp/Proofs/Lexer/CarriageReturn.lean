import MicroLisp.Proofs.Grammar.CarriageReturn
import MicroLisp.Proofs.Lexer.Composition

/-!
# Texts with carriage returns

Two texts that differ in the carriage returns in front of their newlines are read
alike, with the same lines in their errors, up to the string literals that hold a
newline as it stands (`tokens_withReturns`).
-/

namespace MicroLisp

open Text

theorem Error.lowered_injective (n : Nat) : Function.Injective (Error.lowered n) := by
  intro e e' h
  cases e <;> cases e' <;> simp_all [Error.lowered]

namespace Grammar

/-- The error in which an ending ends, on its own. -/
def Ending.failure? : Ending → Option Error
  | .closed _ => none
  | .badEscape blank enc escape _ =>
    some (.unsupportedEscape escape (1 + (blank.count '\n' + enc.count '\n')))
  | .unclosed blank _ _ => some (.unterminatedString (1 + blank.count '\n'))

theorem Ending.failure_scan (e : Ending) : e.scan.failure e.text = e.failure? := by
  cases e with
  | closed b => rfl
  | badEscape b enc letter rest =>
    have htext : (Ending.badEscape b enc letter rest).text =
        (b ++ '"' :: (enc ++ ['\\'])) ++ letter :: rest := by simp [Ending.text]
    have hcount : (b ++ '"' :: (enc ++ ['\\'])).count '\n' = b.count '\n' + enc.count '\n' := by
      rw [List.count_append, List.count_cons_of_ne (by decide), List.count_append]
      rfl
    rw [htext, Ending.scan, Scan.failure, ← startOf_cons _ rest letter, lineAt_startOf_append,
      hcount, Ending.failure?]
  | unclosed b enc backslash =>
    rw [Ending.text, Ending.scan, Scan.failure, lineAt_startOf_append, Ending.failure?]

theorem Ending.failure_withReturns (e : Ending) :
    e.withReturns.failure? = e.failure? ↔ ∀ b enc rest, e ≠ .badEscape b enc '\n' rest := by
  cases e with
  | closed b => simp [Ending.withReturns, Ending.failure?]
  | badEscape b enc letter rest =>
    by_cases hletter : letter = '\n'
    · subst hletter
      simp [Ending.withReturns, Ending.failure?]
    · simp [Ending.withReturns, Ending.failure?, hletter, count_withReturns]
  | unclosed b enc backslash => simp [Ending.withReturns, Ending.failure?, count_withReturns]

theorem Parses.failure_withReturns {text : List Char} {ps : List Piece} {e : Ending}
    {ts : List Token} (h : Parses text ps e ts) :
    e.withReturns.scan.failure (Grammar.withReturns text) = e.scan.failure text ↔
      ∀ b enc rest, e ≠ .badEscape b enc '\n' rest := by
  obtain ⟨before, rfl⟩ := h.ending_suffix
  rw [withReturns_append, ← e.text_withReturns, Ending.failure_append _ (List.suffix_refl _),
    Ending.failure_append _ (List.suffix_refl _), count_withReturns, Ending.failure_scan,
    Ending.failure_scan, (Option.map_injective (Error.lowered_injective _)).eq_iff,
    Ending.failure_withReturns]

end Grammar

namespace Lexer
open Grammar

/-- Carriage returns in front of the newlines of a text add carriage returns to the values of
those string literals that hold newlines.  Otherwise its tokens are the same, and so is the error
in which it ends, with its line, unless that is the bad escape of a newline. -/
theorem tokens_withReturns (text : String) :
    let crlf := String.ofList (withReturns text.toList)
    ∃ ps e ts ts', Parses text.toList ps e ts ∧
      (∀ ps' e' us, Parses text.toList ps' e' us → ps' = ps ∧ e' = e ∧ us = ts) ∧
      Parses crlf.toList (ps.map Piece.withReturns) e.withReturns ts' ∧
      (ofText text).drain.tokens = ts ∧ (ofText crlf).drain.tokens = ts' ∧
      ReturnedTokens ps ts ts' ∧
      (ts' = ts ↔ ∀ p ∈ ps, '\n' ∉ p.lexeme) ∧
      ((ofText crlf).drain.failure = (ofText text).drain.failure ↔
        ∀ b enc rest, e ≠ .badEscape b enc '\n' rest) := by
  intro crlf
  obtain ⟨ps, e, ts, hparse⟩ := exists_parses text.toList
  obtain ⟨ts', hreturned, hts⟩ := hparse.withReturns
  have hcrlf : crlf.toList = withReturns text.toList := String.toList_ofList
  rw [← hcrlf] at hreturned
  obtain ⟨htokens, hfailure⟩ := drain_ofText text
  obtain ⟨htokens', hfailure'⟩ := drain_ofText crlf
  rw [hparse.scanAll_eq] at htokens hfailure
  rw [hreturned.scanAll_eq] at htokens' hfailure'
  refine ⟨ps, e, ts, ts', hparse, fun ps' e' us h' => hparse.unique h', hreturned, htokens,
    htokens', hts, hts.eq_iff, ?_⟩
  rw [hfailure, hfailure', hcrlf]
  exact hparse.failure_withReturns

end Lexer
end MicroLisp
