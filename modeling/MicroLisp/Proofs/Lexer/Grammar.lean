import MicroLisp.Proofs.Grammar.Parse
import MicroLisp.Proofs.Lexer.Run

/-!
# A run decides the lexical grammar

Every text has one parse, and the result of a run is read off it: the tokens of
the pieces when the ending is a blank, and else the error of the string literal
that breaks off.
-/

namespace MicroLisp.Lexer
open Text Grammar

/-- The one parse of a text and the result of a run over it.  An escape is reported on the line of
its letter, a literal without an end on the line of its opening quote; nothing is read from a text
exactly if it is a blank. -/
theorem tokens_of_parse (text : String) :
    (∃ ps e ts, Parses text.toList ps e ts ∧
      (∀ ps' e' ts', Parses text.toList ps' e' ts' → ps' = ps ∧ e' = e ∧ ts' = ts) ∧
      (ofText text).drain.tokens = ts ∧
      match e with
      | .closed _ => (ofText text).tokens = .ok ts
      | .badEscape _ _ letter rest =>
        (ofText text).tokens = .error (.unsupportedEscape letter
          (lineAt text.toList (startOf text.toList (letter :: rest))))
      | .unclosed _ enc backslash =>
        (ofText text).tokens = .error (.unterminatedString
          (lineAt text.toList (startOf text.toList ('"' :: (enc ++ tail backslash)))))) ∧
    ((ofText text).tokens = .ok [] ↔ LastBlank text.toList) := by
  obtain ⟨ps, e, ts, hparse⟩ := exists_parses text.toList
  obtain ⟨htokens, hfailure⟩ := drain_ofText text
  rw [hparse.scanAll_eq] at htokens hfailure
  refine ⟨⟨ps, e, ts, hparse, fun ps' e' ts' h' => hparse.unique h', htokens, ?_⟩, ?_, ?_⟩
  · cases e with
    | closed b => exact tokens_eq_ok_iff.mpr ⟨hfailure, htokens⟩
    | badEscape b enc letter rest =>
      refine tokens_eq_error_iff.mpr (hfailure.trans ?_)
      rw [startOf_cons]
      rfl
    | unclosed b enc backslash => exact tokens_eq_error_iff.mpr hfailure
  · intro hok
    obtain ⟨hnone, hnil⟩ := tokens_eq_ok_iff.mp hok
    rw [htokens] at hnil
    rw [hfailure] at hnone
    subst hnil
    generalize htext : text.toList = chars at hparse
    cases hparse with
    | ending he =>
      cases he with
      | closed hb => exact hb
      | badEscape hb henc he' => cases hnone
      | unclosed hb henc => cases hnone
  · intro hb
    obtain ⟨rfl, rfl, rfl⟩ := hparse.unique (.ending (e := .closed text.toList) (.closed hb))
    exact tokens_eq_ok_iff.mpr ⟨hfailure, htokens⟩

end MicroLisp.Lexer
