import MicroLisp.Json.Lexeme
import MicroLisp.Proofs.Json.Number

/-!
# Lexemes in front of more text

A number, a string and any other lexeme is read alike whatever follows it, as long as
the text does not break off where a number could go on (`Stop`).  So the lexemes of a
text are also the first ones of any longer text (`lexemes?_in_front`), and white space
between them is nowhere to be seen.
-/

namespace MicroLisp.Json

variable {text tail rest : List Char}

namespace Number
open Numeral

/-! ### Numbers -/

theorem span_in_front (h : text.dropWhile Char.isDigit = [] → Stops rest) :
    (text ++ rest).takeWhile Char.isDigit = text.takeWhile Char.isDigit ∧
      (text ++ rest).dropWhile Char.isDigit = text.dropWhile Char.isDigit ++ rest := by
  induction text with
  | nil => exact span_digits (fun _ hc => absurd hc List.not_mem_nil) (h rfl)
  | cons c text ih =>
    by_cases hc : c.isDigit = true
    · rw [List.dropWhile_cons_of_pos hc] at h ⊢
      obtain ⟨htake, hdrop⟩ := ih h
      rw [List.cons_append, List.takeWhile_cons_of_pos hc, List.takeWhile_cons_of_pos hc,
        List.dropWhile_cons_of_pos hc, htake, hdrop]
      exact ⟨rfl, rfl⟩
    · rw [List.cons_append, List.takeWhile_cons_of_neg hc, List.takeWhile_cons_of_neg hc,
        List.dropWhile_cons_of_neg hc, List.dropWhile_cons_of_neg hc]
      exact ⟨rfl, rfl⟩

theorem splitSign_in_front (h : (splitSign text).2 ≠ []) :
    splitSign (text ++ rest) = ((splitSign text).1, (splitSign text).2 ++ rest) := by
  unfold splitSign at h ⊢
  split at h
  · rfl
  · rfl
  · next hminus hplus =>
    obtain ⟨c, cs, rfl⟩ := List.exists_cons_of_ne_nil h
    split
    · next heq => exact absurd (List.cons.inj heq).1 fun hc => hminus cs (hc ▸ rfl)
    · next heq => exact absurd (List.cons.inj heq).1 fun hc => hplus cs (hc ▸ rfl)
    · rfl

theorem readFraction?_in_front {f : Option (List Char)} (h : readFraction? text = some (f, tail))
    (hrest : tail = [] → Stop rest) : readFraction? (text ++ rest) = some (f, tail ++ rest) := by
  unfold readFraction? at h
  split at h
  · next cs =>
    dsimp only at h
    split at h
    · cases h
    · next hne =>
      obtain ⟨rfl, rfl⟩ := Prod.mk.inj (Option.some.inj h)
      obtain ⟨htake, hdrop⟩ := span_in_front fun hnil => (hrest hnil).stops
      simp only [List.cons_append, readFraction?, htake, hdrop, hne, ↓reduceIte]
  · next hpoint =>
    obtain ⟨rfl, rfl⟩ := Prod.mk.inj (Option.some.inj h)
    cases text with
    | nil =>
      have hpoint : rest.head? ≠ some '.' := fun hc => (hrest rfl '.' hc).2.1 rfl
      exact readFraction?_fractionText (f := none) (by simp) (hrest rfl).stops hpoint
    | cons c cs =>
      rw [List.cons_append]
      unfold readFraction?
      split
      · next heq => exact absurd (List.cons.inj heq).1 fun hc => hpoint cs (hc ▸ rfl)
      · rfl

theorem readExponent?_in_front {e : Option Int} (h : readExponent? text = some (e, tail))
    (hrest : tail = [] → Stop rest) : readExponent? (text ++ rest) = some (e, tail ++ rest) := by
  cases text with
  | nil =>
    obtain ⟨rfl, rfl⟩ := Prod.mk.inj (Option.some.inj h)
    exact readExponent?_exponentText (hrest rfl) none
  | cons c cs =>
    rw [List.cons_append]
    simp only [readExponent?] at h ⊢
    split at h
    · next hmark =>
      split at h
      · cases h
      · next hne =>
        obtain ⟨rfl, rfl⟩ := Prod.mk.inj (Option.some.inj h)
        have hbody : (splitSign cs).2 ≠ [] := fun hnil => hne (by rw [hnil]; rfl)
        obtain ⟨htake, hdrop⟩ := span_in_front fun hnil => (hrest hnil).stops
        simp only [hmark, ↓reduceIte, splitSign_in_front hbody, htake, hdrop, hne]
    · next hmark =>
      obtain ⟨rfl, rfl⟩ := Prod.mk.inj (Option.some.inj h)
      rw [if_neg hmark]
      rfl

theorem readUnsigned?_in_front {negative : Bool} {n : Number}
    (h : readUnsigned? negative text = some (n, tail)) (hrest : tail = [] → Stop rest) :
    readUnsigned? negative (text ++ rest) = some (n, tail ++ rest) := by
  unfold readUnsigned? at h
  dsimp only at h
  split at h
  · cases h
  · next hwhole =>
    split at h
    · cases h
    · next f afterFraction hf =>
      split at h
      · cases h
      · next e afterExponent he =>
        obtain ⟨rfl, rfl⟩ := Prod.mk.inj (Option.some.inj h)
        -- where one part takes all that is left, nothing is left for the next one either
        have hfraction : afterFraction = [] → Stop rest := fun hnil =>
          hrest (List.suffix_nil.mp (hnil ▸ suffix_of_readExponent? he))
        have hwholeStops : text.dropWhile Char.isDigit = [] → Stops rest := fun hnil =>
          (hfraction (List.suffix_nil.mp (hnil ▸ suffix_of_readFraction? hf))).stops
        obtain ⟨htake, hdrop⟩ := span_in_front hwholeStops
        simp only [readUnsigned?, htake, hdrop, hwhole, ↓reduceIte, readFraction?_in_front hf hfraction,
          readExponent?_in_front he hrest]

theorem head_of_readUnsigned? {negative : Bool} {n : Number}
    (h : readUnsigned? negative text = some (n, tail)) :
    ∃ c cs, text = c :: cs ∧ c.isDigit = true := by
  unfold readUnsigned? at h
  dsimp only at h
  split at h
  · cases h
  · next hwhole =>
    cases text with
    | nil => exact absurd (Or.inl rfl) hwhole
    | cons c cs =>
      refine ⟨c, cs, rfl, ?_⟩
      by_contra hc
      exact hwhole (Or.inl (List.takeWhile_cons_of_neg hc))

theorem read?_in_front {n : Number} (h : read? text = some (n, tail)) (hrest : tail = [] → Stop rest) :
    (∃ c cs, text = c :: cs ∧ (c.isDigit = true ∨ c = '-')) ∧
      read? (text ++ rest) = some (n, tail ++ rest) := by
  unfold read? at h
  split at h
  · next cs => exact ⟨⟨'-', cs, rfl, Or.inr rfl⟩, readUnsigned?_in_front h hrest⟩
  · next hminus =>
    obtain ⟨c, cs, rfl, hc⟩ := head_of_readUnsigned? h
    refine ⟨⟨c, cs, rfl, Or.inl hc⟩, ?_⟩
    have hread := readUnsigned?_in_front h hrest
    rw [List.cons_append] at hread ⊢
    unfold read?
    split
    · next heq => exact absurd (List.cons.inj heq).1 fun hc => hminus cs (hc ▸ rfl)
    · exact hread

end Number

open Number

/-! ### Strings -/

theorem parts?_in_front {us : List Part} (h : parts? text = some (us, tail)) (rest : List Char) :
    parts? (text ++ rest) = some (us, tail ++ rest) := by
  fun_induction parts? text generalizing us with
  | case1 => cases h
  | case2 more =>
    obtain ⟨rfl, rfl⟩ := Prod.mk.inj (Option.some.inj h)
    rfl
  | case3 a b c d more ih =>
    simp only [Option.bind_eq_some_iff, Option.map_eq_some_iff, Prod.exists, Prod.mk.injEq] at h
    obtain ⟨n, hn, vs, t, ht, rfl, rfl⟩ := h
    simp only [List.cons_append, parts?, hn, Option.bind_some, ih ht, Option.map_some]
  | case4 e more he ih =>
    simp only [Option.bind_eq_some_iff, Option.map_eq_some_iff, Prod.exists, Prod.mk.injEq] at h
    obtain ⟨c, hc, vs, t, ht, rfl, rfl⟩ := h
    rw [List.cons_append, List.cons_append, parts?, hc, Option.bind_some, ih ht, Option.map_some]
    -- no letter escape begins like a code unit
    rintro _ _ _ _ _ rfl
    cases hc
  | case5 c more => cases h
  | case6 c more hq hu he hc ih =>
    simp only [Option.map_eq_some_iff, Prod.exists, Prod.mk.injEq] at h
    obtain ⟨vs, t, ht, rfl, rfl⟩ := h
    obtain ⟨e, more, rfl⟩ : ∃ e more', more = e :: more' := by
      cases more with
      | nil => cases ht
      | cons e more => exact ⟨e, more, rfl⟩
    rw [List.cons_append, parts?, if_neg hc, ih ht, Option.map_some]
    · exact hq
    · intro _ _ _ _ _ hback _
      exact he e more hback rfl
    · intro _ _ hback _
      exact he e more hback rfl

/-! ### Any lexeme -/

theorem lexeme?_number {c : Char} (hc : c.isDigit = true ∨ c = '-') (cs : List Char) :
    lexeme? (c :: cs) = (read? (c :: cs)).map fun (n, tail) => (.scalar (.number n), tail) := by
  unfold lexeme?
  split
  case h_11 => rfl
  all_goals
    next heq =>
      obtain rfl := (List.cons.inj heq).1
      exact absurd hc (by decide)

theorem lexeme?_in_front {l : Lexeme} (h : lexeme? text = some (l, tail))
    (hrest : tail = [] → Stop rest) : lexeme? (text ++ rest) = some (l, tail ++ rest) := by
  unfold lexeme? at h
  split at h
  case h_10 more =>
    simp only [Option.map_eq_some_iff, Prod.exists, Prod.mk.injEq] at h
    obtain ⟨us, t, ht, rfl, rfl⟩ := h
    rw [List.cons_append, lexeme?, parts?_in_front ht, Option.map_some]
  case h_11 =>
    simp only [Option.map_eq_some_iff, Prod.exists, Prod.mk.injEq] at h
    obtain ⟨n, t, hn, rfl, rfl⟩ := h
    obtain ⟨⟨c, cs, rfl, hc⟩, hread⟩ := read?_in_front hn hrest
    rw [List.cons_append] at hread ⊢
    rw [lexeme?_number hc, hread, Option.map_some]
  all_goals
    obtain ⟨rfl, rfl⟩ := Prod.mk.inj (Option.some.inj h)
    rfl

theorem lexemes?_of_lexeme? {l : Lexeme} {c : Char} (h : lexeme? (c :: text) = some (l, tail))
    (hc : isSpace c = false) : lexemes? (c :: text) = (lexemes? tail).map (l :: ·) := by
  rw [lexemes?, if_neg (by simp [hc])]
  split
  · next hnone =>
    rw [h] at hnone
    cases hnone
  · next l' tail' hsome =>
    rw [h] at hsome
    obtain ⟨rfl, rfl⟩ := Prod.mk.inj (Option.some.inj hsome)
    rfl

theorem lexemes?_in_front {ls : List Lexeme} (h : lexemes? text = some ls) (hrest : Stop rest) :
    lexemes? (text ++ rest) = (lexemes? rest).map (ls ++ ·) := by
  fun_induction lexemes? text generalizing ls with
  | case1 =>
    obtain rfl := Option.some.inj h
    simp
  | case2 c more hspace ih =>
    rw [List.cons_append, lexemes?, if_pos hspace, ih h]
  | case3 c more hspace hnone => cases h
  | case4 c more hspace l tail hlexeme ih =>
    obtain ⟨ls, hls, rfl⟩ := Option.map_eq_some_iff.mp h
    have hfront := lexeme?_in_front hlexeme fun _ => hrest
    rw [List.cons_append] at hfront ⊢
    rw [lexemes?_of_lexeme? hfront (Bool.eq_false_of_not_eq_true hspace), ih hls, Option.map_map]
    rfl

end MicroLisp.Json
