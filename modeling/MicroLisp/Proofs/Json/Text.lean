import MicroLisp.Json.Text

/-!
# Strings are read as they were written

A character of a text is written by itself, with a one-letter escape or as a code unit
(`written_escape`), and is read as one part of a string that stands for it again.  So a
text between quotes is read back as it was (`parts?_quoted`), and no control character
is left in what is written.
-/

namespace MicroLisp.Json

/-- The ways in which a character is written in a string. -/
inductive Written (c : Char) : List Char → Prop
  | raw : 32 ≤ c.toNat → c ≠ '"' → c ≠ '\\' → Written c [c]
  | letter {e : Char} : e ≠ 'u' → letter? e = some c → Written c ['\\', e]
  | code : c.toNat < 32 →
    Written c ['\\', 'u', '0', '0', Nat.digitChar (c.toNat / 16), Nat.digitChar (c.toNat % 16)]

variable {c : Char} {w : List Char}

/-! ### One character -/

theorem written_escape (c : Char) : Written c (escape c) := by
  unfold escape
  split
  · next h =>
    subst h
    exact .letter (by decide) rfl
  split
  · next h =>
    subst h
    exact .letter (by decide) rfl
  split
  · next h =>
    subst h
    exact .letter (by decide) rfl
  split
  · next h =>
    subst h
    exact .letter (by decide) rfl
  split
  · next h =>
    subst h
    exact .letter (by decide) rfl
  split
  · next h =>
    subst h
    exact .letter (by decide) rfl
  split
  · next h =>
    subst h
    exact .letter (by decide) rfl
  split
  · next h => exact .code h
  · next hq hb _ _ _ _ _ hcontrol => exact .raw (Nat.le_of_not_lt hcontrol) hq hb

theorem hex?_digits {n : Nat} (h : n < 32) :
    hex? ['0', '0', Nat.digitChar (n / 16), Nat.digitChar (n % 16)] = some n := by
  have hall : ∀ n < 32, hex? ['0', '0', Nat.digitChar (n / 16), Nat.digitChar (n % 16)] = some n := by
    decide
  exact hall n h

theorem textOf?_code {n : Nat} (h : n < 32) (us : List Part) :
    textOf? (.code n :: us) = (textOf? us).map (Char.ofNat n :: ·) := by
  have hhigh : isHighSurrogate n = false := by
    simp only [isHighSurrogate, Bool.and_eq_false_iff, decide_eq_false_iff_not]
    omega
  have hlow : isLowSurrogate n = false := by
    simp only [isLowSurrogate, Bool.and_eq_false_iff, decide_eq_false_iff_not]
    omega
  rcases us with _ | ⟨_ | low, us⟩
  · simp [textOf?, hhigh, hlow]
  · simp [textOf?, hhigh, hlow]
  · simp [textOf?.eq_3, hhigh, hlow]

theorem Written.read (h : Written c w) :
    ∃ p, (∀ s, parts? (w ++ s) = (parts? s).map fun (us, tail) => (p :: us, tail)) ∧
      ∀ us, textOf? (p :: us) = (textOf? us).map (c :: ·) := by
  cases h with
  | raw hcontrol hquote hback =>
    refine ⟨.char c, fun s => ?_, fun us => rfl⟩
    rw [List.singleton_append, parts?, if_neg (Nat.not_lt.mpr hcontrol)]
    · exact hquote
    · rintro _ _ _ _ _ rfl
      exact absurd rfl hback
    · rintro _ _ rfl
      exact absurd rfl hback
  | @letter e hu he =>
    refine ⟨.char c, fun s => ?_, fun us => rfl⟩
    rw [List.cons_append, List.singleton_append, parts?, he, Option.bind_some]
    rintro _ _ _ _ _ rfl
    exact absurd rfl hu
  | code hcontrol =>
    refine ⟨.code c.toNat, fun s => ?_, fun us => ?_⟩
    · simp only [List.cons_append, List.nil_append, parts?, hex?_digits hcontrol, Option.bind_some]
    · rw [textOf?_code hcontrol, Char.ofNat_toNat]

/-! ### Whole texts -/

theorem parts?_quoted (text rest : List Char) :
    ∃ us, parts? (text.flatMap escape ++ '"' :: rest) = some (us, rest) ∧
      textOf? us = some text := by
  induction text with
  | nil => exact ⟨[], rfl, rfl⟩
  | cons c text ih =>
    obtain ⟨us, hus, htext⟩ := ih
    obtain ⟨p, hread, hp⟩ := (written_escape c).read
    refine ⟨p :: us, ?_, ?_⟩
    · rw [List.flatMap_cons, List.append_assoc, hread, hus, Option.map_some]
    · rw [hp, htext, Option.map_some]

theorem no_control_of_all {w : List Char} (h : (w.all fun a => decide (32 ≤ a.toNat)) = true) :
    ∀ a ∈ w, 32 ≤ a.toNat := fun a ha => of_decide_eq_true (List.all_eq_true.mp h a ha)

theorem Written.no_control (h : Written c w) : ∀ a ∈ w, 32 ≤ a.toNat := by
  cases h with
  | raw hcontrol => simpa using hcontrol
  | @letter e hu he =>
    have hletter : 32 ≤ e.toNat := by
      unfold letter? at he
      split at he
      all_goals first | decide | cases he
    simpa using hletter
  | code hcontrol =>
    have hall : ∀ n < 32, (['\\', 'u', '0', '0', Nat.digitChar (n / 16), Nat.digitChar (n % 16)].all
        fun a => decide (32 ≤ a.toNat)) = true := by
      decide
    exact no_control_of_all (hall c.toNat hcontrol)

theorem quoted_no_control (text : List Char) : ∀ a ∈ quoted text, 32 ≤ a.toNat := by
  intro a ha
  simp only [quoted, List.mem_append, List.mem_cons, List.mem_flatMap, List.not_mem_nil,
    or_false] at ha
  rcases ha with (rfl | ⟨c, -, hc⟩) | rfl
  · decide
  · exact (written_escape c).no_control a hc
  · decide

end MicroLisp.Json
