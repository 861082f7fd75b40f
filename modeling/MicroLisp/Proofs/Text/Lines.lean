import Mathlib.Algebra.GroupWithZero.Nat
import MicroLisp.Proofs.Text.Position
import MicroLisp.Text.Lines

/-!
# A text cut into lines

The lines of a text are a cut: every line but the last one ends in its only
newline, and the last one holds none (`Cut`).  Hence the waiting lines of a text
are its lines by number (`line_ofText`), and any nonempty end of a line that
others follow holds exactly one newline, which is what keeps line numbers right
while a line is consumed.
-/

namespace MicroLisp.Lines
open Text

/-- Lines as a text is cut into them. -/
inductive Cut : List (List Char) → Prop
  | last {l : List Char} : '\n' ∉ l → Cut [l]
  | more {l : List Char} {ls : List (List Char)} : '\n' ∉ l → Cut ls → Cut ((l ++ ['\n']) :: ls)

theorem Cut.ne_nil {ls : List (List Char)} (h : Cut ls) : ls ≠ [] := by
  cases h with
  | last hl => simp
  | more hl hls => simp

theorem cut_extend (c : Char) {ls : List (List Char)} (h : Cut ls) : Cut (extend c ls) := by
  by_cases hc : c = '\n'
  · have hnew : extend c ls = ([] ++ ['\n']) :: ls := by
      obtain ⟨l, rest, rfl⟩ := List.exists_cons_of_ne_nil h.ne_nil
      simp only [extend, hc, ↓reduceIte, List.nil_append]
    rw [hnew]
    exact Cut.more (by simp) h
  · have hmem : ∀ {l : List Char}, '\n' ∉ l → '\n' ∉ c :: l := by
      intro l hl hmem
      rcases List.mem_cons.mp hmem with heq | htail
      · exact hc heq.symm
      · exact hl htail
    cases h with
    | last hl =>
      simp only [extend, hc, ↓reduceIte]
      exact Cut.last (hmem hl)
    | more hl hls =>
      simp only [extend, hc, ↓reduceIte]
      exact Cut.more (hmem hl) hls

theorem cut_ofText (text : List Char) : Cut (ofText text).waiting := by
  induction text with
  | nil => exact Cut.last (by simp)
  | cons c text ih => exact cut_extend c ih

theorem Cut.of_suffix {ls rest : List (List Char)} (h : Cut ls) (hs : rest <:+ ls)
    (hne : rest ≠ []) : Cut rest := by
  induction h with
  | last hl =>
    rcases List.suffix_cons_iff.mp hs with heq | htail
    · exact heq ▸ Cut.last hl
    · exact absurd (List.suffix_nil.mp htail) hne
  | more hl hls ih =>
    rcases List.suffix_cons_iff.mp hs with heq | htail
    · exact heq ▸ Cut.more hl hls
    · exact ih htail

theorem Cut.eq_nil_of_nil_cons {ls : List (List Char)} (h : Cut ([] :: ls)) : ls = [] := by
  generalize hlines : [] :: ls = lines at h
  cases h with
  | last hl => exact (List.cons.inj hlines).2
  | more hl hls => exact absurd (List.cons.inj hlines).1 (by simp)

/-! ### Newlines in a cut -/

theorem Cut.count_flatten {ls : List (List Char)} (h : Cut ls) :
    ls.flatten.count '\n' + 1 = ls.length := by
  induction h with
  | last hl => simp [List.count_eq_zero.mpr hl]
  | more hl hls ih =>
    simp only [List.flatten_cons, List.count_append, List.count_eq_zero.mpr hl, List.length_cons,
      List.count_singleton_self]
    omega

theorem end_of_line {l e : List Char} (hl : '\n' ∉ l) (he : e <:+ l ++ ['\n']) (hne : e ≠ []) :
    ∃ front, e = front ++ ['\n'] ∧ '\n' ∉ front := by
  obtain ⟨front, last, rfl⟩ := (List.eq_nil_or_concat e).resolve_left hne
  rw [List.concat_eq_append] at he ⊢
  obtain ⟨before, hb⟩ := he
  rw [← List.append_assoc] at hb
  obtain ⟨hfront, hlast⟩ := List.append_inj' hb rfl
  obtain rfl : last = '\n' := by simpa using hlast
  refine ⟨front, rfl, ?_⟩
  intro hmem
  exact hl (hfront ▸ List.mem_append_right before hmem)

/-- A nonempty end of the first line holds a newline exactly if another line follows. -/
theorem Cut.count_end {l e : List Char} {ls : List (List Char)} (h : Cut (l :: ls))
    (he : e <:+ l) (hne : e ≠ []) : e.count '\n' = if ls = [] then 0 else 1 := by
  cases h with
  | last hl =>
    have hmem : '\n' ∉ e := fun hmem => hl (he.subset hmem)
    simp [List.count_eq_zero.mpr hmem]
  | more hl hls =>
    obtain ⟨front, rfl, hfront⟩ := end_of_line hl he hne
    simp [hls.ne_nil, List.count_eq_zero.mpr hfront]

theorem Cut.behindLine_end {l e : List Char} {ls : List (List Char)} (h : Cut (l :: ls))
    (he : e <:+ l) (hne : e ≠ [] ∨ ls = []) : behindLine (e ++ ls.flatten) = ls.flatten := by
  cases h with
  | last hl =>
    have hmem : '\n' ∉ e := fun hmem => hl (he.subset hmem)
    rw [List.flatten_nil, List.append_nil, behindLine_of_not_mem hmem]
  | more hl hls =>
    obtain ⟨front, rfl, hfront⟩ := end_of_line hl he (hne.resolve_right hls.ne_nil)
    rw [List.append_assoc, List.singleton_append, behindLine_append_newline hfront]

/-! ### Lines of a cut -/

theorem Cut.getElem? {ls : List (List Char)} (h : Cut ls) {n : Nat} (hn : n + 1 < ls.length) :
    ∃ l, ls[n]? = some (l ++ ['\n']) ∧ '\n' ∉ l := by
  induction h generalizing n with
  | last hl => simp at hn
  | @more l ls hl hls ih =>
    cases n with
    | zero => exact ⟨l, rfl, hl⟩
    | succ n =>
      rw [List.getElem?_cons_succ]
      exact ih (Nat.lt_of_succ_lt_succ hn)

/-- The last line is empty if nothing stands behind the last newline. -/
theorem Cut.getLast? {ls : List (List Char)} (h : Cut ls) :
    ∃ l, ls.getLast? = some l ∧ '\n' ∉ l ∧
      (l = [] ↔ ls.flatten = [] ∨ ls.flatten.getLast? = some '\n') := by
  induction h with
  | @last l hl =>
    have hlast : l.getLast? ≠ some '\n' := fun h => hl (List.mem_of_getLast? h)
    exact ⟨l, rfl, hl, by simp [hlast]⟩
  | @more l ls hl hls ih =>
    obtain ⟨last, hlast, hmem, hempty⟩ := ih
    refine ⟨last, ?_, hmem, ?_⟩
    · rw [List.getLast?_cons, hlast]
      rfl
    · rw [hempty, List.flatten_cons, List.getLast?_append]
      cases hflat : ls.flatten with
      | nil => simp
      | cons c cs => simp [List.getLast?_cons]

theorem Cut.eq_of_flatten {ls : List (List Char)} (h : Cut ls) (hnil : ls.flatten = []) :
    ls = [[]] := by
  cases h with
  | last hl => simpa using hnil
  | more hl hls => simp at hnil

/-! ### Lines by number -/

theorem remaining_ofText (text : List Char) : (ofText text).remaining = lineCount text := by
  have h := (cut_ofText text).count_flatten
  have htext : (ofText text).waiting.flatten = text := text_ofText text
  rw [htext] at h
  rw [remaining, lineCount, ← h, Nat.add_comm]

theorem Cut.line_flatten {ls : List (List Char)} (h : Cut ls) (n : Nat) :
    line ls.flatten (n + 1) = (ls[n]?).getD [] := by
  induction h generalizing n with
  | @last l hl =>
    cases n with
    | zero => simp [line, firstLine_of_not_mem hl]
    | succ n => simp [line, behindLine_of_not_mem hl, line_nil]
  | @more l ls hl hls ih =>
    have hflat : ((l ++ ['\n']) :: ls).flatten = l ++ '\n' :: ls.flatten := by simp
    rw [hflat]
    cases n with
    | zero => simp [line, firstLine_append_newline hl]
    | succ n =>
      rw [line, behindLine_append_newline hl, ih, List.getElem?_cons_succ]

theorem Cut.behindLines_flatten {ls : List (List Char)} (h : Cut ls) (n : Nat) :
    behindLines ls.flatten n = (ls.drop n).flatten := by
  induction h generalizing n with
  | @last l hl =>
    cases n with
    | zero => rfl
    | succ n =>
      rw [List.flatten_singleton, behindLines, behindLine_of_not_mem hl, behindLines_nil,
        List.drop_succ_cons, List.drop_nil, List.flatten_nil]
  | @more l ls hl hls ih =>
    cases n with
    | zero => rfl
    | succ n =>
      have hflat : ((l ++ ['\n']) :: ls).flatten = l ++ '\n' :: ls.flatten := by simp
      rw [hflat, behindLines, behindLine_append_newline hl, ih, List.drop_succ_cons]

theorem line_ofText (text : List Char) (n : Nat) :
    line text (n + 1) = ((ofText text).waiting[n]?).getD [] := by
  have h := (cut_ofText text).line_flatten n
  have htext : (ofText text).waiting.flatten = text := text_ofText text
  rwa [htext] at h

theorem waiting_ofText (text : List Char) :
    (ofText text).waiting = (List.range (lineCount text)).map fun k => line text (k + 1) := by
  have hlength : (ofText text).waiting.length = lineCount text := remaining_ofText text
  apply List.ext_getElem
  · rw [hlength, List.length_map, List.length_range]
  · intro k hk _
    rw [List.getElem_map, List.getElem_range, line_ofText, List.getElem?_eq_getElem hk]
    rfl

theorem sum_length_lines (text : List Char) :
    ((List.range (lineCount text)).map fun k => (line text (k + 1)).length).sum = text.length := by
  have htext : (ofText text).waiting.flatten = text := text_ofText text
  rw [waiting_ofText] at htext
  have hlength := congrArg List.length htext
  rwa [List.length_flatten, List.map_map] at hlength

end MicroLisp.Lines
