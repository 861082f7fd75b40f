import Mathlib.Logic.Function.Iterate
import MicroLisp.Proofs.Lexer.Calls

/-!
# A run is the flat scan, position by position

Reading a text token by token, on behind errors too, gives the answers of the flat
scanner and leaves its positions, however the text is cut into lines
(`reads_follow_scanAt`).
-/

namespace MicroLisp.Lexer
open Text

/-- The run behind `n` calls of `read`. -/
def afterReads (l : Lexer) (n : Nat) : Lexer := (fun m => m.read.2)^[n] l

/-- The position of the flat scanner behind `n` answers. -/
def scanPosition (text : List Char) (n : Nat) : Nat := (fun p => (scanAt text p).2)^[n] 0

theorem afterReads_succ (l : Lexer) (n : Nat) : l.afterReads (n + 1) = (l.afterReads n).read.2 :=
  Function.iterate_succ_apply' _ n l

theorem scanPosition_succ (text : List Char) (n : Nat) :
    scanPosition text (n + 1) = (scanAt text (scanPosition text n)).2 :=
  Function.iterate_succ_apply' _ n 0

theorem scanAt_le (text : List Char) (p : Nat) : (scanAt text p).2 ≤ text.length :=
  startOf_le _ _

theorem read_eq_scanAt {text : List Char} {l : Lexer} {p : Nat} (h : l.cursor.Within text)
    (hp : l.cursor.content = text.drop p) :
    l.read.1 = (scanAt text p).1 ∧ l.read.2.cursor.content = text.drop (scanAt text p).2 := by
  obtain ⟨hanswer, hrest, -⟩ := h.readToken_eq
  rw [hp] at hanswer hrest
  have hsuffix : (scan (text.drop p)).rest <:+ text :=
    (rest_scan_suffix (text.drop p)).trans (List.drop_suffix p text)
  refine ⟨hanswer, ?_⟩
  show l.cursor.readToken.2.content = text.drop (startOf text (scan (text.drop p)).rest)
  rw [drop_startOf hsuffix, hrest]

theorem within_afterReads (text : String) (n : Nat) :
    ((ofText text).afterReads n).cursor.Within text.toList := by
  induction n with
  | zero => exact Cursor.within_start text.toList []
  | succ n ih =>
    rw [afterReads_succ]
    exact (Cursor.kept_within text.toList).readToken ih

theorem content_afterReads (text : String) (n : Nat) :
    ((ofText text).afterReads n).cursor.content =
      text.toList.drop (scanPosition text.toList n) := by
  induction n with
  | zero => exact Cursor.content_start text.toList []
  | succ n ih =>
    rw [afterReads_succ, scanPosition_succ]
    exact (read_eq_scanAt (within_afterReads text n) ih).2

theorem scanPosition_le (text : List Char) (n : Nat) : scanPosition text n ≤ text.length := by
  cases n with
  | zero => exact Nat.zero_le _
  | succ n =>
    rw [scanPosition_succ]
    exact scanAt_le text _

/-- Behind any number of calls, errors included, the run has left unread what stands behind the
position of the flat scanner, and the next call answers what the flat scanner finds there and
leaves the position that the flat scanner leaves. -/
theorem reads_follow_scanAt (text : String) (n : Nat) :
    let l := (ofText text).afterReads n
    let p := scanPosition text.toList n
    p ≤ text.toList.length ∧
      l.cursor.content = text.toList.drop p ∧
      l.read.1 = (scanAt text.toList p).1 ∧
      (scanAt text.toList p).2 ≤ text.toList.length ∧
      l.read.2.cursor.content = text.toList.drop (scanAt text.toList p).2 := by
  intro l p
  have hcontent : l.cursor.content = text.toList.drop p := content_afterReads text n
  obtain ⟨hanswer, hrest⟩ := read_eq_scanAt (within_afterReads text n) hcontent
  exact ⟨scanPosition_le text.toList n, hcontent, hanswer, scanAt_le text.toList p, hrest⟩

end MicroLisp.Lexer
