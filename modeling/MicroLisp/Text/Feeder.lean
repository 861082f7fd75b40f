/-!
# Line feeder

Hands out the lines of a text, front to back, each as a stack of characters.  A text is
split at its newlines, which are put back when a line is handed out.
-/

namespace MicroLisp

structure Feeder where
  /-- The lines not yet handed out, without their newlines, the last one first. -/
  lines : Array (List Char)

namespace Feeder

def ofText (text : List Char) : Feeder := ⟨(text.splitOn '\n').toArray.reverse⟩

/-- Number of lines not yet handed out. -/
def remaining (f : Feeder) : Nat := f.lines.size

/-- The next line as a stack: its first character stands last.  Every line except the final one gets
its newline back. -/
def next (f : Feeder) : Option (List Char) × Feeder :=
  match f.lines.back? with
  | none => (none, f)
  | some line =>
    let lines := f.lines.pop
    let chars := if lines.isEmpty then line else line ++ ['\n']
    (some chars.reverse, ⟨lines⟩)

end Feeder
end MicroLisp
