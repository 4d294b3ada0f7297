import Chip8.Display.Basic

/-!
# The display as text

A dump of the display has a line for each row, a mark for each white pixel and
a blank for each black one.

Results:

* `ofMark_mark`: the colour of a pixel can be read back from its mark.
* `length_line`: a line has a character for each column and one for its end.
-/

namespace Chip8

namespace Color

/-- The character that stands for a pixel. -/
def mark : Color → Char
  | .white => '#'
  | .black => ' '

/-- The colour that a character stands for. -/
def ofMark : Char → Option Color
  | '#' => some .white
  | ' ' => some .black
  | _ => none

@[simp] theorem ofMark_mark (c : Color) : ofMark c.mark = some c := by cases c <;> rfl

end Color

namespace Display

/-- The colours of a row, from left to right. -/
def row (g : Display) (y : Fin displayHeight) : List Color :=
  (List.finRange displayWidth).map fun x => g.get ⟨x, y⟩

/-- The rows, from the top down. -/
def rows (g : Display) : List (List Color) := (List.finRange displayHeight).map g.row

/-- The characters of a row, closed by the end of the line. -/
def line (g : Display) (y : Fin displayHeight) : List Char := (g.row y).map Color.mark ++ ['\n']

/-- The dump of the display. -/
def render (g : Display) : List Char := (List.finRange displayHeight).flatMap g.line

@[simp] theorem length_row (g : Display) (y : Fin displayHeight) :
    (g.row y).length = displayWidth := by simp [row]

@[simp] theorem length_line (g : Display) (y : Fin displayHeight) :
    (g.line y).length = displayWidth + 1 := by simp [line]

end Display

end Chip8
