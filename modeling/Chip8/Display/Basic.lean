/-!
# The display

64 by 32 pixels, each black or white. `Pixel` is the type of the coordinates
that exist, so that inside the machine no access can miss the display; access
from outside by any two numbers goes through `Pixel.at?`.

Results:

* `Pixel.index_inj`: the row-major position tells all pixels apart.
* `get_blank`, `get_set`, `get_flip`: what each operation does to each pixel.
-/

namespace Chip8

/-- The colour of a pixel. -/
inductive Color where
  | black
  | white
deriving DecidableEq, Repr, Inhabited

namespace Color

/-- The other colour. -/
def invert : Color → Color
  | black => white
  | white => black

@[simp] theorem invert_invert (c : Color) : c.invert.invert = c := by cases c <;> rfl

end Color

/-- The number of pixels of a row. -/
abbrev displayWidth : Nat := 64

/-- The number of rows. -/
abbrev displayHeight : Nat := 32

/-- A column and a row that exist, counted from the upper left corner. -/
@[ext] structure Pixel where
  x : Fin displayWidth
  y : Fin displayHeight
deriving DecidableEq, Repr

/-- Coordinates at which there is no pixel. -/
structure OutsideDisplay where
  x : Nat
  y : Nat
deriving DecidableEq, Repr

/-- The text that reports the use of such coordinates. -/
def OutsideDisplay.message (p : OutsideDisplay) : String :=
  s!"Pixel ({p.x}, {p.y}) is outside of the display"

namespace Pixel

/-- The pixel at any two numbers, if there is one. -/
def at? (x y : Nat) : Except OutsideDisplay Pixel :=
  if h : x < displayWidth ∧ y < displayHeight then .ok ⟨⟨x, h.1⟩, ⟨y, h.2⟩⟩
  else .error ⟨x, y⟩

/-- The position of the pixel when rows are laid end to end. -/
def index (p : Pixel) : Fin (displayWidth * displayHeight) :=
  ⟨p.x.val + displayWidth * p.y.val, by
    have := p.x.isLt
    have := p.y.isLt
    simp only [displayWidth, displayHeight] at *
    omega⟩

/-- No two pixels share a place in the list of colors. -/
theorem index_inj {p q : Pixel} : p.index = q.index ↔ p = q := by
  refine ⟨fun h => ?_, fun h => h ▸ rfl⟩
  have hp := p.x.isLt
  have hq := q.x.isLt
  simp only [index, Fin.mk.injEq, displayWidth] at h hp hq
  ext <;> omega

end Pixel

/-- A colour for each pixel. -/
structure Display where
  pixels : Vector Color (displayWidth * displayHeight)
deriving DecidableEq

namespace Display

/-- The colour of the display of a fresh machine. -/
def background : Color := .black

/-- The display on which every pixel has the background colour. -/
def blank : Display := ⟨Vector.replicate _ background⟩

/-- The colour of a pixel. -/
def get (g : Display) (p : Pixel) : Color := g.pixels[p.index]

/-- The display with one pixel coloured. -/
def set (g : Display) (p : Pixel) (c : Color) : Display :=
  ⟨g.pixels.set p.index.val c p.index.isLt⟩

/-- The display with one pixel inverted. -/
def flip (g : Display) (p : Pixel) : Display := g.set p (g.get p).invert

/-! ## Access by any two numbers -/

/-- The colour at the coordinates. -/
def getAt (g : Display) (x y : Nat) : Except OutsideDisplay Color := do
  return g.get (← Pixel.at? x y)

/-- Colours the pixel at the coordinates. -/
def setAt (g : Display) (x y : Nat) (c : Color) : Except OutsideDisplay Display := do
  return g.set (← Pixel.at? x y) c

/-- Inverts the pixel at the coordinates, and tells whether that turned it off. -/
def flipAt (g : Display) (x y : Nat) : Except OutsideDisplay (Display × Bool) := do
  let p ← Pixel.at? x y
  return (g.flip p, g.get p == .white)

/-! ## Laws -/

theorem ext_get {g g' : Display} (h : ∀ p, g.get p = g'.get p) : g = g' := by
  obtain ⟨v⟩ := g
  obtain ⟨w⟩ := g'
  congr 1
  apply Vector.ext
  intro i hi
  have hx : i % displayWidth < displayWidth := Nat.mod_lt _ (by decide)
  have hy : i / displayWidth < displayHeight := by
    simp only [displayWidth, displayHeight] at *
    omega
  have := h ⟨⟨i % displayWidth, hx⟩, ⟨i / displayWidth, hy⟩⟩
  simpa [get, Pixel.index, Nat.mod_add_div] using this

@[simp] theorem get_blank (p : Pixel) : blank.get p = background := by
  simp [get, blank]

theorem get_set (g : Display) (p q : Pixel) (c : Color) :
    (g.set p c).get q = if p = q then c else g.get q := by
  simp only [get, set, Fin.getElem_fin, Vector.getElem_set]
  by_cases h : p = q
  · simp [h]
  · have : p.index.val ≠ q.index.val := fun e => h (Pixel.index_inj.mp (Fin.ext e))
    simp [h, this]

theorem get_flip (g : Display) (p q : Pixel) :
    (g.flip p).get q = if p = q then (g.get q).invert else g.get q := by
  rw [flip, get_set]
  split
  · next h => rw [h]
  · rfl

end Display

end Chip8
