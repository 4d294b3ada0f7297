import Chip8.Display.Basic

/-!
# Sprites

A sprite is a list of bytes, one for each row of eight pixels, the leftmost
pixel in the most significant bit. Drawing it inverts the pixels that its set
bits fall on; what becomes of a bit beyond the edge is said by an `EdgeRule`.

Results:

* `get_blit`: drawing inverts a pixel once for each time it occurs in the list.
* `blit_collides_iff`: where no pixel occurs twice, drawing reports a collision
  iff some drawn pixel was white.
-/

namespace Chip8

/-- What becomes of the part of a sprite that lies beyond the right or the lower edge. -/
inductive EdgeRule where
  /-- It appears at the opposite edge. -/
  | wrap
  /-- It is not drawn. -/
  | clip
deriving DecidableEq, Repr

/-- The pixel that the coordinates fall on, if any. -/
def EdgeRule.place : EdgeRule → Nat → Nat → Option Pixel
  | .wrap, x, y => some ⟨Fin.ofNat displayWidth x, Fin.ofNat displayHeight y⟩
  | .clip, x, y => (Pixel.at? x y).toOption

namespace Sprite

/-- The number of pixels of a row of a sprite. -/
abbrev width : Nat := 8

/-- Whether the row of a sprite is set at a column, counted from the left. -/
def isSet (row : UInt8) (column : Nat) : Bool := row.toNat.testBit (7 - column)

/-- The origin of a sprite drawn at any two bytes: the display repeats itself in both directions. -/
def origin (x y : UInt8) : Pixel :=
  ⟨Fin.ofNat displayWidth x.toNat, Fin.ofNat displayHeight y.toNat⟩

/-- The pixels that the set bits of one row fall on, `y` being the row of the display. -/
def rowPixels (edge : EdgeRule) (x y : Nat) (row : UInt8) : List Pixel :=
  (List.range width).filterMap fun column =>
    if isSet row column then edge.place (x + column) y else none

/-- The pixels that the set bits of all rows fall on, the first row being drawn at row `y`. -/
def pixels (edge : EdgeRule) (x y : Nat) : List UInt8 → List Pixel
  | [] => []
  | row :: rows => rowPixels edge x y row ++ pixels edge x (y + 1) rows

end Sprite

namespace Display

/-- Inverts the pixels one after the other, and tells whether some pixel was turned off. -/
def blit (g : Display) : List Pixel → Display × Bool
  | [] => (g, false)
  | p :: ps =>
    let rest := (g.flip p).blit ps
    (rest.1, g.get p == .white || rest.2)

/-- Draws a sprite with its upper left corner at a pixel. -/
def draw (g : Display) (edge : EdgeRule) (corner : Pixel) (rows : List UInt8) : Display × Bool :=
  g.blit (Sprite.pixels edge corner.x.val corner.y.val rows)

/-- A pixel that is inverted an even number of times is what it was. -/
theorem get_blit (g : Display) (ps : List Pixel) (q : Pixel) :
    (g.blit ps).1.get q =
      if ps.count q % 2 = 1 then (g.get q).invert else g.get q := by
  induction ps generalizing g with
  | nil => simp [blit]
  | cons p ps ih =>
    rw [blit, ih, get_flip, List.count_cons]
    by_cases h : p = q
    · subst h
      have : (ps.count p + 1) % 2 = 1 ↔ ¬ ps.count p % 2 = 1 := by omega
      by_cases hc : ps.count p % 2 = 1 <;> simp [this, hc]
    · simp [h]

/-- A sprite collides iff one of its pixels was white; none of them comes twice, so none can turn
    white on the way. -/
theorem blit_collides_iff (g : Display) {ps : List Pixel} (h : ps.Nodup) :
    (g.blit ps).2 = true ↔ ∃ p ∈ ps, g.get p = .white := by
  induction ps generalizing g with
  | nil => simp [blit]
  | cons p ps ih =>
    obtain ⟨hp, hps⟩ := List.nodup_cons.mp h
    have same : ∀ q ∈ ps, (g.flip p).get q = g.get q := by
      intro q hq
      rw [get_flip, if_neg]
      rintro rfl
      exact hp hq
    simp only [blit, Bool.or_eq_true, beq_iff_eq, ih _ hps, List.mem_cons, exists_eq_or_imp]
    refine or_congr_right (exists_congr fun q => and_congr_right fun hq => ?_)
    rw [same q hq]

end Display

end Chip8
