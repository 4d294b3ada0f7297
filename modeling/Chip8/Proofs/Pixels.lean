import Chip8.Command
import Chip8.Display.Basic

/-!
# Pixels and coordinates

From outside, a display is read and changed at any two numbers. Where there is a pixel,
its colour follows from the changes at just these coordinates and from the calls that
clear the whole display; all other changes might as well not have been made. Where there
is none, every access is refused, though the position of the coordinates among the pixels
may be that of a pixel elsewhere.

Results:

* `run_perform_of_outside`: what is refused changes nothing.
* `get_afterChange`: what one change does to each pixel.
* `get_afterChanges`: so a pixel shows what the changes at its own coordinates left there.
* `pixels_kept_apart`: all of this, for any changes of a fresh display.
-/

namespace Chip8

/-- A change of a display, at coordinates that may be any numbers. -/
inductive Change where
  | paint (color : Color) (x y : Nat)
  | invert (x y : Nat)
  | clear
deriving DecidableEq, Repr

namespace Change

/-- The coordinates at which a display is changed, if not everywhere. -/
def place? : Change → Option (Nat × Nat)
  | .paint _ x y => some (x, y)
  | .invert x y => some (x, y)
  | .clear => none

/-- Makes the change, and tells of an inversion whether it turned the pixel off. -/
def perform : Change → EStateM OutsideDisplay Display (Option Bool)
  | .paint color x y => do
    set (← ofExcept ((← get).setAt x y color))
    return none
  | .invert x y => do
    let (inverted, turnedOff) ← ofExcept ((← get).flipAt x y)
    set inverted
    return some turnedOff
  | .clear => do
    set Display.blank
    return none

/-- Whether a change is made at the coordinates, if not everywhere. -/
def concerns (x y : Nat) (c : Change) : Bool := c.place?.all (· = (x, y))

/-- The colour of a pixel after a change that concerns it. -/
def recolor (old : Color) : Change → Color
  | .paint color _ _ => color
  | .invert _ _ => old.invert
  | .clear => .black

/-- What is left of black by the changes that concern the coordinates, made in order. -/
def replay (x y : Nat) (changes : List Change) : Color :=
  (changes.filter (concerns x y)).foldl recolor .black

theorem eq_clear_of_place {c : Change} (nowhere : c.place? = none) : c = .clear := by
  cases c with
  | paint color x y => cases nowhere
  | invert x y => cases nowhere
  | clear => rfl

theorem concerns_iff {c : Change} {x y x' y' : Nat} (place : c.place? = some (x', y')) :
    c.concerns x y = true ↔ x' = x ∧ y' = y := by
  rw [concerns, place, Option.all_some, decide_eq_true_iff, Prod.mk.injEq]

end Change

/-! ## Coordinates -/

namespace Pixel

theorem exists_of_inside {x y : Nat} (inside : x < displayWidth ∧ y < displayHeight) :
    ∃ p : Pixel, p.x.val = x ∧ p.y.val = y := ⟨⟨⟨x, inside.1⟩, ⟨y, inside.2⟩⟩, rfl, rfl⟩

theorem at?_of_inside (p : Pixel) : at? p.x.val p.y.val = .ok p := dif_pos ⟨p.x.isLt, p.y.isLt⟩

theorem at?_of_outside {x y : Nat} (outside : ¬ (x < displayWidth ∧ y < displayHeight)) :
    at? x y = .error ⟨x, y⟩ := dif_neg outside

end Pixel

namespace Display

variable {g : Display} {c : Change} {x y : Nat}

theorem getAt_of_inside (g : Display) (p : Pixel) : g.getAt p.x.val p.y.val = .ok (g.get p) := by
  rw [getAt, p.at?_of_inside]
  rfl

theorem getAt_of_outside (outside : ¬ (x < displayWidth ∧ y < displayHeight)) (g : Display) :
    g.getAt x y = .error ⟨x, y⟩ := by
  rw [getAt, Pixel.at?_of_outside outside]
  rfl

theorem getElem?_pixels (g : Display) (p : Pixel) :
    g.pixels.toList[p.x.val + 64 * p.y.val]? = some (g.get p) := by
  rw [Vector.getElem?_toList]
  exact Vector.getElem?_eq_getElem p.index.isLt

/-! ## One change -/

theorem run_paint (g : Display) (color : Color) (p : Pixel) :
    (Change.paint color p.x.val p.y.val).perform.run g = .ok none (g.set p color) := by
  have painted : g.setAt p.x.val p.y.val color = .ok (g.set p color) := by
    rw [setAt, p.at?_of_inside]
    rfl
  rw [Change.perform, run_get_bind, painted]
  rfl

theorem run_invert (g : Display) (p : Pixel) :
    (Change.invert p.x.val p.y.val).perform.run g = .ok (some (g.get p == .white)) (g.flip p) := by
  have inverted : g.flipAt p.x.val p.y.val = .ok (g.flip p, g.get p == .white) := by
    rw [flipAt, p.at?_of_inside]
    rfl
  rw [Change.perform, run_get_bind, inverted]
  rfl

/-- A place outside of the display is refused, and nothing is painted. -/
theorem run_perform_of_outside (place : c.place? = some (x, y))
    (outside : ¬ (x < displayWidth ∧ y < displayHeight)) (g : Display) :
    c.perform.run g = .error ⟨x, y⟩ g := by
  cases c with
  | paint color x' y' =>
    cases place
    rw [Change.perform, run_get_bind, setAt, Pixel.at?_of_outside outside]
    rfl
  | invert x' y' =>
    cases place
    rw [Change.perform, run_get_bind, flipAt, Pixel.at?_of_outside outside]
    rfl
  | clear => cases place

/-- The display after a change, which may have been refused. -/
def afterChange (g : Display) (c : Change) : Display :=
  match c.perform.run g with
  | .ok _ left => left
  | .error _ left => left

theorem afterChange_of_pixel {p : Pixel} (place : c.place? = some (p.x.val, p.y.val))
    (g : Display) : g.afterChange c = g.set p (c.recolor (g.get p)) := by
  cases c with
  | paint color x y =>
    cases place
    rw [afterChange, run_paint]
    rfl
  | invert x y =>
    cases place
    rw [afterChange, run_invert]
    rfl
  | clear => cases place

theorem get_afterChange (g : Display) (c : Change) (p : Pixel) :
    (g.afterChange c).get p =
      if c.concerns p.x.val p.y.val then c.recolor (g.get p) else g.get p := by
  cases place : c.place? with
  | none =>
    obtain rfl := Change.eq_clear_of_place place
    exact get_blank p
  | some coordinates =>
    obtain ⟨x, y⟩ := coordinates
    simp only [Change.concerns_iff place]
    by_cases inside : x < displayWidth ∧ y < displayHeight
    · obtain ⟨q, rfl, rfl⟩ := Pixel.exists_of_inside inside
      simp only [afterChange_of_pixel place, get_set, ← Fin.ext_iff, ← Pixel.ext_iff]
      split
      · next here => rw [here]
      · rfl
    · have elsewhere : ¬ (x = p.x.val ∧ y = p.y.val) := by
        rintro ⟨rfl, rfl⟩
        exact inside ⟨p.x.isLt, p.y.isLt⟩
      rw [afterChange, run_perform_of_outside place inside, if_neg elsewhere]

/-! ## Many changes -/

/-- The display after all changes of a list, the first one first. -/
def afterChanges (g : Display) (changes : List Change) : Display := changes.foldl afterChange g

/-- A pixel is what the changes that concern it have made of it, in their order. -/
theorem get_afterChanges (g : Display) (changes : List Change) (p : Pixel) :
    (g.afterChanges changes).get p =
      (changes.filter (Change.concerns p.x.val p.y.val)).foldl Change.recolor (g.get p) := by
  induction changes generalizing g with
  | nil => rfl
  | cons c changes ih =>
    rw [afterChanges, List.foldl_cons, ← afterChanges, ih, get_afterChange, List.filter_cons]
    split <;> rfl

theorem get_afterChanges_blank (changes : List Change) (p : Pixel) :
    (blank.afterChanges changes).get p = Change.replay p.x.val p.y.val changes := by
  rw [get_afterChanges, get_blank]
  rfl

/-- Changes at other coordinates make no difference to what is read at some. -/
theorem getAt_afterChange_of_apart {x' y' : Nat} (place : c.place? = some (x', y'))
    (apart : (x, y) ≠ (x', y')) (g : Display) : (g.afterChange c).getAt x y = g.getAt x y := by
  by_cases inside : x < displayWidth ∧ y < displayHeight
  · obtain ⟨p, rfl, rfl⟩ := Pixel.exists_of_inside inside
    have elsewhere : ¬ c.concerns p.x.val p.y.val := by
      rw [Change.concerns_iff place]
      rintro ⟨rfl, rfl⟩
      exact apart rfl
    rw [getAt_of_inside, getAt_of_inside, get_afterChange, if_neg elsewhere]
  · rw [getAt_of_outside inside, getAt_of_outside inside]

/-- After any changes of a fresh display, each pixel has the colour that the changes at its own
    coordinates and those of the whole display leave of black; it is read there, it is listed in its
    place, and an inversion finds it. At coordinates without a pixel nothing is read, and every
    change is refused and leaves the display as it was. So no coordinates are those of another
    pixel. -/
theorem pixels_kept_apart (changes : List Change) :
    let g := Display.blank.afterChanges changes
    (∀ x y, x < 64 → y < 32 →
      g.getAt x y = .ok (Change.replay x y changes) ∧
      g.pixels.toList[x + 64 * y]? = some (Change.replay x y changes) ∧
      ∃ left, (Change.invert x y).perform.run g =
        .ok (some (Change.replay x y changes == .white)) left) ∧
    g.pixels.toList.length = 64 * 32 ∧
    (∀ x y, ¬ (x < 64 ∧ y < 32) →
      g.getAt x y = .error ⟨x, y⟩ ∧
      ∀ c : Change, c.place? = some (x, y) → c.perform.run g = .error ⟨x, y⟩ g) ∧
    ∀ (c : Change) (x y x' y' : Nat), c.place? = some (x', y') → (x, y) ≠ (x', y') →
      (g.afterChange c).getAt x y = g.getAt x y := by
  intro g
  refine ⟨?_, Vector.length_toList, ?_, ?_⟩
  · intro x y x_lt y_lt
    obtain ⟨p, rfl, rfl⟩ := Pixel.exists_of_inside ⟨x_lt, y_lt⟩
    rw [← get_afterChanges_blank]
    exact ⟨g.getAt_of_inside p, g.getElem?_pixels p, g.flip p, g.run_invert p⟩
  · intro x y outside
    exact ⟨getAt_of_outside outside g, fun c place => run_perform_of_outside place outside g⟩
  · intro c x y x' y' place apart
    exact getAt_afterChange_of_apart place apart g

/-- One pixel is painted, another inverted twice, and in between the coordinates behind the end of a
    row are refused, though the pixel below is white. -/
theorem pixels_kept_apart_by_row_end :
    let g := Display.blank.afterChanges [.paint .white 5 5, .invert 0 1, .clear, .invert 63 31,
      .invert 0 1, .paint .black 64 0, .paint .black 63 31]
    g.getAt 0 1 = .ok .white ∧ g.pixels.toList[0 + 64 * 1]? = some .white ∧
      (∃ left, (Change.invert 0 1).perform.run g = .ok (some true) left) ∧
      g.getAt 5 5 = .ok .black ∧
      g.getAt 64 0 = .error ⟨64, 0⟩ ∧
      (Change.paint .black 64 0).perform.run g = .error ⟨64, 0⟩ g ∧
      (g.afterChange (.paint .black 64 0)).getAt 0 1 = g.getAt 0 1 := by
  obtain ⟨inside, -, outside, apart⟩ := pixels_kept_apart [.paint .white 5 5, .invert 0 1, .clear,
    .invert 63 31, .invert 0 1, .paint .black 64 0, .paint .black 63 31]
  obtain ⟨read, listed, inverted⟩ := inside 0 1 (by decide) (by decide)
  have cleared := (inside 5 5 (by decide) (by decide)).1
  obtain ⟨unread, refused⟩ := outside 64 0 (by decide)
  exact ⟨read, listed, inverted, cleared, unread, refused (.paint .black 64 0) rfl,
    apart (.paint .black 64 0) 0 1 64 0 rfl (by decide)⟩

end Display

end Chip8
