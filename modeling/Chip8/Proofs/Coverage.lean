import Chip8.Display.Sprite
import Mathlib.Data.List.Nodup

/-!
# The pixels that a sprite covers

A sprite covers a pixel if one of its set bits falls on it. No two bits of a sprite
fall on the same pixel, also where the display repeats itself, because a sprite is
smaller than the display; so drawing a sprite inverts exactly what it covers.

Results:

* `place_eq_some_iff`, `mem_pixels_iff`: the pixels of a sprite are those it covers.
* `nodup_pixels`: a sprite has each of its pixels once.
* `get_draw`: drawing inverts the covered pixels and no other.
-/

namespace Chip8

/-! ## One bit -/

namespace EdgeRule

/-- Whether the coordinates fall on a pixel: after reduction to the display if it repeats itself,
    and as they are if it does not. -/
def Hits : EdgeRule → Nat → Nat → Pixel → Prop
  | .wrap, x, y, p => x % displayWidth = p.x.val ∧ y % displayHeight = p.y.val
  | .clip, x, y, p => x = p.x.val ∧ y = p.y.val

variable {edge : EdgeRule} {p : Pixel}

/-- Both rules for the edge in one relation between places, on the display or beyond it. -/
theorem place_eq_some_iff {x y : Nat} : edge.place x y = some p ↔ edge.Hits x y p := by
  cases edge with
  | wrap =>
    rw [place, Option.some.injEq, Pixel.ext_iff, Fin.ext_iff, Fin.ext_iff]
    rfl
  | clip =>
    rw [place, Pixel.at?, Hits]
    by_cases inside : x < displayWidth ∧ y < displayHeight
    · rw [dif_pos inside, Except.toOption, Option.some.injEq, Pixel.ext_iff, Fin.ext_iff,
        Fin.ext_iff]
    · rw [dif_neg inside]
      constructor
      · exact nofun
      · rintro ⟨rfl, rfl⟩
        exact absurd ⟨p.x.isLt, p.y.isLt⟩ inside

theorem Hits.column_inj {x c c' y y' : Nat} (h : edge.Hits (x + c) y p)
    (h' : edge.Hits (x + c') y' p) (lt : c < displayWidth) (lt' : c' < displayWidth) : c = c' := by
  cases edge with
  | wrap =>
    have same : (x + c) % 64 = (x + c') % 64 := h.1.trans h'.1.symm
    simp only [displayWidth] at lt lt'
    omega
  | clip => exact Nat.add_left_cancel (h.1.trans h'.1.symm)

theorem Hits.row_inj {y r r' x x' : Nat} (h : edge.Hits x (y + r) p)
    (h' : edge.Hits x' (y + r') p) (lt : r < displayHeight) (lt' : r' < displayHeight) :
    r = r' := by
  cases edge with
  | wrap =>
    have same : (y + r) % 32 = (y + r') % 32 := h.2.trans h'.2.symm
    simp only [displayHeight] at lt lt'
    omega
  | clip => exact Nat.add_left_cancel (h.2.trans h'.2.symm)

end EdgeRule

/-! ## All bits -/

namespace Sprite

variable {edge : EdgeRule} {x y : Nat} {row : UInt8} {rows : List UInt8} {p : Pixel}

/-- Whether a sprite whose upper left corner is at the coordinates covers a pixel. -/
def Covers (edge : EdgeRule) (x y : Nat) (rows : List UInt8) (p : Pixel) : Prop :=
  ∃ r row, rows[r]? = some row ∧
    ∃ c, c < width ∧ row.toNat.testBit (7 - c) = true ∧ edge.Hits (x + c) (y + r) p

theorem mem_rowPixels_iff :
    p ∈ rowPixels edge x y row ↔
      ∃ c, c < width ∧ row.toNat.testBit (7 - c) = true ∧ edge.Hits (x + c) y p := by
  rw [rowPixels, List.mem_filterMap]
  refine exists_congr fun c => ?_
  rw [List.mem_range, Option.ite_none_right_eq_some, EdgeRule.place_eq_some_iff, isSet]

theorem mem_pixels_iff : p ∈ pixels edge x y rows ↔ Covers edge x y rows p := by
  induction rows generalizing y with
  | nil => exact ⟨nofun, fun ⟨r, row, h, _⟩ => nomatch h⟩
  | cons first rows ih =>
    rw [pixels, List.mem_append, mem_rowPixels_iff, ih]
    constructor
    · rintro (covered | ⟨r, row, at_, covered⟩)
      · exact ⟨0, first, rfl, covered⟩
      · exact ⟨r + 1, row, at_, by rwa [Nat.add_right_comm] at covered⟩
    · rintro ⟨r, row, at_, covered⟩
      cases r with
      | zero =>
        cases at_
        exact .inl covered
      | succ r => exact .inr ⟨r, row, at_, by rwa [Nat.add_right_comm]⟩

/-- It can be told which pixels a sprite covers. -/
instance (edge : EdgeRule) (x y : Nat) (rows : List UInt8) : DecidablePred (Covers edge x y rows) :=
  fun _ => decidable_of_iff _ mem_pixels_iff

theorem nodup_rowPixels (edge : EdgeRule) (x y : Nat) (row : UInt8) :
    (rowPixels edge x y row).Nodup := by
  rw [rowPixels, List.Nodup, List.pairwise_filterMap]
  refine List.nodup_range.imp_of_mem ?_
  intro c c' mem mem' ne p hit p' hit'
  rintro rfl
  rw [Option.ite_none_right_eq_some, EdgeRule.place_eq_some_iff] at hit hit'
  rw [List.mem_range] at mem mem'
  have narrow : width ≤ displayWidth := by decide
  exact ne <| hit.2.column_inj hit'.2 (Nat.lt_of_lt_of_le mem narrow)
    (Nat.lt_of_lt_of_le mem' narrow)

/-- A sprite that is no higher than the display has each of its pixels once. -/
theorem nodup_pixels (edge : EdgeRule) (x y : Nat) (height : rows.length ≤ displayHeight) :
    (pixels edge x y rows).Nodup := by
  induction rows generalizing y with
  | nil => exact List.nodup_nil
  | cons first rows ih =>
    rw [List.length_cons] at height
    refine (nodup_rowPixels edge x y first).append (ih (y + 1) (Nat.le_of_succ_le height)) ?_
    intro p above below
    obtain ⟨c, -, -, hit⟩ := mem_rowPixels_iff.mp above
    obtain ⟨r, row, at_, c', -, -, hit'⟩ := mem_pixels_iff.mp below
    have lower : r < rows.length := (List.getElem?_eq_some_iff.mp at_).1
    rw [Nat.add_assoc] at hit'
    have : 0 = 1 + r := EdgeRule.Hits.row_inj (y := y) hit hit' (by decide) (by omega)
    omega

end Sprite

/-- A sprite inverts the pixels that it covers, each of them once. -/
theorem Display.get_draw (g : Display) (edge : EdgeRule) (corner : Pixel) {rows : List UInt8}
    (height : rows.length ≤ displayHeight) (p : Pixel) :
    (g.draw edge corner rows).1.get p =
      if Sprite.Covers edge corner.x.val corner.y.val rows p then (g.get p).invert
      else g.get p := by
  have once := List.nodup_iff_count_le_one.mp
    (Sprite.nodup_pixels edge corner.x.val corner.y.val height) p
  rw [draw, get_blit]
  by_cases covered : Sprite.Covers edge corner.x.val corner.y.val rows p
  · have : 0 < (Sprite.pixels edge corner.x.val corner.y.val rows).count p :=
      List.count_pos_iff.mpr (Sprite.mem_pixels_iff.mpr covered)
    rw [if_pos covered, if_pos (by omega)]
  · have : (Sprite.pixels edge corner.x.val corner.y.val rows).count p = 0 :=
      List.count_eq_zero.mpr fun mem => covered (Sprite.mem_pixels_iff.mp mem)
    rw [if_neg covered, if_neg (by omega)]

end Chip8
