import Chip8.Proofs.Charset

/-!
# One drawing

An instruction that draws inverts the pixels that the set bits of its sprite fall on,
each of them once, also where the register of a coordinate is the one that takes the
flag. So drawing the same sprite again takes it off, and the rule for the edges
matters only if the sprite reaches beyond them.

Results:

* `Display.draw_collides_iff`: a drawing turns a pixel off iff it covers a white one.
* `Display.draw_draw`, `Display.draw_draw_collides_iff`: the same drawing once more.
* `Display.draw_clip_eq_draw_wrap_iff`: when the rule for the edges does not matter.
* `blit_of_draw_word`: what the step of a word that draws does, in every machine.
-/

namespace Chip8

/-! ## Bits at the edge -/

namespace EdgeRule

variable {x y : Nat} {p : Pixel}

theorem Hits.wrap_of_clip (h : clip.Hits x y p) : wrap.Hits x y p := by
  obtain ⟨rfl, rfl⟩ := h
  exact ⟨Nat.mod_eq_of_lt p.x.isLt, Nat.mod_eq_of_lt p.y.isLt⟩

theorem Hits.clip_of_wrap (h : wrap.Hits x y p)
    (inside : x < displayWidth ∧ y < displayHeight) : clip.Hits x y p :=
  ⟨(Nat.mod_eq_of_lt inside.1).symm.trans h.1, (Nat.mod_eq_of_lt inside.2).symm.trans h.2⟩

theorem Hits.inside (h : clip.Hits x y p) : x < displayWidth ∧ y < displayHeight := by
  obtain ⟨rfl, rfl⟩ := h
  exact ⟨p.x.isLt, p.y.isLt⟩

end EdgeRule

namespace Sprite

variable {x y : Nat} {rows : List UInt8} {p : Pixel}

/-- Whether all set bits of a sprite whose upper left corner is at the coordinates lie within the
    display. -/
def Inside (x y : Nat) (rows : List UInt8) : Prop :=
  ∀ r row, rows[r]? = some row → ∀ c, c < width → row.toNat.testBit (7 - c) = true →
    x + c < displayWidth ∧ y + r < displayHeight

theorem Covers.wrap_of_clip (h : Covers .clip x y rows p) : Covers .wrap x y rows p := by
  obtain ⟨r, row, at_, c, narrow, bit, hit⟩ := h
  exact ⟨r, row, at_, c, narrow, bit, hit.wrap_of_clip⟩

theorem Inside.covers_iff (h : Inside x y rows) :
    Covers .clip x y rows p ↔ Covers .wrap x y rows p := by
  refine ⟨Covers.wrap_of_clip, ?_⟩
  rintro ⟨r, row, at_, c, narrow, bit, hit⟩
  exact ⟨r, row, at_, c, narrow, bit, hit.clip_of_wrap (h r row at_ c narrow bit)⟩

/-- A bit beyond the edge falls on a pixel that no other bit falls on. -/
theorem exists_of_not_inside (height : rows.length ≤ displayHeight) (h : ¬ Inside x y rows) :
    ∃ p, Covers .wrap x y rows p ∧ ¬ Covers .clip x y rows p := by
  simp only [Inside, not_forall] at h
  obtain ⟨r, row, at_, c, narrow, bit, beyond⟩ := h
  let p : Pixel := ⟨Fin.ofNat displayWidth (x + c), Fin.ofNat displayHeight (y + r)⟩
  have hit : EdgeRule.wrap.Hits (x + c) (y + r) p := ⟨rfl, rfl⟩
  refine ⟨p, ⟨r, row, at_, c, narrow, bit, hit⟩, ?_⟩
  rintro ⟨r', row', at', c', narrow', -, hit'⟩
  have low : r < displayHeight :=
    Nat.lt_of_lt_of_le (List.getElem?_eq_some_iff.mp at_).1 height
  have low' : r' < displayHeight :=
    Nat.lt_of_lt_of_le (List.getElem?_eq_some_iff.mp at').1 height
  have small : width ≤ displayWidth := by decide
  have sameColumn : c = c' := hit.column_inj hit'.wrap_of_clip
    (Nat.lt_of_lt_of_le narrow small) (Nat.lt_of_lt_of_le narrow' small)
  have sameRow : r = r' := hit.row_inj hit'.wrap_of_clip low low'
  subst sameColumn sameRow
  exact beyond hit'.inside

end Sprite

/-! ## One sprite on a display -/

namespace Display

variable (g : Display) (edge : EdgeRule) (corner : Pixel) {rows : List UInt8}
  (height : rows.length ≤ displayHeight)
include height

theorem draw_collides_iff :
    (g.draw edge corner rows).2 = true ↔
      ∃ p, Sprite.Covers edge corner.x.val corner.y.val rows p ∧ g.get p = .white := by
  rw [draw, blit_collides_iff g (Sprite.nodup_pixels edge _ _ height)]
  simp only [Sprite.mem_pixels_iff]

/-- To draw a sprite again takes it away. -/
theorem draw_draw : ((g.draw edge corner rows).1.draw edge corner rows).1 = g := by
  apply ext_get
  intro p
  rw [get_draw _ edge corner height, get_draw _ edge corner height]
  split
  · exact Color.invert_invert _
  · rfl

/-- The second of two equal drawings finds white what the first one found black. -/
theorem draw_draw_collides_iff :
    ((g.draw edge corner rows).1.draw edge corner rows).2 = true ↔
      ∃ p, Sprite.Covers edge corner.x.val corner.y.val rows p ∧ g.get p = .black := by
  rw [draw_collides_iff _ edge corner height]
  refine exists_congr fun p => and_congr_right fun covered => ?_
  rw [get_draw g edge corner height, if_pos covered]
  cases g.get p <;> decide

/-- Both rules for the edges do the same on a display iff no set bit lies beyond an edge. -/
theorem draw_clip_eq_draw_wrap_iff :
    (g.draw .clip corner rows).1 = (g.draw .wrap corner rows).1 ∧
        (g.draw .clip corner rows).2 = (g.draw .wrap corner rows).2 ↔
      Sprite.Inside corner.x.val corner.y.val rows := by
  constructor
  · rintro ⟨same, -⟩
    by_contra beyond
    obtain ⟨p, covered, uncovered⟩ := Sprite.exists_of_not_inside height beyond
    have same : (g.draw .clip corner rows).1.get p = (g.draw .wrap corner rows).1.get p :=
      congrArg (·.get p) same
    rw [get_draw g _ corner height, get_draw g _ corner height, if_neg uncovered,
      if_pos covered] at same
    cases colour : g.get p <;> rw [colour] at same <;> cases same
  · intro inside
    constructor
    · apply ext_get
      intro p
      simp only [get_draw g _ corner height, inside.covers_iff]
    · rw [Bool.eq_iff_iff, draw_collides_iff g _ corner height, draw_collides_iff g _ corner height]
      simp only [inside.covers_iff]

end Display

namespace Machine

variable {m : Machine} {x y n : Nibble} {p : Pixel}

/-! ## The step of a word that draws -/

/-- Whether a set bit of the `n` bytes from I on falls on a pixel, where the upper left corner of
    the sprite is at column Vx and row Vy. -/
def Inverts (m : Machine) (x y n : Nibble) (p : Pixel) : Prop :=
  ∃ r, r < n.val ∧ ∃ c, c < 8 ∧
    (m.memory.byteAt (m.index.toNat + r)).toNat.testBit (7 - c) = true ∧
    m.config.edge.Hits ((m.reg x).toNat % 64 + c) ((m.reg y).toNat % 32 + r) p

/-- Whether VF tells if something is the case: it is one if so, and zero if not. -/
def FlagTells (m : Machine) (fact : Prop) : Prop :=
  (m.reg 0xF = 1 ↔ fact) ∧ (m.reg 0xF = 0 ↔ ¬ fact)

theorem getElem?_spriteRows (m : Machine) (n : Nibble) (r : Nat) (row : UInt8) :
    (m.spriteRows n)[r]? = some row ↔
      r < n.val ∧ m.memory.byteAt (m.index.toNat + r) = row := by
  rw [spriteRows_eq, List.getElem?_map]
  by_cases among : r < n.val
  · rw [List.getElem?_range among, Option.map_some, Option.some.injEq]
    exact (and_iff_right among).symm
  · rw [List.getElem?_eq_none (by simpa using among)]
    exact ⟨nofun, fun h => absurd h.1 among⟩

theorem inverts_iff_covers :
    m.Inverts x y n p ↔
      Sprite.Covers m.config.edge ((m.reg x).toNat % 64) ((m.reg y).toNat % 32)
        (m.spriteRows n) p := by
  simp only [Inverts, Sprite.Covers, getElem?_spriteRows]
  constructor
  · rintro ⟨r, among, bits⟩
    exact ⟨r, _, ⟨among, rfl⟩, bits⟩
  · rintro ⟨r, _, ⟨among, rfl⟩, bits⟩
    exact ⟨r, among, bits⟩

instance decidableInverts (m : Machine) (x y n : Nibble) : DecidablePred (m.Inverts x y n) :=
  fun _ => decidable_of_iff _ inverts_iff_covers.symm

theorem carriesOut_of_draw_word (running : m.awaiting = none)
    (fetch : m.memory.readWord m.counter = .ok (Nibbles.toWord ⟨0xD, x, y, n⟩))
    (inside : n.val = 0 ∨ m.index.toNat + n.val ≤ 4096) : m.carriesOut = some (.draw x y n) :=
  carriesOut_of_clear running fetch (Instruction.decode_encode (.draw x y n)) (if_pos inside)

/-- What the machine draws where it carries out the instruction. -/
def drawing (m : Machine) (x y n : Nibble) : Display × Bool :=
  m.display.draw m.config.edge (Sprite.origin (m.reg x) (m.reg y)) (m.spriteRows n)

theorem step_of_draw (done : m.carriesOut = some (.draw x y n)) :
    m.step.machine = { m.drained.advance with
      display := (m.drawing x y n).1
      redraw := true
      registers := m.registers.setFlag (m.drawing x y n).2 }.tick := by
  obtain ⟨after, ran, -, left⟩ := exists_of_carriesOut done rfl
  rw [left, of_run_draw ran]
  rfl

theorem display_of_draw (done : m.carriesOut = some (.draw x y n)) :
    m.step.machine.display = (m.drawing x y n).1 := by
  rw [step_of_draw done]
  rfl

theorem reg_of_draw (done : m.carriesOut = some (.draw x y n)) (k : Nibble) :
    m.step.machine.reg k =
      if 0xF = k then (if (m.drawing x y n).2 then 1 else 0) else m.reg k := by
  rw [step_of_draw done]
  exact Registers.get_set _ _ _ _

theorem flagTells_of_draw (done : m.carriesOut = some (.draw x y n)) {fact : Prop}
    (collides : (m.drawing x y n).2 = true ↔ fact) : m.step.machine.FlagTells fact := by
  rw [FlagTells, reg_of_draw done, if_pos rfl, ← collides]
  cases (m.drawing x y n).2 <;> decide

theorem get_display_of_draw (done : m.carriesOut = some (.draw x y n)) (p : Pixel) :
    m.step.machine.display.get p =
      if m.Inverts x y n p then (m.display.get p).invert else m.display.get p := by
  rw [display_of_draw done, drawing, Display.get_draw _ _ _ (m.length_spriteRows_le n)]
  simp only [inverts_iff_covers]
  rfl

theorem inside_spriteRows_iff (m : Machine) (x y n : Nibble) :
    Sprite.Inside ((m.reg x).toNat % 64) ((m.reg y).toNat % 32) (m.spriteRows n) ↔
      ∀ r, r < n.val → ∀ c, c < 8 →
        (m.memory.byteAt (m.index.toNat + r)).toNat.testBit (7 - c) = true →
          (m.reg x).toNat % 64 + c ≤ 63 ∧ (m.reg y).toNat % 32 + r ≤ 31 := by
  simp only [Sprite.Inside, getElem?_spriteRows, Nat.lt_succ_iff]
  constructor
  · intro h r among
    exact h r _ ⟨among, rfl⟩
  · rintro h r _ ⟨among, rfl⟩
    exact h r among

/-- The same machine with another display and another rule for the edges. -/
def showing (m : Machine) (g : Display) (edge : EdgeRule) : Machine :=
  { m with display := g, config := { m.config with edge := edge } }

theorem flag_eq_iff {m' : Machine} {x' y' n' : Nibble} (done : m.carriesOut = some (.draw x y n))
    (done' : m'.carriesOut = some (.draw x' y' n')) :
    m.step.machine.reg 0xF = m'.step.machine.reg 0xF ↔
      (m.drawing x y n).2 = (m'.drawing x' y' n').2 := by
  rw [reg_of_draw done, reg_of_draw done', if_pos rfl, if_pos rfl]
  cases (m.drawing x y n).2 <;> cases (m'.drawing x' y' n').2 <;> decide

/-- The rule for the edges does not matter iff no set bit lies beyond them. -/
theorem step_showing_clip_eq_wrap_iff (g : Display)
    (done : ∀ edge, (m.showing g edge).carriesOut = some (.draw x y n)) :
    (m.showing g .clip).step.machine.display = (m.showing g .wrap).step.machine.display ∧
        (m.showing g .clip).step.machine.reg 0xF = (m.showing g .wrap).step.machine.reg 0xF ↔
      ∀ r, r < n.val → ∀ c, c < 8 →
        (m.memory.byteAt (m.index.toNat + r)).toNat.testBit (7 - c) = true →
          (m.reg x).toNat % 64 + c ≤ 63 ∧ (m.reg y).toNat % 32 + r ≤ 31 := by
  rw [display_of_draw (done .clip), display_of_draw (done .wrap),
    flag_eq_iff (done .clip) (done .wrap), ← inside_spriteRows_iff]
  exact g.draw_clip_eq_draw_wrap_iff (Sprite.origin (m.reg x) (m.reg y)) (m.length_spriteRows_le n)

/-- What a second drawing of the same sprite at the same place draws. -/
theorem drawing_after_draw {a b : Nibble} (done : m.carriesOut = some (.draw x y n))
    (column : (m.step.machine.reg a).toNat % 64 = (m.reg x).toNat % 64)
    (row : (m.step.machine.reg b).toNat % 32 = (m.reg y).toNat % 32) :
    m.step.machine.drawing a b n =
      (m.drawing x y n).1.draw m.config.edge (Sprite.origin (m.reg x) (m.reg y))
        (m.spriteRows n) := by
  have corner : Sprite.origin (m.step.machine.reg a) (m.step.machine.reg b) =
      Sprite.origin (m.reg x) (m.reg y) := Pixel.ext (Fin.ext column) (Fin.ext row)
  rw [drawing, corner, display_of_draw done, config_step, spriteRows, (machine_of_draw done).2.1,
    (machine_of_draw done).2.2.1]
  rfl

/-- Drawing the same sprite at the same place once more takes it off again. -/
theorem step_redraw {a b : Nibble} (done : m.carriesOut = some (.draw x y n))
    (again : m.step.machine.carriesOut = some (.draw a b n))
    (column : (m.step.machine.reg a).toNat % 64 = (m.reg x).toNat % 64)
    (row : (m.step.machine.reg b).toNat % 32 = (m.reg y).toNat % 32) :
    m.step.machine.step.machine.display = m.display ∧
      m.step.machine.step.machine.FlagTells
        (∃ p, m.Inverts x y n p ∧ m.display.get p = .black) := by
  have drawn := drawing_after_draw done column row
  constructor
  · rw [display_of_draw again, drawn]
    exact m.display.draw_draw _ _ (m.length_spriteRows_le n)
  · apply flagTells_of_draw again
    rw [drawn]
    simp only [inverts_iff_covers]
    exact m.display.draw_draw_collides_iff _ _ (m.length_spriteRows_le n)

/-- A word that draws inverts the pixels that the set bits of its sprite fall on and no others, sets
    VF if one of them was white, and leaves everything else of the program as it was. The rule for
    the edges matters on no display iff no set bit lies beyond an edge, and drawing the same sprite
    at the same place once more takes it off again. -/
theorem blit_of_draw_word {m : Machine} {x y n : Nibble} (running : m.awaiting = none)
    (fetch : m.memory.readWord m.counter = .ok (Nibbles.toWord ⟨0xD, x, y, n⟩))
    (inside : n.val = 0 ∨ m.index.toNat + n.val ≤ 4096) :
    let after := m.step.machine
    m.step.fault = none ∧
    (∀ p, after.display.get p =
      if m.Inverts x y n p then (m.display.get p).invert else m.display.get p) ∧
    (∀ k, k ≠ 0xF → after.reg k = m.reg k) ∧
    after.index = m.index ∧ after.stack = m.stack ∧ after.memory = m.memory ∧
    after.FlagTells (∃ p, m.Inverts x y n p ∧ m.display.get p = .white) ∧
    after.redraw = true ∧
    (∀ g, (m.showing g .clip).step.machine.display = (m.showing g .wrap).step.machine.display ∧
        (m.showing g .clip).step.machine.reg 0xF = (m.showing g .wrap).step.machine.reg 0xF ↔
      ∀ r, r < n.val → ∀ c, c < 8 →
        (m.memory.byteAt (m.index.toNat + r)).toNat.testBit (7 - c) = true →
          (m.reg x).toNat % 64 + c ≤ 63 ∧ (m.reg y).toNat % 32 + r ≤ 31) ∧
    ∀ a b, after.memory.readWord after.counter = .ok (Nibbles.toWord ⟨0xD, a, b, n⟩) →
      (after.reg a).toNat % 64 = (m.reg x).toNat % 64 →
      (after.reg b).toNat % 32 = (m.reg y).toNat % 32 →
      after.step.fault = none ∧ after.step.machine.display = m.display ∧
      after.step.machine.FlagTells (∃ p, m.Inverts x y n p ∧ m.display.get p = .black) := by
  intro after
  have done : m.carriesOut = some (.draw x y n) := carriesOut_of_draw_word running fetch inside
  obtain ⟨running', memory, index, -, -⟩ := machine_of_draw done
  refine ⟨(of_carriesOut done).2.1, get_display_of_draw done, ?_, index, ?_, memory, ?_, ?_, ?_, ?_⟩
  · intro k other
    rw [reg_of_draw done, if_neg other.symm]
  · have stack := m.stack_step
    rw [done] at stack
    exact stack
  · apply flagTells_of_draw done
    simp only [inverts_iff_covers]
    exact m.display.draw_collides_iff _ _ (m.length_spriteRows_le n)
  · rw [redraw_step, done]
    rfl
  · intro g
    apply step_showing_clip_eq_wrap_iff
    intro edge
    exact carriesOut_of_draw_word (m := m.showing g edge) running fetch inside
  · intro a b fetch' column row
    have again : after.carriesOut = some (.draw a b n) :=
      carriesOut_of_draw_word running' fetch' (by rwa [index])
    exact ⟨(of_carriesOut again).2.1, step_redraw done again column row⟩

/-- The glyph of zero is drawn around the lower right corner, at a place that VF gives, and taken
    off again at the same place, which V1 gives since VF has become the flag. -/
theorem blit_of_draw_word_around_corner :
    let m := { create {} (.ofSeed 0) with
      memory := Memory.initial.overwrite 0x200 [0xDF, 0xF5, 0xD1, 0x15]
      registers := (Registers.zero.set 0xF 62).set 1 62 }
    m.step.fault = none ∧ m.step.machine.display.get ⟨1, 0⟩ = .white ∧
      m.step.machine.reg 0xF = 0 ∧
      ¬ ((m.showing .blank .clip).step.machine.display =
          (m.showing .blank .wrap).step.machine.display ∧
        (m.showing .blank .clip).step.machine.reg 0xF =
          (m.showing .blank .wrap).step.machine.reg 0xF) ∧
      m.step.machine.step.machine.display = .blank ∧ m.step.machine.step.machine.reg 0xF = 1 := by
  intro m
  have inside : 0x200 + [0xDF, 0xF5, 0xD1, 0x15].length ≤ memorySize := by decide
  have fetch : m.memory.readWord 0x200 = .ok (Nibbles.toWord ⟨0xD, 0xF, 0xF, 0x5⟩) :=
    Memory.initial.readWord_overwrite_at (k := 0) inside rfl rfl rfl
  have fetch' : m.memory.readWord 0x202 = .ok (Nibbles.toWord ⟨0xD, 0x1, 0x1, 0x5⟩) :=
    Memory.initial.readWord_overwrite_at (k := 2) inside rfl rfl rfl
  -- the third row of the glyph has its fourth pixel beyond both edges
  have row : m.memory.byteAt (0 + 2) = 0x90 := by
    show (Memory.initial.overwrite 0x200 _).byteAt 2 = 0x90
    rw [Memory.byteAt_overwrite _ _ _ _ inside, if_neg (by decide), Memory.byteAt_initial]
    decide
  have bit : (m.memory.byteAt (0 + 2)).toNat.testBit (7 - 3) = true := by
    rw [row]
    decide
  have place : m.reg 0xF = 62 := rfl
  have hit :
      EdgeRule.wrap.Hits ((m.reg 0xF).toNat % 64 + 3) ((m.reg 0xF).toNat % 32 + 2) ⟨1, 0⟩ := by
    rw [place]
    exact ⟨rfl, rfl⟩
  have covered : m.Inverts 0xF 0xF 0x5 ⟨1, 0⟩ := ⟨2, by decide, 3, by decide, bit, hit⟩
  have black : ∀ p, m.display.get p = .black := Display.get_blank
  obtain ⟨succeeds, inverts, others, -, -, memory, flag, -, edges, again⟩ :=
    blit_of_draw_word (m := m) rfl fetch (.inr (by decide))
  have counter : m.step.machine.counter = 0x202 :=
    (machine_of_draw (carriesOut_of_draw_word (m := m) rfl fetch (.inr (by decide)))).2.2.2.1
  have one : m.step.machine.reg 1 = 62 := others 1 (by decide)
  obtain ⟨-, restored, flag'⟩ := again 1 1 (by rw [memory, counter, fetch']) (by rw [one]; rfl)
    (by rw [one]; rfl)
  refine ⟨succeeds, ?_, flag.2.mpr ?_, ?_, restored, flag'.1.mpr ⟨_, covered, black _⟩⟩
  · rw [inverts, if_pos covered, black]
    rfl
  · rintro ⟨p, -, white⟩
    rw [black] at white
    cases white
  · rw [edges]
    intro within
    exact absurd (within 2 (by decide) 3 (by decide) bit).1 (by decide)

end Machine

end Chip8
