import Chip8.Proofs.Checked
import Mathlib.Data.Nat.Bitwise

/-!
# Words, pictures, timers and keys in bare numbers

The types of a machine leave no room for a register, a key or a pixel that does not
exist. Here its parts consist of bytes and arrays only, which are used through the
checked operations: nibbles are taken out of words by masks, keys are named by
bytes, and pixels by any two numbers.

Results:

* `Nibbles.address_bare`, `Nibbles.word_bare`: the nibbles of a word fit where they
  are put together again.
* `drawRows_eq`, `tick_eq`, `poll_eq`: drawing, ticking and polling never leave the
  range where their operations are defined, and do what they do in a machine.
-/

namespace Chip8

open Checked

/-! ## The nibbles of a word -/

/-- The nibbles of a word, each as a byte. -/
structure Opcode where
  kind : UInt8
  x : UInt8
  y : UInt8
  n : UInt8

namespace Opcode

/-- The nibbles of a word, the most significant first. -/
def ofWord (w : UInt16) : Opcode where
  kind := Word.high w >>> 4
  x := Word.high w &&& 0xF
  y := Word.low w >>> 4
  n := Word.low w &&& 0xF

/-- The three lower nibbles read as an address of twelve bits. -/
def address (o : Opcode) : Except Stop UInt16 := do
  let value := o.x.toUInt16 <<< 8 ||| o.y.toUInt16 <<< 4 ||| o.n.toUInt16
  return UInt16.ofNat (← below 4096 value.toNat)

/-- The two lower nibbles read as a byte. -/
def byte (o : Opcode) : UInt8 := o.y <<< 4 ||| o.n

/-- The word that has these nibbles. -/
def word (o : Opcode) : Except Stop UInt16 := do return o.kind.toUInt16 <<< 12 ||| (← o.address)

end Opcode

/-- A nibble as a byte. -/
def Nibble.byte (x : Nibble) : UInt8 := UInt8.ofNat x.val

@[simp] theorem Nibble.toNat_byte (x : Nibble) : (Nibble.byte x).toNat = x.val := by
  have := x.isLt
  simp only [Nibble.byte, UInt8.toNat_ofNat']
  omega

theorem Nibble.byte_of_lt {b : UInt8} (h : b.toNat < 16) : Nibble.byte ⟨b.toNat, h⟩ = b :=
  UInt8.ofNat_toNat

theorem Nibble.and_eq_byte (key : UInt8) : key &&& 0xF = Nibble.byte (Fin.ofNat 16 key.toNat) := by
  have masked : key.toNat &&& 15 = key.toNat % 16 := Nat.and_two_pow_sub_one_eq_mod _ 4
  apply UInt8.toNat_inj.mp
  rw [UInt8.toNat_and, Nibble.toNat_byte]
  exact masked

section Sixteen

variable {α : Type} (v : Vector α 16) (x : Nibble)

theorem entry_byte : entry v.toList (Nibble.byte x).toNat = .ok v[x] := by
  simp only [Nibble.toNat_byte]
  exact entry_toList x.isLt

theorem replace_byte (a : α) :
    replace v (Nibble.byte x).toNat a = .ok (v.set x.val a x.val_lt) := by
  simp only [Nibble.toNat_byte]
  exact replace_of_lt x.isLt a

end Sixteen

namespace Nibbles

/-- The nibbles as bytes. -/
def bare (d : Nibbles) : Opcode :=
  ⟨Nibble.byte d.kind, Nibble.byte d.x, Nibble.byte d.y, Nibble.byte d.n⟩

theorem ofWord_eq_bare (w : UInt16) : Opcode.ofWord w = (ofWord w).bare := by
  have := w.toNat_lt
  have masked (n : Nat) : n &&& 15 = n % 16 := Nat.and_two_pow_sub_one_eq_mod n 4
  simp only [Opcode.ofWord, bare, Opcode.mk.injEq, ← UInt8.toNat_inj, Nibble.toNat_byte,
    UInt8.toNat_shiftRight, UInt8.toNat_and, Word.high, Word.low, ofWord, Fin.val_ofNat,
    UInt8.toNat_ofNat', UInt8.reduceToNat, Nat.shiftRight_eq_div_pow, masked, Nat.reducePow,
    Nat.reduceMod]
  omega

/-- Numbers that share no bits are joined by adding them. -/
theorem shiftLeft_or {a b k : Nat} (h : b < 2 ^ k) : a <<< k ||| b = a * 2 ^ k + b := by
  rw [← Nat.shiftLeft_add_eq_or_of_lt h, Nat.shiftLeft_eq]

theorem byte_bare (d : Nibbles) : d.bare.byte = d.byte := by
  have := d.y.isLt
  have := d.n.isLt
  apply UInt8.toNat_inj.mp
  have joined := shiftLeft_or (a := d.y.val) (b := d.n.val) (k := 4) (by omega)
  simp only [Nat.shiftLeft_eq, Nat.reducePow] at joined
  simp only [Opcode.byte, bare, byte, UInt8.toNat_or, UInt8.toNat_shiftLeft, Nibble.toNat_byte,
    UInt8.toNat_ofNat', UInt8.reduceToNat, Nat.reduceMod, Nat.shiftLeft_eq, Nat.reducePow]
  rw [Nat.mod_eq_of_lt (by omega), joined]
  omega

theorem byte_bare_ofByte (kind x : Nibble) (b : UInt8) : (ofByte kind x b).bare.byte = b := by
  rw [byte_bare, byte_ofByte]

theorem address_bare (d : Nibbles) : d.bare.address = .ok (Word.ofAddress d.address) := by
  have := d.x.isLt
  have := d.y.isLt
  have := d.n.isLt
  have low := shiftLeft_or (a := d.y.val) (b := d.n.val) (k := 4) (by omega)
  have joined := shiftLeft_or (a := d.x.val) (b := 16 * d.y.val + d.n.val) (k := 8) (by omega)
  simp only [Nat.shiftLeft_eq, Nat.reducePow] at low joined
  have value : (d.bare.x.toUInt16 <<< 8 ||| d.bare.y.toUInt16 <<< 4 ||| d.bare.n.toUInt16).toNat =
      d.address.val := by
    simp only [bare, UInt16.toNat_or, UInt16.toNat_shiftLeft, UInt8.toNat_toUInt16,
      Nibble.toNat_byte, UInt16.reduceToNat, Nat.reduceMod, Nat.shiftLeft_eq, Nat.reducePow]
    rw [Nat.mod_eq_of_lt (by omega), Nat.mod_eq_of_lt (by omega), Nat.or_assoc, low,
      Nat.mul_comm d.y.val, joined]
    simp only [address]
    omega
  rw [Opcode.address, value, below_of_lt d.address.isLt]
  rfl

theorem word_bare (d : Nibbles) : d.bare.word = .ok d.toWord := by
  have := d.kind.isLt
  have := d.address.isLt
  rw [Opcode.word, address_bare]
  apply congrArg Except.ok
  apply UInt16.toNat_inj.mp
  have joined := shiftLeft_or (a := d.kind.val) (b := d.address.val) (k := 12) (by omega)
  simp only [Nat.shiftLeft_eq, Nat.reducePow] at joined
  simp only [bare, UInt16.toNat_or, UInt16.toNat_shiftLeft, UInt8.toNat_toUInt16, Nibble.toNat_byte,
    UInt16.reduceToNat, Nat.reduceMod, Nat.shiftLeft_eq, Nat.reducePow, Word.toNat_ofAddress]
  rw [Nat.mod_eq_of_lt (by omega), joined, toNat_toWord]
  simp only [address]
  omega

end Nibbles

namespace Bare

/-! ## The display -/

/-- The pixels of a display, and whether some pixel was turned off. -/
abbrev Picture : Type := Vector Color (displayWidth * displayHeight) × Bool

/-- The position of a pixel, which has to exist. -/
def position (x y : Nat) : Except Stop Nat :=
  if x < displayWidth ∧ y < displayHeight then do
    sum lengthLimit x (← product lengthLimit displayWidth y)
  else .error (.abort (.noPixel x y))

/-- Inverts the pixel at the coordinates. -/
def flip (g : Picture) (x y : Nat) : Except Stop Picture := do
  let i ← position x y
  let c ← entry g.1.toList i
  return (← replace g.1 i c.invert, g.2 || c == .white)

/-- Draws one bit of a row. -/
def drawBit (edge : EdgeRule) (x y row : Nat) (bits : UInt8) (g : Picture) (column : Nat) :
    Except Stop Picture := do
  let mask ← shiftRight 0x80 column
  if bits &&& mask = 0 then .ok g
  else do
    let x ← sum lengthLimit x column
    let y ← sum lengthLimit y row
    match edge with
    | .wrap => flip g (x % displayWidth) (y % displayHeight)
    | .clip => if displayWidth ≤ x ∨ displayHeight ≤ y then .ok g else flip g x y

/-- Draws the rows of a sprite whose corner is at the coordinates, from one of its rows on. -/
def drawRows (edge : EdgeRule) (x y row : Nat) (g : Picture) : List UInt8 → Except Stop Picture
  | [] => .ok g
  | bits :: rows => do
    let g ← (List.range Sprite.width).foldlM (drawBit edge x y row bits) g
    drawRows edge x y (row + 1) g rows

theorem flip_eq (g : Display) (collided : Bool) (p : Pixel) :
    flip (g.pixels, collided) p.x.val p.y.val =
      .ok ((g.flip p).pixels, collided || g.get p == .white) := by
  have x_lt := p.x.isLt
  have y_lt := p.y.isLt
  have position_eq : position p.x.val p.y.val = .ok p.index.val := by
    rw [position, if_pos ⟨x_lt, y_lt⟩, product_of_lt, ok_bind, sum_of_lt]
    · rfl
    · simp only [lengthLimit, UInt64.size, displayWidth, displayHeight] at *
      omega
    · simp only [lengthLimit, UInt64.size, displayWidth, displayHeight] at *
      omega
  rw [flip, position_eq, ok_bind, entry_toList p.index.isLt, ok_bind, replace_of_lt p.index.isLt]
  rfl

theorem and_mask_eq_zero_iff (bits : UInt8) {column : Nat} (h : column < 8) :
    bits &&& UInt8.ofNat ((0x80 : UInt8).toNat >>> column) = 0 ↔ ¬ Sprite.isSet bits column := by
  have mask : ((0x80 : UInt8).toNat >>> column) % 256 = 2 ^ (7 - column) := by
    revert column
    decide
  rw [← UInt8.toNat_inj, UInt8.toNat_and, UInt8.toNat_ofNat', mask, Nat.and_two_pow,
    Sprite.isSet]
  cases bits.toNat.testBit (7 - column) <;> simp

/-- The picture that is left when pixels are inverted one after the other. -/
def blitOnto (g : Display) (collided : Bool) (pixels : List Pixel) : Picture :=
  ((g.blit pixels).1.pixels, collided || (g.blit pixels).2)

theorem blitOnto_append (g : Display) (collided : Bool) (pixels more : List Pixel) :
    blitOnto g collided (pixels ++ more) =
      blitOnto (g.blit pixels).1 (collided || (g.blit pixels).2) more := by
  induction pixels generalizing g collided with
  | nil => simp [blitOnto, Display.blit]
  | cons p pixels ih =>
    have rest := ih (g.flip p) (collided || g.get p == .white)
    simp only [blitOnto, List.cons_append, Display.blit, Prod.mk.injEq, Bool.or_assoc] at rest ⊢
    exact rest

/-- The pixel that a bit of a row falls on, if it is set and falls on one. -/
def bitPixel (edge : EdgeRule) (x y : Nat) (bits : UInt8) (column : Nat) : Option Pixel :=
  if Sprite.isSet bits column then edge.place (x + column) y else none

theorem drawBit_eq (g : Display) (collided : Bool) {edge : EdgeRule} {x y row : Nat} {bits : UInt8}
    {column : Nat} (h : column < 8) (x_lt : x < displayWidth) (y_lt : y + row < lengthLimit) :
    drawBit edge x y row bits (g.pixels, collided) column =
      .ok (blitOnto g collided (bitPixel edge x (y + row) bits column).toList) := by
  have sum_x : sum lengthLimit x column = .ok (x + column) := by
    apply sum_of_lt
    simp only [lengthLimit, UInt64.size, displayWidth] at *
    omega
  have misses : blitOnto g collided [] = (g.pixels, collided) := by
    simp [blitOnto, Display.blit]
  have covers (p : Pixel) : flip (g.pixels, collided) p.x.val p.y.val =
      .ok (blitOnto g collided [p]) := by
    simp [flip_eq, blitOnto, Display.blit]
  have unset := and_mask_eq_zero_iff bits h
  rw [drawBit, shiftRight_of_lt h, ok_bind, bitPixel]
  by_cases set : Sprite.isSet bits column
  · rw [if_neg (fun zero => unset.mp zero set), if_pos set, sum_x, ok_bind, sum_of_lt y_lt,
      ok_bind]
    cases edge with
    | wrap =>
      exact covers ⟨Fin.ofNat displayWidth (x + column), Fin.ofNat displayHeight (y + row)⟩
    | clip =>
      simp only [EdgeRule.place, Pixel.at?]
      by_cases inside : x + column < displayWidth ∧ y + row < displayHeight
      · rw [dif_pos inside, if_neg (by omega)]
        exact covers ⟨⟨x + column, inside.1⟩, ⟨y + row, inside.2⟩⟩
      · rw [dif_neg inside, if_pos (by omega)]
        exact congrArg Except.ok misses.symm
  · rw [if_pos (unset.mpr set), if_neg set]
    exact congrArg Except.ok misses.symm

theorem drawRow_eq (g : Display) (collided : Bool) {edge : EdgeRule} {x y row : Nat} {bits : UInt8}
    (x_lt : x < displayWidth) (y_lt : y + row < lengthLimit) {columns : List Nat}
    (inside : ∀ column ∈ columns, column < 8) :
    columns.foldlM (drawBit edge x y row bits) (g.pixels, collided) =
      .ok (blitOnto g collided (columns.filterMap (bitPixel edge x (y + row) bits))) := by
  induction columns generalizing g collided with
  | nil => simp [blitOnto, Display.blit, pure, Except.pure]
  | cons column columns ih =>
    have first := inside column List.mem_cons_self
    have rest := fun column among => inside column (List.mem_cons_of_mem _ among)
    rw [List.foldlM_cons, drawBit_eq g collided first x_lt y_lt, ok_bind]
    -- the other columns find the picture as this one leaves it
    refine (ih (g.blit _).1 _ rest).trans ?_
    rw [← blitOnto_append, List.filterMap_cons]
    cases bitPixel edge x (y + row) bits column <;> rfl

/-- The loops over rows and bits flip the pixels of the sprite one after the other, and no index
    leaves the display. -/
theorem drawRows_eq (g : Display) (collided : Bool) {edge : EdgeRule} {x y row : Nat}
    {rows : List UInt8} (x_lt : x < displayWidth) (y_lt : y + row + rows.length ≤ lengthLimit) :
    drawRows edge x y row (g.pixels, collided) rows =
      .ok (blitOnto g collided (Sprite.pixels edge x (y + row) rows)) := by
  induction rows generalizing g collided row with
  | nil => simp [drawRows, Sprite.pixels, blitOnto, Display.blit]
  | cons bits rows ih =>
    have rest : y + (row + 1) + rows.length ≤ lengthLimit := by
      rw [List.length_cons] at y_lt
      omega
    have row_lt : y + row < lengthLimit := by omega
    rw [drawRows, drawRow_eq g collided x_lt row_lt fun column => List.mem_range.mp, ok_bind]
    refine (ih (g.blit _).1 _ rest).trans ?_
    rw [← blitOnto_append]
    rfl

/-- Drawing a sprite at any two bytes. -/
theorem drawRows_origin (g : Display) (edge : EdgeRule) (vx vy : UInt8) {rows : List UInt8}
    (short : rows.length ≤ 16) :
    drawRows edge (vx.toNat % displayWidth) (vy.toNat % displayHeight) 0 (g.pixels, false) rows =
      .ok ((g.draw edge (Sprite.origin vx vy) rows).1.pixels,
        (g.draw edge (Sprite.origin vx vy) rows).2) := by
  have x_lt : vx.toNat % displayWidth < displayWidth := Nat.mod_lt _ (by decide)
  have y_lt : vy.toNat % displayHeight < displayHeight := Nat.mod_lt _ (by decide)
  have inside : vy.toNat % displayHeight + 0 + rows.length ≤ lengthLimit := by
    simp only [lengthLimit, UInt64.size, displayHeight] at *
    omega
  rw [drawRows_eq g false x_lt inside, blitOnto, Nat.add_zero, Bool.false_or]
  rfl

/-! ## The timers -/

/-- A timer that is taken down by one if it is not at zero. -/
def countDown (timer : UInt8) : Except Stop UInt8 :=
  if 0 < timer then do return UInt8.ofNat (← difference timer.toNat 1) else .ok timer

/-- The timers after one tick. -/
def tick (divider : UInt8) (t : Timers) : Except Stop Timers :=
  if t.nextPhase < divider then .ok { t with phase := t.nextPhase }
  else do return ⟨← countDown t.delay, ← countDown t.sound, 0⟩

theorem countDown_eq (timer : UInt8) :
    countDown timer = .ok (if timer = 0 then 0 else timer - 1) := by
  have := timer.toNat_lt
  rw [countDown]
  by_cases zero : timer = 0
  · rw [if_neg (by rw [zero]; decide), if_pos zero, zero]
  · have positive : 0 < timer.toNat := Nat.pos_of_ne_zero fun h => zero (UInt8.toNat_inj.mp h)
    rw [if_pos (show 0 < timer from UInt8.lt_iff_toNat_lt.mpr positive), if_neg zero,
      difference_of_le positive]
    apply congrArg Except.ok
    apply UInt8.toNat_inj.mp
    rw [UInt8.toNat_ofNat',
      UInt8.toNat_sub_of_le timer 1 (UInt8.le_iff_toNat_le.mpr positive)]
    exact Nat.mod_eq_of_lt (by omega)

/-- Neither the phase nor a counter can overflow. -/
theorem tick_eq (divider : UInt8) (t : Timers) : tick divider t = .ok (t.tick divider) := by
  have due : t.nextPhase < divider ↔ ¬ t.isDue divider := by
    simp [Timers.isDue, UInt8.not_le]
  rw [tick, Timers.tick, countDown_eq, countDown_eq]
  by_cases isDue : t.isDue divider
  · rw [if_neg (fun early => due.mp early isDue), if_pos isDue]
    rfl
  · rw [if_pos (due.mpr isDue), if_neg isDue]

end Bare

/-! ## The keypad -/

/-- A change of the keypad, with any byte for a key. -/
inductive BareEvent where
  | press (key : UInt8)
  | release (key : UInt8)
  | releaseAll
deriving DecidableEq, Repr

/-- An event that names its key by a byte. -/
def KeyEvent.bare : KeyEvent → BareEvent
  | .press key => .press (Nibble.byte key)
  | .release key => .release (Nibble.byte key)
  | .releaseAll => .releaseAll

namespace Bare

/-- Applies the events in order, and keeps the first press that found its key up. -/
def poll (down : Vector Bool keyCount) (fresh : Option UInt8) :
    List BareEvent → Except Stop (Vector Bool keyCount × Option UInt8)
  | [] => .ok (down, fresh)
  | .press key :: events => do
    let held ← entry down.toList key.toNat
    let down ← replace down key.toNat true
    poll down (if !held && fresh.isNone then some key else fresh) events
  | .release key :: events => do poll (← replace down key.toNat false) fresh events
  | .releaseAll :: events => poll (.replicate keyCount false) fresh events

theorem poll_eq (held : HeldKeys) (fresh : Option UInt8) (events : List KeyEvent) :
    poll held.down fresh (events.map KeyEvent.bare) =
      .ok ((held.drain events).1.down, fresh.or ((held.drain events).2.map Nibble.byte)) := by
  induction events generalizing held fresh with
  | nil => simp [poll, HeldKeys.drain]
  | cons e events ih =>
    cases e with
    | press key =>
      rw [List.map_cons, KeyEvent.bare, poll, entry_byte, ok_bind, replace_byte, ok_bind]
      -- a press that comes later is fresh only if no earlier one was
      refine (ih (held.apply (.press key)) _).trans ?_
      rw [HeldKeys.drain, HeldKeys.freshPress, HeldKeys.isDown]
      cases held.down[key] <;> cases fresh <;> simp
    | release key =>
      rw [List.map_cons, KeyEvent.bare, poll, replace_byte, ok_bind]
      exact ih (held.apply (.release key)) fresh
    | releaseAll => exact ih .allUp fresh

/-- A key that does not exist is not polled without notice. -/
example : poll (.replicate keyCount false) none [.press 16] =
    .error (.abort (.noEntry 16 16)) := rfl

end Bare

end Chip8
