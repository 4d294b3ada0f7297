import Chip8.Command
import Chip8.Fault
import Chip8.Glyphs

/-!
# Memory

The 4096 cells of the machine. `Memory.byteAt` is the view of a memory as a
function from addresses to bytes; every operation is described by what it does
to that view.

An access names its first cell by a word and its extent by a number of cells.
It is permitted iff it is empty or its last cell exists, and otherwise fails
with the address of that last cell, which may lie beyond any word. What a
program stores must moreover spare the character set.

Results:

* `readWord_eq`, `readSlice_eq`, `run_writeSlice`, `run_store`: when an access
  succeeds, with what, and how it fails otherwise.
* `byteAt_initial`: a fresh memory holds the character set and zeros.
* `byteAt_overwrite`, `byteAt_overwrite_at`, `byteAt_overwrite_of_apart`: writing a list
  changes the cells it covers and no other.
* `overwrite_overwrite`: the same cells may be written again.
* `readWord_overwrite`, `readWord_overwrite_at`: a word that was written is read back.
-/

namespace Chip8

/-- The number of cells. -/
abbrev memorySize : Nat := 4096

/-- A byte for each address. -/
structure Memory where
  cells : Vector UInt8 memorySize

namespace Memory

/-- The memory of a fresh machine: the character set, then zeros. -/
def initial : Memory := ⟨Vector.ofFn fun a => Glyphs.charset[a.val]?.getD 0⟩

/-- The byte at an address, zero where there is no cell. -/
def byteAt (m : Memory) (address : Nat) : UInt8 := m.cells[address]?.getD 0

/-- Puts the bytes into the cells from `address` on; bytes for which there is no cell are lost. -/
def overwrite (m : Memory) (address : Nat) : List UInt8 → Memory
  | [] => m
  | b :: bs => overwrite ⟨m.cells.setIfInBounds address b⟩ (address + 1) bs

/-! ## Permission -/

/-- Permits an access to `length` cells iff it is empty or the last of them exists. Here a length
    is that of a list, or a number that an instruction names, so its end fits into 64 bits. -/
def permit (start : UInt16) (length : Nat) : Except Fault Unit :=
  if length = 0 ∨ start.toNat + length ≤ memorySize then .ok ()
  else .error (.outOfBounds (start.toNat + length - 1))

/-- Permits a store by the program iff it is empty or spares the character set. -/
def permitStore (start : UInt16) (length : Nat) : Except Fault Unit :=
  if length ≠ 0 ∧ start.toNat < Glyphs.offset + Glyphs.size
      ∧ Glyphs.offset < start.toNat + length then
    .error (.readOnly (max start.toNat Glyphs.offset))
  else .ok ()

/-! ## Access -/

/-- The byte at an address. -/
def read (m : Memory) (address : UInt16) : Except Fault UInt8 := do
  permit address 1
  return m.byteAt address.toNat

/-- Replaces one byte. -/
def write (address : UInt16) (b : UInt8) : EStateM Fault Memory Unit := do
  ofExcept (permit address 1)
  modify fun m => m.overwrite address.toNat [b]

/-- The word whose high byte is at the address and whose low byte follows it. -/
def readWord (m : Memory) (address : UInt16) : Except Fault UInt16 := do
  permit address 2
  return Word.ofBytes (m.byteAt address.toNat) (m.byteAt (address.toNat + 1))

/-- Puts the bytes into the cells from `start` on. -/
def writeSlice (start : UInt16) (bytes : List UInt8) : EStateM Fault Memory Unit := do
  ofExcept (permit start bytes.length)
  modify fun m => m.overwrite start.toNat bytes

/-- Puts a word at the address, its high byte first. -/
def writeWord (address : UInt16) (w : UInt16) : EStateM Fault Memory Unit :=
  writeSlice address [Word.high w, Word.low w]

/-- The bytes of `length` cells. The machine reads at most 16 of them at a time; `sliceAt` answers
    for lengths whose end is lost. -/
def readSlice (m : Memory) (start : UInt16) (length : Nat) : Except Fault (List UInt8) := do
  permit start length
  return (List.range' start.toNat length).map m.byteAt

/-- A write by the running program, which must spare the character set. -/
def store (start : UInt16) (bytes : List UInt8) : EStateM Fault Memory Unit := do
  ofExcept (permit start bytes.length)
  ofExcept (permitStore start bytes.length)
  writeSlice start bytes

/-- A word cannot be read from the last cell, as its low byte would lie behind it. -/
theorem readWord_eq (m : Memory) (address : UInt16) :
    m.readWord address =
      if address.toNat + 2 ≤ memorySize then
        .ok (Word.ofBytes (m.byteAt address.toNat) (m.byteAt (address.toNat + 1)))
      else .error (.outOfBounds (address.toNat + 1)) := by
  by_cases h : address.toNat + 2 ≤ memorySize
  · have : (2 = 0 ∨ address.toNat + 2 ≤ memorySize) := .inr h
    rw [readWord, permit, if_pos this, if_pos h]
    rfl
  · have : ¬ (2 = 0 ∨ address.toNat + 2 ≤ memorySize) := by omega
    rw [readWord, permit, if_neg this, if_neg h]
    rfl

theorem readSlice_eq (m : Memory) (start : UInt16) (length : Nat) :
    m.readSlice start length =
      if length = 0 ∨ start.toNat + length ≤ memorySize then
        .ok ((List.range' start.toNat length).map m.byteAt)
      else .error (.outOfBounds (start.toNat + length - 1)) := by
  rw [readSlice, permit]
  split <;> rfl

theorem run_writeSlice (m : Memory) (start : UInt16) (bytes : List UInt8) :
    (writeSlice start bytes).run m =
      if bytes.length = 0 ∨ start.toNat + bytes.length ≤ memorySize then
        .ok () (m.overwrite start.toNat bytes)
      else .error (.outOfBounds (start.toNat + bytes.length - 1)) m := by
  rw [writeSlice, permit]
  split <;> rfl

/-- Whether the cells exist is decided before whether they belong to the character set; a store that
    is refused for either reason changes nothing. -/
theorem run_store (m : Memory) (start : UInt16) (bytes : List UInt8) :
    (store start bytes).run m =
      if bytes.length = 0 ∨ start.toNat + bytes.length ≤ memorySize then
        if bytes.length ≠ 0 ∧ start.toNat < Glyphs.size then .error (.readOnly start.toNat) m
        else .ok () (m.overwrite start.toNat bytes)
      else .error (.outOfBounds (start.toNat + bytes.length - 1)) m := by
  simp only [store, EStateM.run_bind, run_ofExcept, run_writeSlice, permit, permitStore]
  by_cases inside : bytes.length = 0 ∨ start.toNat + bytes.length ≤ memorySize
  · have overlaps : (bytes.length ≠ 0 ∧ start.toNat < Glyphs.offset + Glyphs.size ∧
        Glyphs.offset < start.toNat + bytes.length) ↔
          bytes.length ≠ 0 ∧ start.toNat < Glyphs.size := by
      simp only [Glyphs.offset, Glyphs.size]
      omega
    simp only [if_pos inside, overlaps]
    by_cases guarded : bytes.length ≠ 0 ∧ start.toNat < Glyphs.size
    · simp only [if_pos guarded, Glyphs.offset, Nat.max_zero]
    · simp only [if_neg guarded]
  · simp only [if_neg inside]

/-! ## The view -/

theorem ext_byteAt {m m' : Memory} (same : ∀ a, m.byteAt a = m'.byteAt a) : m = m' := by
  obtain ⟨cells⟩ := m
  obtain ⟨cells'⟩ := m'
  congr 1
  apply Vector.ext
  intro a lt
  have same := same a
  rwa [byteAt, byteAt, Vector.getElem?_eq_getElem lt, Vector.getElem?_eq_getElem lt] at same

theorem byteAt_initial (a : Nat) : initial.byteAt a = Glyphs.charset[a]?.getD 0 := by
  simp only [byteAt, initial, Vector.getElem?_ofFn]
  split
  · rfl
  · have : Glyphs.size ≤ a := by simp only [Glyphs.size, memorySize] at *; omega
    simp [this]

@[simp] theorem overwrite_nil (m : Memory) (a : Nat) : m.overwrite a [] = m := rfl

/-- After a write its bytes stand in a row, and all other cells are as they were. -/
theorem byteAt_overwrite (m : Memory) (start : Nat) (bytes : List UInt8) (a : Nat)
    (h : start + bytes.length ≤ memorySize) :
    (m.overwrite start bytes).byteAt a =
      if start ≤ a then bytes[a - start]?.getD (m.byteAt a) else m.byteAt a := by
  induction bytes generalizing m start with
  | nil => simp
  | cons b bs ih =>
    simp only [List.length_cons] at h
    rw [overwrite, ih _ _ (by omega)]
    have step : (Memory.byteAt ⟨m.cells.setIfInBounds start b⟩ a) =
        if start = a then b else m.byteAt a := by
      simp only [byteAt, Vector.getElem?_setIfInBounds]
      have : start < memorySize := by omega
      by_cases hs : start = a <;> simp_all
    rcases Nat.lt_trichotomy a start with ha | rfl | ha
    · have : ¬ start ≤ a := by omega
      have : ¬ start + 1 ≤ a := by omega
      have : start ≠ a := by omega
      simp [*]
    · have : ¬ a + 1 ≤ a := by omega
      simp [*]
    · have : start ≤ a := by omega
      have : start + 1 ≤ a := by omega
      have : start ≠ a := by omega
      have : a - start = a - (start + 1) + 1 := by omega
      simp [*]

/-- The byte at place `k` of bytes that were written. -/
theorem byteAt_overwrite_at (m : Memory) {start k : Nat} {bytes : List UInt8} {b : UInt8}
    (inside : start + bytes.length ≤ memorySize) (place : bytes[k]? = some b) :
    (m.overwrite start bytes).byteAt (start + k) = b := by
  rw [byteAt_overwrite _ _ _ _ inside, if_pos (Nat.le_add_right _ k), Nat.add_sub_cancel_left,
    place]
  rfl

/-- A byte that was not written over. -/
theorem byteAt_overwrite_of_apart (m : Memory) {start a : Nat} {bytes : List UInt8}
    (inside : start + bytes.length ≤ memorySize) (apart : a < start ∨ start + bytes.length ≤ a) :
    (m.overwrite start bytes).byteAt a = m.byteAt a := by
  rw [byteAt_overwrite _ _ _ _ inside]
  split
  · have beyond : bytes.length ≤ a - start := by omega
    rw [List.getElem?_eq_none beyond]
    rfl
  · rfl

/-- Bytes that are written over shorter ones leave nothing of them. -/
theorem overwrite_overwrite (m : Memory) {start : Nat} {earlier later : List UInt8}
    (shorter : earlier.length ≤ later.length) (inside : start + later.length ≤ memorySize) :
    (m.overwrite start earlier).overwrite start later = m.overwrite start later := by
  apply ext_byteAt
  intro a
  by_cases apart : a < start ∨ start + later.length ≤ a
  · rw [byteAt_overwrite_of_apart _ inside apart, byteAt_overwrite_of_apart _ inside apart,
      byteAt_overwrite_of_apart m (by omega) (by omega)]
  · obtain ⟨k, rfl⟩ := Nat.exists_eq_add_of_le (show start ≤ a by omega)
    have place : later[k]? = some later[k] := List.getElem?_eq_getElem (by omega)
    rw [byteAt_overwrite_at _ inside place, byteAt_overwrite_at _ inside place]

/-- The word at place `k` of bytes that were written. -/
theorem readWord_overwrite_at (m : Memory) {start k : Nat} {bytes : List UInt8} {address w : UInt16}
    (inside : start + bytes.length ≤ memorySize) (place : address.toNat = start + k)
    (first : bytes[k]? = some (Word.high w)) (second : bytes[k + 1]? = some (Word.low w)) :
    (m.overwrite start bytes).readWord address = .ok w := by
  have stored : k + 1 < bytes.length := (List.getElem?_eq_some_iff.mp second).1
  rw [readWord_eq, place, if_pos (by omega), byteAt_overwrite_at m inside first, Nat.add_assoc,
    byteAt_overwrite_at m inside second, Word.ofBytes_high_low]

theorem readWord_overwrite (m : Memory) (address w : UInt16) (h : address.toNat + 2 ≤ memorySize) :
    (m.overwrite address.toNat [Word.high w, Word.low w]).readWord address = .ok w :=
  readWord_overwrite_at m (k := 0) h rfl rfl rfl

end Memory

end Chip8
