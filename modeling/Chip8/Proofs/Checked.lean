import Chip8.Proofs.Obstacle

/-!
# Checked operations

Most operations on numbers and arrays are not defined everywhere: an array has no
entry at its length, a sum may not fit into a word, and nothing is left where more
is taken away than there was. `Checked` has such operations on bare numbers, each of
which stops the computation where it is not defined. Memory is read and written with
them here, without a type that keeps an address in bounds.

Results:

* `entry_of_lt`, `replace_of_lt`, `slice_of_le`, `copy_of_le`, `sum_of_lt` and so on:
  where each operation is defined, and with what outcome.
* `readSlice_eq`, `writeSlice_eq`, `store_eq`: no access to memory leaves the range
  where its operations are defined; it succeeds or has the fault of the access.
-/

namespace Chip8

/-- An operation that was applied where it is not defined. -/
inductive Abort where
  | noEntry (index length : Nat)
  | noSlice (start stop length : Nat)
  | otherLength (expected length : Nat)
  | tooLarge (value limit : Nat)
  | negative (value taken : Nat)
  | shiftedTooFar (amount : Nat)
  | noPixel (x y : Nat)
deriving DecidableEq, Repr

/-- Why a computation stops before its end. -/
inductive Stop where
  | abort (cause : Abort)
  | fault (cause : Fault)
deriving DecidableEq, Repr

namespace Checked

/-- Positions and lengths are numbers of 64 bits. -/
abbrev lengthLimit : Nat := UInt64.size

/-- A list that is handed over is shorter than this. -/
abbrev sliceLimit : Nat := UInt64.size / 2

variable {α : Type} {n : Nat}

/-- The entry of an array at an index. -/
def entry (l : List α) (i : Nat) : Except Stop α :=
  match l[i]? with
  | some a => .ok a
  | none => .error (.abort (.noEntry i l.length))

/-- The array with one entry replaced. -/
def replace (v : Vector α n) (i : Nat) (a : α) : Except Stop (Vector α n) :=
  if h : i < n then .ok (v.set i a) else .error (.abort (.noEntry i n))

/-- The entries from `start` on and before `stop`. -/
def slice (v : Vector α n) (start stop : Nat) : Except Stop (List α) :=
  if start ≤ stop ∧ stop ≤ n then .ok ((v.toList.drop start).take (stop - start))
  else .error (.abort (.noSlice start stop n))

/-- The array with the entries from `start` on and before `stop` replaced by those of a list, which
    has to have as many. -/
def copy (v : Vector α n) (start stop : Nat) (l : List α) : Except Stop (Vector α n) :=
  if start ≤ stop ∧ stop ≤ n then
    if l.length = stop - start then
      .ok (Vector.ofFn fun i => if start ≤ i.val then l[i.val - start]?.getD v[i] else v[i])
    else .error (.abort (.otherLength (stop - start) l.length))
  else .error (.abort (.noSlice start stop n))

/-- A number that has to be below a limit. -/
def below (limit value : Nat) : Except Stop Nat :=
  if value < limit then .ok value else .error (.abort (.tooLarge value limit))

/-- The sum of two numbers below a limit. -/
def sum (limit a b : Nat) : Except Stop Nat := below limit (a + b)

/-- The product of two numbers below a limit. -/
def product (limit a b : Nat) : Except Stop Nat := below limit (a * b)

/-- What is left of a number when another is taken from it. -/
def difference (a b : Nat) : Except Stop Nat :=
  if b ≤ a then .ok (a - b) else .error (.abort (.negative a b))

/-- A byte shifted to the right by less than its width. -/
def shiftRight (b : UInt8) (amount : Nat) : Except Stop UInt8 :=
  if amount < 8 then .ok (UInt8.ofNat (b.toNat >>> amount))
  else .error (.abort (.shiftedTooFar amount))

/-! ## Where they are defined -/

@[simp] theorem ok_bind {β : Type} (a : α) (f : α → Except Stop β) : (.ok a >>= f) = f a := rfl

theorem entry_of_lt {l : List α} {i : Nat} (h : i < l.length) : entry l i = .ok l[i] := by
  rw [entry, List.getElem?_eq_getElem h]

theorem entry_toList {v : Vector α n} {i : Nat} (h : i < n) : entry v.toList i = .ok v[i] := by
  rw [entry_of_lt (by simpa using h), Vector.getElem_toList]

theorem replace_of_lt {v : Vector α n} {i : Nat} (h : i < n) (a : α) :
    replace v i a = .ok (v.set i a) := dif_pos h

theorem slice_of_le {v : Vector α n} {start stop : Nat} (order : start ≤ stop) (inside : stop ≤ n) :
    slice v start stop = .ok ((v.toList.drop start).take (stop - start)) := if_pos ⟨order, inside⟩

theorem copy_of_le {v : Vector α n} {start : Nat} {l : List α} (inside : start + l.length ≤ n) :
    copy v start (start + l.length) l =
      .ok (Vector.ofFn fun i => if start ≤ i.val then l[i.val - start]?.getD v[i] else v[i]) := by
  rw [copy, if_pos ⟨Nat.le_add_right _ _, inside⟩, if_pos (Nat.add_sub_cancel_left _ _).symm]

theorem below_of_lt {limit value : Nat} (h : value < limit) : below limit value = .ok value :=
  if_pos h

theorem sum_of_lt {limit a b : Nat} (h : a + b < limit) : sum limit a b = .ok (a + b) :=
  below_of_lt h

theorem product_of_lt {limit a b : Nat} (h : a * b < limit) : product limit a b = .ok (a * b) :=
  below_of_lt h

theorem difference_of_le {a b : Nat} (h : b ≤ a) : difference a b = .ok (a - b) := if_pos h

theorem shiftRight_of_lt {amount : Nat} (h : amount < 8) (b : UInt8) :
    shiftRight b amount = .ok (UInt8.ofNat (b.toNat >>> amount)) := if_pos h

theorem sum_start {start : UInt16} {length : Nat} (sized : length < sliceLimit) :
    sum lengthLimit start.toNat length = .ok (start.toNat + length) := by
  have := start.toNat_lt
  simp only [sliceLimit, UInt64.size] at sized
  exact sum_of_lt (by simp only [lengthLimit, UInt64.size]; omega)

/-! ## Memory -/

/-- The cells of a memory. -/
abbrev Cells : Type := Vector UInt8 memorySize

/-- Finds whether there is a cell. -/
def cell (address : Nat) : Except Stop Unit :=
  if address < memorySize then .ok () else .error (.fault (.outOfBounds address))

/-- The position behind so many cells, of which the last has to exist. -/
def behind (start : UInt16) (length : Nat) : Except Stop Nat := do
  let stop ← sum lengthLimit start.toNat length
  cell (← difference stop 1)
  return stop

/-- The bytes of `length` cells. -/
def readSlice (cells : Cells) (start : UInt16) (length : Nat) : Except Stop (List UInt8) :=
  if length = 0 then .ok []
  else do slice cells start.toNat (← behind start length)

/-- The word whose high byte is at the address and whose low byte follows it. -/
def readWord (cells : Cells) (address : UInt16) : Except Stop UInt16 := do
  let bytes ← readSlice cells address 2
  return Word.ofBytes (← entry bytes 0) (← entry bytes 1)

/-- The cells with bytes put into those from `start` on. -/
def writeSlice (cells : Cells) (start : UInt16) (bytes : List UInt8) : Except Stop Cells :=
  if bytes.length = 0 then .ok cells
  else do copy cells start.toNat (← behind start bytes.length) bytes

/-- The same for a write by the running program, which must spare the character set. -/
def store (cells : Cells) (start : UInt16) (bytes : List UInt8) : Except Stop Cells :=
  if bytes.length = 0 then .ok cells
  else do
    let stop ← behind start bytes.length
    let guarded ← sum lengthLimit Glyphs.offset Glyphs.size
    if start.toNat < guarded ∧ Glyphs.offset < stop then
      .error (.fault (.readOnly (max start.toNat Glyphs.offset)))
    else writeSlice cells start bytes

variable {start : UInt16} {length : Nat}

theorem behind_eq (filled : length ≠ 0) (sized : length < sliceLimit) :
    behind start length =
      match Memory.accessFault start length with
      | some fault => .error (.fault fault)
      | none => .ok (start.toNat + length) := by
  have positive : 1 ≤ start.toNat + length := by omega
  rw [behind, sum_start sized, ok_bind, difference_of_le positive, ok_bind, cell,
    Memory.accessFault]
  by_cases inside : start.toNat + length ≤ memorySize
  · rw [if_pos (by omega), if_pos (.inr inside)]
    rfl
  · rw [if_neg (by omega), if_neg (by omega)]
    rfl

theorem le_of_accessFault (filled : length ≠ 0) (clear : Memory.accessFault start length = none) :
    start.toNat + length ≤ memorySize := by
  rw [Memory.accessFault] at clear
  split at clear
  · omega
  · cases clear

theorem slice_cells (m : Memory) {start length : Nat} (inside : start + length ≤ memorySize) :
    slice m.cells start (start + length) = .ok ((List.range' start length).map m.byteAt) := by
  rw [slice_of_le (Nat.le_add_right _ _) inside, Nat.add_sub_cancel_left]
  apply congrArg Except.ok
  apply List.ext_getElem?
  intro i
  rw [List.getElem?_take, List.getElem?_map]
  split
  · next among =>
    have there : start + i < memorySize := by omega
    rw [List.getElem?_range' among, List.getElem?_drop, Vector.getElem?_toList,
      Vector.getElem?_eq_getElem there, Nat.one_mul]
    simp [Memory.byteAt, there]
  · next beyond =>
    have none : (List.range' start length)[i]? = none :=
      List.getElem?_eq_none (by rw [List.length_range']; omega)
    rw [none]
    rfl

theorem copy_cells (m : Memory) {start : Nat} {bytes : List UInt8}
    (inside : start + bytes.length ≤ memorySize) :
    copy m.cells start (start + bytes.length) bytes = .ok (m.overwrite start bytes).cells := by
  rw [copy_of_le inside]
  apply congrArg Except.ok
  apply Vector.ext
  intro i there
  have held := m.byteAt_overwrite start bytes i inside
  simp only [Memory.byteAt, Vector.getElem?_eq_getElem there, Option.getD_some] at held
  rw [Vector.getElem_ofFn, held]
  rfl

/-- The end of a slice of that many bytes is computed without overflow, and then tells what the
    machine is told. -/
theorem readSlice_eq (m : Memory) (start : UInt16) (sized : length < sliceLimit) :
    readSlice m.cells start length =
      match Memory.accessFault start length with
      | some fault => .error (.fault fault)
      | none => .ok ((List.range' start.toNat length).map m.byteAt) := by
  rw [readSlice]
  by_cases empty : length = 0
  · subst empty
    rfl
  · rw [if_neg empty, behind_eq empty sized]
    cases clear : Memory.accessFault start length with
    | some fault => rfl
    | none => exact slice_cells m (le_of_accessFault empty clear)

theorem readWord_eq (m : Memory) (address : UInt16) :
    readWord m.cells address =
      match m.readWord address with
      | .error fault => .error (.fault fault)
      | .ok word => .ok word := by
  rw [readWord, readSlice_eq m address (by decide), Memory.readWord_eq, Memory.accessFault]
  by_cases inside : address.toNat + 2 ≤ memorySize
  · rw [if_pos (.inr inside), if_pos inside]
    rfl
  · rw [if_neg (by omega), if_neg inside]
    rfl

theorem writeSlice_eq (m : Memory) (start : UInt16) {bytes : List UInt8}
    (sized : bytes.length < sliceLimit) :
    writeSlice m.cells start bytes =
      match Memory.accessFault start bytes.length with
      | some fault => .error (.fault fault)
      | none => .ok (m.overwrite start.toNat bytes).cells := by
  rw [writeSlice]
  by_cases empty : bytes.length = 0
  · rw [if_pos empty, Memory.accessFault, if_pos (.inl empty), List.length_eq_zero_iff.mp empty]
    rfl
  · rw [if_neg empty, behind_eq empty sized]
    cases clear : Memory.accessFault start bytes.length with
    | some fault => rfl
    | none => exact copy_cells m (le_of_accessFault empty clear)

/-- The end is computed before it is known whether it lies among the cells. -/
theorem store_eq (m : Memory) (start : UInt16) {bytes : List UInt8}
    (sized : bytes.length < sliceLimit) :
    store m.cells start bytes =
      match Memory.storeFault start bytes.length with
      | some fault => .error (.fault fault)
      | none => .ok (m.overwrite start.toNat bytes).cells := by
  rw [store, Memory.storeFault, writeSlice_eq m start sized]
  by_cases empty : bytes.length = 0
  · rw [if_pos empty, Memory.accessFault, if_pos (.inl empty), List.length_eq_zero_iff.mp empty]
    rfl
  · rw [if_neg empty, behind_eq empty sized]
    have guarded : sum lengthLimit Glyphs.offset Glyphs.size = .ok Glyphs.size :=
      sum_of_lt (by decide)
    cases clear : Memory.accessFault start bytes.length with
    | some fault => rfl
    | none =>
      simp only [ok_bind, guarded, Option.none_or, Glyphs.offset, Nat.max_zero]
      by_cases low : start.toNat < Glyphs.size
      · rw [if_pos ⟨low, by omega⟩, if_pos ⟨empty, low⟩]
      · rw [if_neg (by omega), if_neg (by omega)]

end Checked

end Chip8
