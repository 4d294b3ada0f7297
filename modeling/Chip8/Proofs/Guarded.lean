import Chip8.Memory.Basic
import Mathlib.Order.Bounds.Defs

/-!
# What a program stores

A running program writes to memory by stores, which differ from other writes in one
thing: they spare the character set. A store that reaches beyond the last cell is
refused for that, wherever it starts, and one that fits is refused iff it starts in
the character set.

Results:

* `storeCase`: the three ways that a store can go.
* `byteAt_afterStores`: the character set outlasts all stores.
* `store_spares_charset`: all of this, for every memory, every address and all data.
-/

namespace Chip8.Memory

variable {m : Memory} {start : UInt16} {bytes : List UInt8}

/-- What can come of a store: one rule for each way it can go. -/
inductive StoreCase (m : Memory) (start : UInt16) (bytes : List UInt8) :
    EStateM.Result Fault Memory Unit → Prop
  | done (spares : bytes.length = 0 ∨ 80 ≤ start.toNat ∧ start.toNat + bytes.length ≤ 4096) :
      StoreCase m start bytes (.ok () (m.overwrite start.toNat bytes))
  | beyond (filled : 0 < bytes.length) (outside : 4096 < start.toNat + bytes.length) :
      StoreCase m start bytes (.error (.outOfBounds (start.toNat + bytes.length - 1)) m)
  | guarded (filled : 0 < bytes.length) (inside : start.toNat + bytes.length ≤ 4096)
      (low : start.toNat < 80) :
      StoreCase m start bytes (.error (.readOnly start.toNat) m)

/-- There is no fourth case, and only one of them writes. -/
theorem storeCase (m : Memory) (start : UInt16) (bytes : List UInt8) :
    StoreCase m start bytes ((store start bytes).run m) := by
  rw [run_store]
  by_cases inside : bytes.length = 0 ∨ start.toNat + bytes.length ≤ memorySize
  · rw [if_pos inside]
    by_cases low : bytes.length ≠ 0 ∧ start.toNat < Glyphs.size
    · rw [if_pos low]
      exact .guarded (Nat.pos_of_ne_zero low.1) (inside.resolve_left low.1) low.2
    · rw [if_neg low]
      refine .done ?_
      simp only [Glyphs.size, memorySize] at *
      omega
  · rw [if_neg inside]
    obtain ⟨filled, outside⟩ := not_or.mp inside
    exact .beyond (Nat.pos_of_ne_zero filled) (Nat.lt_of_not_le outside)

/-! ## One store after the other -/

/-- The memory after a store, which may have failed. -/
def afterStore (m : Memory) (start : UInt16) (bytes : List UInt8) : Memory :=
  match (store start bytes).run m with
  | .ok _ left => left
  | .error _ left => left

/-- The memory after all stores of a list, each given by its first address and its bytes. -/
def afterStores (m : Memory) (stores : List (UInt16 × List UInt8)) : Memory :=
  stores.foldl (fun m s => m.afterStore s.1 s.2) m

theorem byteAt_afterStore {a : Nat} (low : a < 80) :
    (m.afterStore start bytes).byteAt a = m.byteAt a := by
  have way := m.storeCase start bytes
  rw [afterStore]
  generalize (store start bytes).run m = result at way
  cases way with
  | beyond | guarded => rfl
  | done spares =>
    obtain empty | ⟨high, inside⟩ := spares
    · rw [List.length_eq_zero_iff.mp empty]
      rfl
    · exact byteAt_overwrite_of_apart m inside (.inl (Nat.lt_of_lt_of_le low high))

/-- No sequence of stores reaches the character set, whichever of them are refused. -/
theorem byteAt_afterStores {a : Nat} (low : a < 80) (m : Memory)
    (stores : List (UInt16 × List UInt8)) : (m.afterStores stores).byteAt a = m.byteAt a := by
  induction stores generalizing m with
  | nil => rfl
  | cons s stores ih => exact (ih (m.afterStore s.1 s.2)).trans (byteAt_afterStore low)

/-! ## All of this -/

/-- A store succeeds iff it is empty or both spares the character set and stays inside memory, and
    then does what a write does that need not spare anything. What lies outside is found first.
    Every store that fails has an address outside or in the character set, and changes nothing; so
    none ever changes the character set. -/
theorem store_spares_charset (m : Memory) (start : UInt16) (bytes : List UInt8) :
    let n := bytes.length
    let stored := (store start bytes).run m
    ((∃ left, stored = .ok () left) ↔
      n = 0 ∨ 80 ≤ start.toNat ∧ start.toNat + n ≤ 4096) ∧
    (∀ left, stored = .ok () left → (writeSlice start bytes).run m = .ok () left) ∧
    (0 < n → 4096 < start.toNat + n → stored = .error (.outOfBounds (start.toNat + n - 1)) m) ∧
    (0 < n → start.toNat + n ≤ 4096 → start.toNat < 80 →
      stored = .error (.readOnly start.toNat) m ∧
        IsLeast {a | start.toNat ≤ a ∧ a < start.toNat + n ∧ a < 80} start.toNat) ∧
    (∀ fault left, stored = .error fault left →
      left = m ∧ ∃ a, start.toNat ≤ a ∧ a < start.toNat + n ∧ (a < 80 ∨ 0xFFF < a)) ∧
    ∀ stores a, a < 80 → (m.afterStores stores).byteAt a = m.byteAt a := by
  intro n stored
  have way : StoreCase m start bytes stored := m.storeCase start bytes
  refine ⟨?_, ?_, ?_, ?_, ?_, fun stores a low => byteAt_afterStores low m stores⟩
  · generalize stored = result at way
    cases way with
    | done spares => exact ⟨fun _ => spares, fun _ => ⟨_, rfl⟩⟩
    | beyond filled outside => exact ⟨nofun, fun spares => by omega⟩
    | guarded filled inside low => exact ⟨nofun, fun spares => by omega⟩
  · intro left succeeds
    generalize stored = result at way succeeds
    cases way with
    | beyond | guarded => cases succeeds
    | done spares =>
      cases succeeds
      exact (run_writeSlice m start bytes).trans (if_pos (spares.imp_right And.right))
  · intro filled outside
    generalize stored = result at way
    cases way with
    | done | guarded => omega
    | beyond => rfl
  · intro filled inside low
    refine ⟨?_, ⟨Nat.le_refl _, by omega, low⟩, fun a among => among.1⟩
    generalize stored = result at way
    cases way with
    | done | beyond => omega
    | guarded => rfl
  · intro fault left fails
    generalize stored = result at way fails
    cases way with
    | done => cases fails
    | beyond filled outside =>
      cases fails
      exact ⟨rfl, start.toNat + n - 1, by omega, by omega, .inr (by omega)⟩
    | guarded filled inside low =>
      cases fails
      exact ⟨rfl, start.toNat, Nat.le_refl _, by omega, .inl low⟩

/-- Stores to a fresh memory: over the end of the character set, right behind it, and over all of
    memory and one byte more, which is found before that it starts in the character set. -/
theorem store_spares_charset_of_three :
    (store 0x4E [1, 2, 3, 4]).run initial = .error (.readOnly 0x4E) initial ∧
      (∃ left, (store 0x50 [1, 2]).run initial = .ok () left ∧
        (writeSlice 0x50 [1, 2]).run initial = .ok () left) ∧
      (store 0 (.replicate 4097 7)).run initial = .error (.outOfBounds 0x1000) initial ∧
      (initial.afterStores [(0x4E, [1, 2, 3, 4]), (0x50, [1, 2]), (0, .replicate 4097 7)]).byteAt
        0x4E = 0x80 := by
  obtain ⟨-, -, -, guarded, -, kept⟩ := store_spares_charset initial 0x4E [1, 2, 3, 4]
  obtain ⟨succeeds, writes, -⟩ := store_spares_charset initial 0x50 [1, 2]
  obtain ⟨-, -, beyond, -⟩ := store_spares_charset initial 0 (.replicate 4097 7)
  obtain ⟨left, stored⟩ := succeeds.mpr (.inr (by decide))
  refine ⟨(guarded (by decide) (by decide) (by decide)).1, ⟨left, stored, writes left stored⟩,
    ?_, ?_⟩
  · rw [List.length_replicate] at beyond
    exact beyond (by decide) (by decide)
  · rw [kept _ 0x4E (by decide), byteAt_initial]
    decide

end Chip8.Memory
