import Chip8.Proofs.Failure
import Chip8.Proofs.Trace

/-!
# What memory holds

Loading a program and the two instructions that store are all that changes memory.
Each of them puts its bytes there as a whole or not at all. So memory holds at each
address what the last of them to cover the address has put there, and a fresh
memory shows through where none of them has.

Results:

* `exists_writes_of_storeDecimal`, `exists_writes_of_storeRegisters`, `stores_of_writes`:
  the bytes that the two instructions store, and that no other stores any.
* `memory_act`, `bounds_of_writes`: what an action writes, and that there are cells
  for all of it.
* `byteAt_after`: a history leaves at each address the last byte written there.
* `memory_after`: what memory holds throughout every history, and that fetches,
  draws and loads read just that.
-/

namespace Chip8

/-- Bytes that are put into memory, and the address of the first of them. -/
structure Write where
  start : Nat
  bytes : List UInt8
deriving DecidableEq, Repr

namespace Write

/-- The byte that a write puts at an address, if it covers the address. -/
def byteAt? (w : Write) (a : Nat) : Option UInt8 :=
  if w.start ≤ a then w.bytes[a - w.start]? else none

/-- The byte that the last of these writes to cover an address puts there. -/
def lastByte (writes : List Write) (a : Nat) : Option UInt8 :=
  writes.reverse.findSome? (·.byteAt? a)

variable {w : Write} {a : Nat}

theorem byteAt?_eq_none_of_lt (h : a < w.start) : w.byteAt? a = none :=
  if_neg (Nat.not_le_of_lt h)

theorem byteAt?_eq_none_of_le (h : w.start + w.bytes.length ≤ a) : w.byteAt? a = none := by
  rw [byteAt?]
  split
  · exact List.getElem?_eq_none (Nat.le_sub_of_add_le' h)
  · rfl

theorem byteAt_overwrite (m : Memory) (a : Nat)
    (inside : w.start + w.bytes.length ≤ memorySize) :
    (m.overwrite w.start w.bytes).byteAt a = (w.byteAt? a).getD (m.byteAt a) := by
  rw [Memory.byteAt_overwrite m w.start w.bytes a inside, byteAt?]
  split <;> rfl

theorem lastByte_concat (writes : List Write) (w : Write) (a : Nat) :
    lastByte (writes ++ [w]) a = (w.byteAt? a).or (lastByte writes a) := by
  rw [lastByte, List.reverse_append, List.findSome?_append]
  simp [lastByte]

end Write

namespace Machine

variable {m : Machine} {a : Action} {w : Write}

/-! ## One action -/

/-- What an action writes, if it succeeds and writes something: a load writes the program, and a
    step what the instruction that it carries out stores at I. -/
def writes (m : Machine) : Action → Option Write
  | .load program =>
    match (load program).run m with
    | .ok _ _ => some ⟨programOffset.toNat, program⟩
    | .error _ _ => none
  | .send _ => none
  | .step =>
    match m.carriesOut with
    | some (.storeDecimal x) => some ⟨m.index.toNat, decimalDigits (m.reg x)⟩
    | some (.storeRegisters x) => some ⟨m.index.toNat, m.registers.upTo x⟩
    | _ => none
  | .takeRedraw => none

theorem writes_load (m : Machine) (program : List UInt8) :
    m.writes (.load program) =
      if program.length ≤ maxProgramSize then some ⟨programOffset.toNat, program⟩ else none := by
  rw [writes, run_load]
  by_cases fits : program.length ≤ maxProgramSize
  · rw [if_pos fits, if_pos fits]
  · rw [if_neg fits, if_neg fits]

theorem writes_step_of_fault {fault : Fault} (h : m.step.fault = some fault) :
    m.writes .step = none := by
  rw [writes, carriesOut_of_fault h]

/-- The digits of a register are three decimal ones, the hundreds first. -/
theorem exists_writes_of_storeDecimal {x : Nibble} (done : m.carriesOut = some (.storeDecimal x)) :
    ∃ hundreds tens units : UInt8,
      m.writes .step = some ⟨m.index.toNat, [hundreds, tens, units]⟩ ∧
      hundreds.toNat ≤ 9 ∧ tens.toNat ≤ 9 ∧ units.toNat ≤ 9 ∧
      100 * hundreds.toNat + 10 * tens.toNat + units.toNat = (m.reg x).toNat := by
  obtain ⟨hundreds, tens, units, digits, bounds⟩ := exists_decimalDigits (m.reg x)
  refine ⟨hundreds, tens, units, ?_, bounds⟩
  rw [writes, done, ← digits]

/-- The registers are stored in order, V0 first. -/
theorem exists_writes_of_storeRegisters {x : Nibble}
    (done : m.carriesOut = some (.storeRegisters x)) :
    ∃ bytes : List UInt8, m.writes .step = some ⟨m.index.toNat, bytes⟩ ∧
      bytes.length = x.val + 1 ∧ ∀ y : Nibble, y ≤ x → bytes[y.val]? = some (m.reg y) := by
  refine ⟨m.registers.upTo x, by rw [writes, done], Registers.length_upTo _ x, ?_⟩
  intro y among
  rw [Registers.getElem?_upTo, if_pos among]
  rfl

/-- No other instruction stores anything. -/
theorem stores_of_writes (h : m.writes .step = some w) : ∃ x,
    m.carriesOut = some (.storeDecimal x) ∨ m.carriesOut = some (.storeRegisters x) := by
  rw [writes] at h
  split at h
  · next x done => exact ⟨x, .inl done⟩
  · next x done => exact ⟨x, .inr done⟩
  · cases h

/-- Memory changes by what an action writes, and in no other way. -/
theorem memory_act (m : Machine) (a : Action) :
    (m.act a).memory = (m.writes a).elim m.memory fun w => m.memory.overwrite w.start w.bytes := by
  cases a with
  | load program =>
    rw [act_load, writes_load]
    split <;> rfl
  | send event => rfl
  | takeRedraw => rfl
  | step =>
    rw [act_step, memory_step, writes]
    cases m.carriesOut with
    | none => rfl
    | some i => cases i <;> rfl

/-- Where a store meets no obstacle there are cells for all of its bytes, and none of them belongs
    to the character set. -/
theorem bounds_of_store {start : UInt16} {last : Nat}
    (clear : Memory.storeFault start (last + 1) = none) :
    Glyphs.size ≤ start.toNat ∧ start.toNat + (last + 1) ≤ memorySize := by
  have inside : start.toNat + (last + 1) ≤ memorySize := by
    apply Nat.le_of_not_lt
    intro beyond
    have refused := Memory.storeFault_eq_some_iff.mpr (.inl ⟨Nat.le_of_lt_succ beyond, rfl⟩)
    rw [clear] at refused
    cases refused
  refine ⟨Nat.le_of_not_lt fun guarded => ?_, inside⟩
  have refused := Memory.storeFault_eq_some_iff.mpr (.inr ⟨inside, guarded, rfl⟩)
  rw [clear] at refused
  cases refused

/-- There are cells for all that is written, and none of it falls on the character set. -/
theorem bounds_of_writes (h : m.writes a = some w) :
    Glyphs.size ≤ w.start ∧ w.start + w.bytes.length ≤ memorySize := by
  cases a with
  | load program =>
    rw [writes_load] at h
    obtain ⟨fits, rfl⟩ := Option.ite_some_none_eq_some.mp h
    show 80 ≤ 512 ∧ 512 + program.length ≤ 4096
    simp only [maxProgramSize] at fits
    omega
  | send event => cases h
  | takeRedraw => cases h
  | step =>
    rw [writes] at h
    split at h
    · next x done =>
      cases h
      exact bounds_of_store (clear_of_carriesOut done)
    · next x done =>
      cases h
      rw [Registers.length_upTo]
      exact bounds_of_store (clear_of_carriesOut done)
    · cases h

theorem byteAt_act (m : Machine) (a : Action) (address : Nat) :
    (m.act a).memory.byteAt address =
      ((m.writes a).bind (·.byteAt? address)).getD (m.memory.byteAt address) := by
  rw [memory_act]
  cases written : m.writes a with
  | none => rfl
  | some w => exact Write.byteAt_overwrite m.memory address (bounds_of_writes written).2

/-! ## Histories -/

/-- What the actions of a history have written, the first write first. -/
def written (m : Machine) : List Action → List Write
  | [] => []
  | a :: history => (m.writes a).toList ++ (m.act a).written history

theorem written_append (m : Machine) (history later : List Action) :
    m.written (history ++ later) = m.written history ++ (m.after history).written later := by
  induction history generalizing m with
  | nil => rfl
  | cons a history ih =>
    rw [List.cons_append, written, written, ih, List.append_assoc]
    rfl

theorem written_concat (m : Machine) (history : List Action) (a : Action) :
    m.written (history ++ [a]) = m.written history ++ ((m.after history).writes a).toList := by
  rw [written_append, written, written, List.append_nil]

/-- The last write to cover an address decides. -/
theorem byteAt_after (m : Machine) (history : List Action) (address : Nat) :
    (m.after history).memory.byteAt address =
      (Write.lastByte (m.written history) address).getD (m.memory.byteAt address) := by
  induction history using List.reverseRecOn with
  | nil => rfl
  | append_singleton history a ih =>
    rw [after_concat, byteAt_act, written_concat, ih]
    cases (m.after history).writes a with
    | none => rw [Option.toList_none, List.append_nil]; rfl
    | some w =>
      rw [Option.toList_some, Write.lastByte_concat, Option.bind_some]
      cases w.byteAt? address <;> rfl

/-! ## What is read -/

theorem spriteRows_eq (m : Machine) (n : Nibble) :
    m.spriteRows n = (List.range n.val).map fun r => m.memory.byteAt (m.index.toNat + r) := by
  rw [spriteRows, List.range'_eq_map_range, List.map_map]
  rfl

theorem reg_of_loadRegisters {x : Nibble} (done : m.carriesOut = some (.loadRegisters x))
    (y : Nibble) :
    m.step.machine.reg y =
      if y ≤ x then m.memory.byteAt (m.index.toNat + y.val) else m.reg y := by
  obtain ⟨after, ran, -, left⟩ := exists_of_carriesOut done rfl
  obtain rfl := of_run_loadRegisters ran
  rw [left]
  show (Registers.restore _ _).get y = _
  rw [Registers.get_restore, List.getElem?_map]
  by_cases among : y ≤ x
  · have within : y.val < x.val + 1 := Nat.lt_succ_of_le among
    rw [if_pos among, List.getElem?_range' within, Nat.one_mul]
    rfl
  · have beyond : x.val + 1 ≤ y.val := Nat.lt_of_not_le among
    rw [if_neg among, List.getElem?_eq_none (by simpa using beyond)]
    rfl

/-- Memory holds at each address the byte that the last write to cover it put there, or what a fresh
    memory holds. A load writes the program, Fx33 the decimal digits of Vx and Fx55 the registers up
    to Vx, and nothing else writes: no other instruction, no load that is refused and no step that
    fails. A load leaves alone what lies behind the program. What is fetched, drawn and loaded is
    what memory holds. -/
theorem memory_after (config : Config) (chance : Generator) (history : List Action) :
    let start := create config chance
    let m := start.after history
    let held := fun a =>
      (Write.lastByte (start.written history) a).getD (Glyphs.charset[a]?.getD 0)
    (∀ a, m.memory.byteAt a = held a) ∧
    (∀ program, m.writes (.load program) =
      if program.length ≤ 3584 then some ⟨0x200, program⟩ else none) ∧
    (∀ x, m.carriesOut = some (.storeDecimal x) → ∃ hundreds tens units : UInt8,
      m.writes .step = some ⟨m.index.toNat, [hundreds, tens, units]⟩ ∧
      hundreds.toNat ≤ 9 ∧ tens.toNat ≤ 9 ∧ units.toNat ≤ 9 ∧
      100 * hundreds.toNat + 10 * tens.toNat + units.toNat = (m.reg x).toNat) ∧
    (∀ x, m.carriesOut = some (.storeRegisters x) → ∃ bytes : List UInt8,
      m.writes .step = some ⟨m.index.toNat, bytes⟩ ∧ bytes.length = x.val + 1 ∧
      ∀ y : Nibble, y ≤ x → bytes[y.val]? = some (m.reg y)) ∧
    (∀ w, m.writes .step = some w → ∃ x,
      m.carriesOut = some (.storeDecimal x) ∨ m.carriesOut = some (.storeRegisters x)) ∧
    (∀ a, start.written (history ++ [a]) = start.written history ++ (m.writes a).toList) ∧
    (m.step.fault ≠ none → m.writes .step = none) ∧
    (∀ program a, 0x200 + program.length ≤ a →
      (m.act (.load program)).memory.byteAt a = held a) ∧
    (m.counter.toNat + 1 < 4096 → m.memory.readWord m.counter =
      .ok (Word.ofBytes (held m.counter.toNat) (held (m.counter.toNat + 1)))) ∧
    (∀ i, m.carriesOut = some i → Instruction.decode
      (Word.ofBytes (held m.counter.toNat) (held (m.counter.toNat + 1))) = some i) ∧
    (∀ x y n, m.carriesOut = some (.draw x y n) → m.step.machine.display =
      (m.display.draw config.edge (Sprite.origin (m.reg x) (m.reg y))
        ((List.range n.val).map fun r => held (m.index.toNat + r))).1) ∧
    ∀ x, m.carriesOut = some (.loadRegisters x) → ∀ y, m.step.machine.reg y =
      if y ≤ x then held (m.index.toNat + y.val) else m.reg y := by
  intro start m held
  have holds : ∀ a, m.memory.byteAt a = held a := by
    intro a
    rw [byteAt_after start history a]
    exact congrArg _ (Memory.byteAt_initial a)
  have fetched : m.counter.toNat + 1 < 4096 → m.memory.readWord m.counter =
      .ok (Word.ofBytes (held m.counter.toNat) (held (m.counter.toNat + 1))) := by
    intro inside
    rw [← holds, ← holds]
    exact Memory.readWord_eq_ok_iff.mpr ⟨inside, rfl⟩
  refine ⟨holds, m.writes_load, fun x done => exists_writes_of_storeDecimal done,
    fun x done => exists_writes_of_storeRegisters done, fun w h => stores_of_writes h,
    start.written_concat history, ?_, ?_, fetched, ?_, ?_, ?_⟩
  · intro fails
    obtain ⟨fault, failed⟩ := Option.ne_none_iff_exists'.mp fails
    exact writes_step_of_fault failed
  · intro program a behind
    rw [byteAt_act, writes_load, ← holds a]
    split
    · rw [Option.bind_some, Write.byteAt?_eq_none_of_le behind]
      rfl
    · rfl
  · intro i done
    obtain ⟨-, -, word, fetch, decoded⟩ := of_carriesOut done
    have inside := (Memory.readWord_eq_ok_iff.mp fetch).1
    rw [fetched inside] at fetch
    cases fetch
    exact decoded
  · intro x y n done
    have same : m.config = config := config_after start history
    rw [display_step, done, ← same]
    simp only [← holds, ← spriteRows_eq]
    rfl
  · intro x done y
    rw [reg_of_loadRegisters done, holds]

/-! ## A program that changes itself -/

theorem upTo_set_zero (v : Registers) (value : UInt8) : (v.set 0 value).upTo 0 = [value] := by
  have first := (v.set 0 value).getElem?_upTo 0 0
  rw [if_pos (Fin.le_refl _), Registers.get_set, if_pos rfl] at first
  apply List.ext_getElem?
  intro i
  cases i with
  | zero => exact first
  | succ i => rw [List.getElem?_eq_none (by simp), List.getElem?_eq_none (by simp)]

/-- V0 is set to 0x12, I to 0x206, and V0 is stored there. -/
theorem written_of_storing (running : m.awaiting = none)
    (first : m.memory.readWord m.counter = .ok 0x6012)
    (second : m.memory.readWord (m.counter + 2) = .ok 0xA206)
    (third : m.memory.readWord (m.counter + 2 + 2) = .ok 0xF055) :
    m.written [.step, .step, .step] = [⟨0x206, [0x12]⟩] ∧
      (m.after [.step, .step, .step]).counter = m.counter + 2 + 2 + 2 := by
  -- the machines before the second and the third step
  let m₁ := (m.drained.advance.setReg 0 0x12).tick
  let m₂ := { m₁.drained.advance with index := Word.ofAddress 0x206 }.tick
  have done : m.carriesOut = some (.loadValue 0 0x12) :=
    carriesOut_of_clear running first (by decide) rfl
  have next : m.act .step = m₁ :=
    congrArg Outcome.machine
      (step_complete running first (i := .loadValue 0 0x12) (by decide) rfl running)
  have done₁ : m₁.carriesOut = some (.loadIndex 0x206) :=
    carriesOut_of_clear (m := m₁) running second (by decide) rfl
  have next₁ : m₁.act .step = m₂ :=
    congrArg Outcome.machine
      (step_complete (m := m₁) running second (i := .loadIndex 0x206) (by decide) rfl running)
  have done₂ : m₂.carriesOut = some (.storeRegisters 0) :=
    carriesOut_of_clear (m := m₂) running third (by decide) rfl
  obtain ⟨after, ran, -, left⟩ := exists_of_carriesOut done₂ rfl
  rw [execute, run_get_bind] at ran
  obtain rfl := of_run_storeAtIndex ran
  constructor
  · rw [written, written, written, written, next, next₁, writes, writes, writes, done, done₁,
      done₂]
    exact congrArg (fun bytes => [Write.mk 0x206 bytes]) (upTo_set_zero m.registers 0x12)
  · rw [after_cons, after_cons, after_cons, next, next₁, act_step, left]
    rfl

/-- A program that stores over the word behind its last instruction, and its first three steps. -/
def storingHistory : List Action :=
  [.load [0x60, 0x12, 0xA2, 0x06, 0xF0, 0x55, 0xFF, 0x06], .step, .step, .step]

theorem written_storingHistory :
    (create {} (.ofSeed 0)).written storingHistory =
        [⟨0x200, [0x60, 0x12, 0xA2, 0x06, 0xF0, 0x55, 0xFF, 0x06]⟩, ⟨0x206, [0x12]⟩] ∧
      ((create {} (.ofSeed 0)).after storingHistory).counter = 0x206 := by
  have loaded : started [0x60, 0x12, 0xA2, 0x06, 0xF0, 0x55, 0xFF, 0x06] = _ :=
    started_eq (by decide)
  obtain ⟨stored, counter⟩ := written_of_storing
    (m := started [0x60, 0x12, 0xA2, 0x06, 0xF0, 0x55, 0xFF, 0x06])
    (by rw [loaded]; rfl)
    (readWord_started_at (k := 0) (by decide) rfl rfl rfl)
    (readWord_started_at (k := 2) (by decide) rfl rfl rfl)
    (readWord_started_at (k := 4) (by decide) rfl rfl rfl)
  constructor
  · rw [storingHistory, written, ← after_nil ((create {} _).act _), ← after_cons, ← started,
      stored, writes_load]
    rfl
  · rw [storingHistory, after_cons, ← after_nil ((create {} _).act _), ← after_cons, ← started,
      counter, loaded]
    rfl

/-- What was stored over a program is executed as stored, and a shorter program that is loaded later
    leaves it in place. -/
theorem memory_after_storing :
    let m := (create {} (.ofSeed 0)).after storingHistory
    m.memory.byteAt 0x206 = 0x12 ∧ m.memory.byteAt 0x207 = 0x06 ∧ m.memory.byteAt 0 = 0xF0 ∧
      m.memory.byteAt 0x300 = 0 ∧ m.memory.readWord m.counter = .ok 0x1206 ∧
      (m.act (.load [0xEE])).memory.byteAt 0x206 = 0x12 := by
  obtain ⟨writes, counter⟩ := written_storingHistory
  obtain ⟨holds, -, -, -, -, -, -, behind, fetches, -⟩ :=
    memory_after {} (.ofSeed 0) storingHistory
  rw [writes] at holds behind fetches
  rw [counter] at fetches
  exact ⟨holds 0x206, holds 0x207, holds 0, holds 0x300,
    counter ▸ fetches (by decide), behind [0xEE] 0x206 (by decide)⟩

end Machine

end Chip8
