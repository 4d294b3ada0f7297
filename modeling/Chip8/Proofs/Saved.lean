import Chip8.Proofs.Access
import Chip8.Proofs.Arithmetic
import Chip8.Proofs.Executed
import Chip8.Proofs.Writes

/-!
# Saved registers

A program saves registers at I and loads them again later. In between it may do anything
but write where they are, and anything may be done to it from outside. What it loads is
what it saved: as many registers as it asks for, or the decimal digits of one.

Results:

* `byteAt_act_of_not_touches`, `byteAt_after_of_spares`: an action keeps a byte that it does not
  touch, and a history those that it spares.
* `step_of_nextLoads`: a load of cells that exist succeeds, and what it does.
* `reg_of_saved`: what is loaded from bytes that were stored and spared.
* `saved_registers_come_back`: what is loaded is what was saved.
-/

namespace Chip8

/-- The number of bytes that the word of these nibbles stores at I. -/
def Nibbles.stored (d : Nibbles) : Nat :=
  match d.kind, d.y, d.n with
  | 0xF, 0x3, 0x3 => 3
  | 0xF, 0x5, 0x5 => d.x.val + 1
  | _, _, _ => 0

namespace Machine

variable {m : Machine} {a : Action} {w : Write} {i : Instruction} {x z : Nibble}

/-- Whether an action puts a byte at the address: a load does that is not refused and covers the
    address, and a step does whose word stores there. -/
def Touches (m : Machine) (address : Nat) : Action → Prop
  | .load program =>
    program.length ≤ 3584 ∧ 0x200 ≤ address ∧ address < 0x200 + program.length
  | .step => ∃ d, m.executed = some d ∧
    m.index.toNat ≤ address ∧ address < m.index.toNat + d.stored
  | .send _ => False
  | .takeRedraw => False

/-- Whether no action of a history puts a byte at one of the `length` addresses from `start` on. -/
def Spares (m : Machine) (start length : Nat) : List Action → Prop
  | [] => True
  | a :: later =>
    (∀ k < length, ¬ m.Touches (start + k) a) ∧ (m.act a).Spares start length later

/-- Whether a machine is running and the word at its counter loads V0 to Vz from I. -/
def NextLoads (m : Machine) (z : Nibble) : Prop :=
  m.awaiting = none ∧ m.memory.readWord m.counter = .ok (Nibbles.toWord ⟨0xF, z, 0x6, 0x5⟩)

/-! ## What is kept -/

theorem machine_of_storeAtIndex {bytes : List UInt8} (done : m.carriesOut = some i)
    (goesOn : i.awaits none = none)
    (stores : (execute m.freshPress i).run m.drained.advance =
      (storeAtIndex bytes).run m.drained.advance) :
    m.step.machine =
      { m.drained.advance with memory := m.memory.overwrite m.index.toNat bytes }.tick := by
  obtain ⟨after, ran, -, left⟩ := exists_of_carriesOut done goesOn
  rw [stores] at ran
  obtain rfl := of_run_storeAtIndex ran
  exact left

/-- What a step writes is what its word stores at I, and is all that the step does but to go on. -/
theorem of_writes_step (h : m.writes .step = some w) :
    w.start = m.index.toNat ∧ (∃ d, m.executed = some d ∧ d.stored = w.bytes.length) ∧
      m.step.machine =
        { m.drained.advance with memory := m.memory.overwrite w.start w.bytes }.tick := by
  rw [writes] at h
  split at h
  · next x done =>
    cases h
    obtain ⟨d, executed, rfl⟩ := executed_of_carriesOut done
    exact ⟨rfl, ⟨_, executed, rfl⟩, machine_of_storeAtIndex done rfl (run_get_bind _ _)⟩
  · next x done =>
    cases h
    obtain ⟨d, executed, rfl⟩ := executed_of_carriesOut done
    exact ⟨rfl, ⟨_, executed, (Registers.length_upTo _ x).symm⟩,
      machine_of_storeAtIndex done rfl (run_get_bind _ _)⟩
  · cases h

theorem touches_of_writes (h : m.writes a = some w) {address : Nat} (first : w.start ≤ address)
    (last : address < w.start + w.bytes.length) : m.Touches address a := by
  cases a with
  | load program =>
    rw [writes_load] at h
    obtain ⟨fits, rfl⟩ := Option.ite_some_none_eq_some.mp h
    exact ⟨fits, first, last⟩
  | send event => cases h
  | takeRedraw => cases h
  | step =>
    obtain ⟨start, ⟨d, executed, length⟩, -⟩ := of_writes_step h
    exact ⟨d, executed, start ▸ first, by rw [length, ← start]; exact last⟩

theorem byteAt_act_of_not_touches {address : Nat} (spared : ¬ m.Touches address a) :
    (m.act a).memory.byteAt address = m.memory.byteAt address := by
  rw [memory_act]
  cases written : m.writes a with
  | none => rfl
  | some w =>
    apply Memory.byteAt_overwrite_of_apart _ (bounds_of_writes written).2
    by_contra within
    exact spared (touches_of_writes written (by omega) (by omega))

/-- The induction is on the history, from its first action on. -/
theorem byteAt_after_of_spares {start length k : Nat} {later : List Action}
    (spares : m.Spares start length later) (among : k < length) :
    (m.after later).memory.byteAt (start + k) = m.memory.byteAt (start + k) := by
  induction later generalizing m with
  | nil => rfl
  | cons a later ih =>
    rw [after_cons, ih spares.2, byteAt_act_of_not_touches (spares.1 k among)]

/-- A byte that a step has stored, after a history that spares it. -/
theorem byteAt_of_saved {later : List Action} {length k : Nat} {b : UInt8}
    (stored : m.writes .step = some w) (place : w.bytes[k]? = some b)
    (spares : m.step.machine.Spares w.start length later) (among : k < length) :
    (m.step.machine.after later).memory.byteAt (w.start + k) = b := by
  rw [byteAt_after_of_spares spares among, ← act_step, memory_act, stored]
  exact Memory.byteAt_overwrite_at _ (bounds_of_writes stored).2 place

/-! ## What is loaded -/

/-- A load fails only for want of cells. -/
theorem step_of_nextLoads (next : m.NextLoads z)
    (inside : m.index.toNat + (z.val + 1) ≤ memorySize) :
    m.step.fault = none ∧ m.step.machine.index = m.index ∧
      ∀ k, m.step.machine.reg k =
        if k ≤ z then m.memory.byteAt (m.index.toNat + k.val) else m.reg k := by
  obtain ⟨running, fetch⟩ := next
  have clear : Memory.accessFault m.index (z.val + 1) = none := if_pos (.inr inside)
  have done : m.carriesOut = some (.loadRegisters z) := carriesOut_of_toWord running fetch rfl clear
  have index := m.leaves_step.index
  rw [done] at index
  exact ⟨(of_carriesOut done).2.1, index, reg_of_loadRegisters done⟩

/-- What is loaded from where a step has stored bytes, after a history that spares them. -/
theorem reg_of_saved {later : List Action} {length : Nat} (stored : m.writes .step = some w)
    (start : w.start = m.index.toNat) (sized : w.bytes.length = length)
    (spares : m.step.machine.Spares m.index.toNat length later) (short : z.val < length)
    (index : (m.step.machine.after later).index = m.index)
    (next : (m.step.machine.after later).NextLoads z) :
    let after := m.step.machine.after later
    after.step.fault = none ∧ after.step.machine.index = m.index ∧
      ∀ k, if k ≤ z then w.bytes[k.val]? = some (after.step.machine.reg k)
        else after.step.machine.reg k = after.reg k := by
  intro after
  have inside := (bounds_of_writes stored).2
  rw [start, sized] at inside
  obtain ⟨succeeds, same, loads⟩ := step_of_nextLoads next (by rw [index]; omega)
  refine ⟨succeeds, same.trans index, fun k => ?_⟩
  rw [loads k, index]
  split
  · next below =>
    have among : k.val < length := Nat.lt_of_le_of_lt below short
    have place : w.bytes[k.val]? = some w.bytes[k.val] := List.getElem?_eq_getElem (sized ▸ among)
    rw [place, ← start, byteAt_of_saved stored place (start ▸ spares) among]
  · rfl

theorem writes_of_storeRegisters (h : m.executed = some ⟨0xF, x, 0x5, 0x5⟩) :
    m.writes .step = some ⟨m.index.toNat, m.registers.upTo x⟩ := by
  have done : m.carriesOut = some (.storeRegisters x) := carriesOut_of_executed h rfl
  rw [writes, done]

theorem writes_of_storeDecimal (h : m.executed = some ⟨0xF, x, 0x3, 0x3⟩) :
    m.writes .step = some ⟨m.index.toNat, decimalDigits (m.reg x)⟩ := by
  have done : m.carriesOut = some (.storeDecimal x) := carriesOut_of_executed h rfl
  rw [writes, done]

/-- Whatever is done to a machine after Fx55, if it spares the bytes that were stored then Fz65 at
    the same I succeeds and loads the values that V0 to Vz had, for each z up to x; the other
    registers and I are kept. After Fx33 it is F265 that loads the decimal digits of Vx. -/
theorem saved_registers_come_back (m : Machine) (later : List Action) :
    let after := m.step.machine.after later
    let left := after.step.machine
    (∀ x z, m.executed = some ⟨0xF, x, 0x5, 0x5⟩ →
      m.step.machine.Spares m.index.toNat (x.val + 1) later →
      z ≤ x → after.index = m.index → after.NextLoads z →
      after.step.fault = none ∧ left.index = m.index ∧
        ∀ k, left.reg k = if k ≤ z then m.reg k else after.reg k) ∧
    ∀ x, m.executed = some ⟨0xF, x, 0x3, 0x3⟩ →
      m.step.machine.Spares m.index.toNat 3 later →
      after.index = m.index → after.NextLoads 2 →
      after.step.fault = none ∧ left.index = m.index ∧
        (∀ k, 2 < k → left.reg k = after.reg k) ∧
        (left.reg 0).toNat ≤ 9 ∧ (left.reg 1).toNat ≤ 9 ∧ (left.reg 2).toNat ≤ 9 ∧
        100 * (left.reg 0).toNat + 10 * (left.reg 1).toNat + (left.reg 2).toNat =
          (m.reg x).toNat := by
  intro after left
  constructor
  · intro x z executed spares short index next
    obtain ⟨succeeds, same, loads⟩ := reg_of_saved (writes_of_storeRegisters executed) rfl
      (Registers.length_upTo _ x) spares (Nat.lt_succ_of_le short) index next
    refine ⟨succeeds, same, fun k => ?_⟩
    have loaded := loads k
    split
    · next below =>
      rw [if_pos below, Registers.getElem?_upTo, if_pos (Fin.le_trans below short)] at loaded
      exact (Option.some.inj loaded).symm
    · next beyond => rwa [if_neg beyond] at loaded
  · intro x executed spares index next
    obtain ⟨hundreds, tens, units, digits, bounds⟩ := exists_decimalDigits (m.reg x)
    obtain ⟨succeeds, same, loads⟩ := reg_of_saved (writes_of_storeDecimal executed) rfl
      rfl spares (show 2 < 3 by decide) index next
    rw [digits] at loads
    have first : hundreds = left.reg 0 := Option.some.inj (loads 0)
    have second : tens = left.reg 1 := Option.some.inj (loads 1)
    have third : units = left.reg 2 := Option.some.inj (loads 2)
    rw [first, second, third] at bounds
    refine ⟨succeeds, same, fun k beyond => ?_, bounds⟩
    have kept := loads k
    rwa [if_neg (Fin.not_le.mpr beyond)] at kept

/-! ## A program that saves, computes and loads -/


/-- A step that sets V0 to 7 spares everything, and what it changes. -/
theorem after_setting (running : m.awaiting = none)
    (fetch : m.memory.readWord m.counter = .ok 0x6007) :
    (∀ start length, m.Spares start length [.step]) ∧
      m.after [.step] = (m.drained.advance.setReg 0 7).tick := by
  have done : m.carriesOut = some (.loadValue 0 7) :=
    carriesOut_of_clear running fetch (by decide) rfl
  refine ⟨fun start length => ⟨?_, trivial⟩, congrArg Outcome.machine
    (step_complete running fetch (i := .loadValue 0 7) (by decide) rfl running)⟩
  rintro k - ⟨d, executed, first, last⟩
  obtain ⟨d', executed', rfl⟩ := executed_of_carriesOut done
  rw [executed'] at executed
  cases executed
  exact Nat.lt_irrefl _ (Nat.lt_of_le_of_lt first last)

/-- A program that stores, sets V0 to 7, and loads V0 to Vz. -/
def savingProgram (store : Nibbles) (z : Nibble) : List UInt8 :=
  let load : Nibbles := ⟨0xF, z, 0x6, 0x5⟩
  [Word.high store.toWord, Word.low store.toWord, 0x60, 0x07, Word.high load.toWord,
    Word.low load.toWord]

/-- A machine with 203 in V0 and that program at its counter. -/
def saving (index : UInt16) (store : Nibbles) (z : Nibble) : Machine :=
  { create {} (.ofSeed 0) with
    memory := Memory.initial.overwrite 0x200 (savingProgram store z)
    registers := Registers.zero.set 0 203
    index := index }

theorem readWord_savingProgram {cells : Memory} {store : Nibbles} {address word : UInt16} (k : Nat)
    (place : address.toNat = 0x200 + k)
    (first : (savingProgram store z)[k]? = some (Word.high word))
    (second : (savingProgram store z)[k + 1]? = some (Word.low word)) :
    (cells.overwrite 0x200 (savingProgram store z)).readWord address = .ok word := by
  apply Memory.readWord_overwrite_at cells _ place first second
  show 0x200 + 6 ≤ memorySize
  decide

/-- The rest of the program is carried out as it was if nothing was stored over it. -/
theorem after_saving {cells : Memory} {store : Nibbles} (stored : m.writes .step = some w)
    (behind : 0x206 ≤ w.start) (running : m.awaiting = none) (counter : m.counter = 0x200)
    (loaded : m.memory = cells.overwrite 0x200 (savingProgram store z)) :
    let later := m.step.machine.after [.step]
    (∀ start length, m.step.machine.Spares start length [.step]) ∧
      later.index = m.index ∧ later.NextLoads z ∧ later.reg 0 = 7 := by
  obtain ⟨-, -, left⟩ := of_writes_step stored
  have counter' : m.counter + 2 = 0x202 := by rw [counter]; rfl
  have kept : ∀ address : UInt16, address.toNat + 2 ≤ 0x206 →
      (m.memory.overwrite w.start w.bytes).readWord address = m.memory.readWord address :=
    fun address among => Memory.readWord_overwrite_of_apart _ (bounds_of_writes stored).2
      (.inl (Nat.le_trans among behind))
  rw [left]
  generalize saved : { m.drained.advance with
    memory := m.memory.overwrite w.start w.bytes }.tick = next
  have fetch : next.memory.readWord next.counter = .ok 0x6007 := by
    rw [← saved]
    show (m.memory.overwrite w.start w.bytes).readWord (m.counter + 2) = _
    rw [counter', kept _ (by decide), loaded]
    exact readWord_savingProgram 2 rfl rfl rfl
  obtain ⟨spares, after⟩ := after_setting (by rw [← saved]; exact running) fetch
  rw [after]
  refine ⟨spares, by rw [← saved]; rfl, ⟨?_, ?_⟩, Registers.get_set _ 0 0 7⟩
  · rw [← saved]
    exact running
  · rw [← saved]
    show (m.memory.overwrite w.start w.bytes).readWord (m.counter + 2 + 2) = _
    rw [counter', kept _ (by decide), loaded]
    exact readWord_savingProgram 4 rfl rfl rfl

/-- V0 comes back from the last byte of memory, and its decimal digits from the last three. -/
theorem saved_registers_come_back_from_end :
    let m := saving 0xFFF ⟨0xF, 0, 0x5, 0x5⟩ 0
    let m' := saving 0xFFD ⟨0xF, 0, 0x3, 0x3⟩ 2
    let later := m.step.machine.after [.step]
    let later' := m'.step.machine.after [.step]
    later.reg 0 = 7 ∧ later.step.fault = none ∧ later.step.machine.reg 0 = 203 ∧
      later'.reg 0 = 7 ∧ later'.step.fault = none ∧ (later'.step.machine.reg 0).toNat = 2 ∧
      (later'.step.machine.reg 1).toNat = 0 ∧ (later'.step.machine.reg 2).toNat = 3 := by
  intro m m'
  have done : m.carriesOut = some (.storeRegisters 0) :=
    carriesOut_of_toWord rfl (readWord_savingProgram 0 rfl rfl rfl) rfl (by decide)
  have done' : m'.carriesOut = some (.storeDecimal 0) :=
    carriesOut_of_toWord rfl (readWord_savingProgram 0 rfl rfl rfl) rfl (by decide)
  obtain ⟨d, executed, rfl⟩ := executed_of_carriesOut done
  obtain ⟨d', executed', rfl⟩ := executed_of_carriesOut done'
  obtain ⟨spares, index, next, changed⟩ :=
    after_saving (writes_of_storeRegisters executed) (by decide) rfl rfl rfl
  obtain ⟨spares', index', next', changed'⟩ :=
    after_saving (writes_of_storeDecimal executed') (by decide) rfl rfl rfl
  obtain ⟨succeeds, -, loads⟩ := (saved_registers_come_back m [.step]).1 0 0 executed
    (spares _ _) (Fin.le_refl 0) index next
  obtain ⟨succeeds', -, -, first, second, third, digits⟩ :=
    (saved_registers_come_back m' [.step]).2 0 executed' (spares' _ _) index' next'
  have held : m.reg 0 = 203 := rfl
  have held' : (m'.reg 0).toNat = 203 := rfl
  have loaded := loads 0
  rw [if_pos (Fin.le_refl 0), held] at loaded
  rw [held'] at digits
  refine ⟨changed, succeeds, loaded, changed', succeeds', ?_, ?_, ?_⟩
  · omega
  · omega
  · omega

end Machine

end Chip8
