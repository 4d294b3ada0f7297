import Chip8.Proofs.BareMachine
import Chip8.Proofs.Trace

/-!
# Every operation is defined

Whatever is done to a machine in bare numbers, it never comes to an operation that
is not defined: it is at every time what the machine is whose types leave no room for
such an operation, and its next step is what the step of that machine is.

Results:

* `run_execute`, `run_step`: what an instruction and a step do in bare numbers is
  what they do to a machine.
* `act_bare`: so it is with everything else that is done to a machine.
* `never_aborts`: no history of a fresh machine comes to an operation that is not
  defined, and no step after it does.
-/

namespace Chip8

open Checked

namespace Machine

/-- A machine in bare numbers. -/
def bare (m : Machine) : BareMachine where
  config := m.config
  cells := m.memory.cells
  registers := m.registers.values
  index := m.index
  counter := m.counter
  slots := m.stack.slots
  depth := m.stack.depth
  pixels := m.display.pixels
  redraw := m.redraw
  timers := m.timers
  down := m.keypad.held.down
  pending := m.keypad.pending.map KeyEvent.bare
  awaiting := m.awaiting.map Nibble.byte
  generator := m.generator

end Machine

/-- What a command leaves, in bare numbers. -/
def Bare.result {α : Type} : EStateM.Result Fault Machine α → EStateM.Result Stop BareMachine α
  | .ok a m => .ok a m.bare
  | .error fault m => .error (.fault fault) m.bare

namespace BareMachine

/-! ## Commands -/

theorem run_bind_of_ok {α β : Type} {command : Command α} {b b' : BareMachine} {a : α}
    (ran : command.run b = .ok a b') (next : α → Command β) :
    (command >>= next).run b = (next a).run b' := by
  rw [EStateM.run_bind, ran]

theorem run_check_bind {α β : Type} (a : α) (next : α → Command β) (b : BareMachine) :
    (ofExcept (.ok a : Except Stop α) >>= next).run b = (next a).run b := rfl

theorem run_set_bind {α : Type} (b b' : BareMachine) (next : PUnit → Command α) :
    (set b' >>= next).run b = (next ⟨⟩).run b' := rfl

/-! ## Registers and keys -/

theorem run_register (m : Machine) (x : Nibble) :
    (register (Nibble.byte x)).run m.bare = .ok (m.reg x) m.bare := by
  rw [register, run_get_bind, run_ofExcept, entry_byte]
  rfl

theorem run_setRegister (m : Machine) (x : Nibble) (value : UInt8) :
    (setRegister (Nibble.byte x) value).run m.bare = .ok () (m.setReg x value).bare := by
  rw [setRegister, run_get_bind, replace_byte, run_check_bind]
  rfl

theorem run_setFlag (m : Machine) (b : Bool) :
    (setRegister 15 (if b then 1 else 0)).run m.bare =
      .ok () { m with registers := m.registers.setFlag b }.bare :=
  run_setRegister m Registers.flag _

theorem run_compute (m : Machine) (x y : Nibble) (operation : UInt8 → UInt8 → Computed) :
    (compute (Nibble.byte x) (Nibble.byte y) operation).run m.bare =
      .ok () (m.putReg x (operation (m.reg x) (m.reg y))).bare := by
  rw [compute, run_bind_of_ok (run_register m x), run_bind_of_ok (run_register m y)]
  generalize operation (m.reg x) (m.reg y) = outcome
  rw [run_bind_of_ok (run_setRegister m x outcome.value), Machine.putReg, Registers.put]
  cases outcome.flag with
  | none => rfl
  | some b => exact run_setFlag (m.setReg x outcome.value) b

theorem run_isDown (m : Machine) (key : UInt8) :
    (isDown key).run m.bare = .ok (m.keypad.isDown key) m.bare := by
  rw [isDown, run_get_bind, Nibble.and_eq_byte, run_ofExcept, entry_byte]
  rfl

theorem run_holds (m : Machine) {d : Nibbles} {condition : Condition}
    (spelled : Instruction.Spells d (.skip condition)) :
    (holds d.bare condition).run m.bare = .ok (m.holds condition) m.bare := by
  obtain rfl := spelled
  cases condition with
  | equalValue x value | notEqualValue x value =>
    refine (run_bind_of_ok (run_register m x) _).trans ?_
    rw [Instruction.toNibbles, Nibbles.byte_bare_ofByte]
    rfl
  | equalRegister x y | notEqualRegister x y =>
    refine (run_bind_of_ok (run_register m x) _).trans ?_
    exact run_bind_of_ok (run_register m y) _
  | keyDown x =>
    refine (run_bind_of_ok (run_register m x) _).trans ?_
    exact run_isDown m (m.reg x)
  | keyUp x =>
    refine (run_bind_of_ok (run_register m x) _).trans ?_
    exact run_bind_of_ok (run_isDown m (m.reg x)) _

/-! ## The call stack and memory -/

theorem run_push (m : Machine) (address : UInt16) :
    (push address).run m.bare = Bare.result ((Machine.onStack (CallStack.push address)).run m) := by
  rw [push, run_get_bind, Machine.onStack, run_zoom]
  by_cases full : m.stack.depth = stackDepth
  · rw [CallStack.run_push_of_full full, if_pos (show m.bare.depth = stackDepth from full)]
    rfl
  · have room : m.stack.depth < stackDepth := Nat.lt_of_le_of_ne m.stack.depth_le full
    have pushed : (CallStack.push address).run m.stack =
        .ok () ⟨m.stack.slots.set m.stack.depth address, m.stack.depth + 1, room⟩ := by
      simp [CallStack.push, room]
    have sum_depth : sum lengthLimit m.bare.depth 1 = .ok (m.bare.depth + 1) := by
      have below : m.bare.depth ≤ 16 := m.stack.depth_le
      apply sum_of_lt
      simp only [lengthLimit, UInt64.size]
      omega
    rw [pushed, if_neg (show ¬ m.bare.depth = stackDepth from full),
      replace_of_lt (show m.bare.depth < stackDepth from room), run_check_bind, sum_depth]
    rfl

theorem run_pop (m : Machine) :
    pop.run m.bare = Bare.result ((Machine.onStack CallStack.pop).run m) := by
  have below := m.stack.depth_le
  rw [pop, run_get_bind, Machine.onStack, run_zoom]
  by_cases empty : m.stack.depth = 0
  · rw [CallStack.run_pop_of_empty empty, if_pos (show m.bare.depth = 0 from empty)]
    rfl
  · have stored : 0 < m.stack.depth := Nat.pos_of_ne_zero empty
    have popped : CallStack.pop.run m.stack =
        .ok m.stack.slots[m.stack.depth - 1] ⟨m.stack.slots, m.stack.depth - 1, by omega⟩ := by
      simp only [CallStack.pop, EStateM.run_bind, EStateM.run_get, dif_pos stored]
      rfl
    rw [popped, if_neg (show ¬ m.bare.depth = 0 from empty),
      difference_of_le (show 1 ≤ m.bare.depth from stored), run_check_bind]
    have slot : entry m.stack.slots.toList (m.stack.depth - 1) =
        .ok m.stack.slots[m.stack.depth - 1] := entry_toList (by omega)
    show (ofExcept (entry m.stack.slots.toList (m.stack.depth - 1)) : Command UInt16).run _ = _
    rw [slot]
    rfl

theorem run_storeAtIndex (m : Machine) {bytes : List UInt8} (sized : bytes.length < sliceLimit) :
    (storeAtIndex bytes).run m.bare = Bare.result ((Machine.storeAtIndex bytes).run m) := by
  have stored : store m.bare.cells m.bare.index bytes = _ := store_eq m.memory m.index sized
  rw [storeAtIndex, run_get_bind, Machine.run_storeAtIndex, stored]
  cases Memory.storeFault m.index bytes.length <;> rfl

theorem run_loadFromIndex (m : Machine) {length : Nat} (sized : length < sliceLimit) :
    (loadFromIndex length).run m.bare = Bare.result ((Machine.loadFromIndex length).run m) := by
  have read : readSlice m.bare.cells m.bare.index length = _ :=
    readSlice_eq m.memory m.index sized
  rw [loadFromIndex, run_get_bind, run_ofExcept, Machine.run_loadFromIndex, read]
  cases Memory.accessFault m.index length <;> rfl

/-! ## One instruction -/

theorem length_lt_sliceLimit {length : Nat} (short : length ≤ 16) : length < sliceLimit := by
  simp only [sliceLimit, UInt64.size]
  omega

theorem sum_byte (x : Nibble) : sum lengthLimit (Nibble.byte x).toNat 1 = .ok (x.val + 1) := by
  have := x.isLt
  rw [Nibble.toNat_byte]
  exact sum_of_lt (by simp only [lengthLimit, UInt64.size]; omega)

theorem run_draw (m : Machine) (fresh : Option Nibble) (x y n : Nibble) :
    (draw (Nibble.byte x) (Nibble.byte y) (Nibble.byte n)).run m.bare =
      Bare.result ((Machine.execute fresh (.draw x y n)).run m) := by
  have short : (Nibble.byte n).toNat ≤ 16 := by
    rw [Nibble.toNat_byte]
    exact Nat.le_of_lt n.isLt
  rw [draw, run_bind_of_ok (run_register m x), run_bind_of_ok (run_register m y), Machine.execute,
    EStateM.run_bind, EStateM.run_bind, run_loadFromIndex m (length_lt_sliceLimit short),
    Nibble.toNat_byte, Machine.run_loadFromIndex]
  cases Memory.accessFault m.index n.val with
  | some fault => rfl
  | none =>
    have height : ((List.range' m.index.toNat n.val).map m.memory.byteAt).length ≤ 16 := by
      rw [List.length_map, List.length_range']
      exact Nat.le_of_lt n.isLt
    generalize (List.range' m.index.toNat n.val).map m.memory.byteAt = rows at height
    have drawn := Bare.drawRows_origin m.display m.config.edge (m.reg x) (m.reg y) height
    generalize drawn_eq : m.display.draw m.config.edge (Sprite.origin (m.reg x) (m.reg y)) rows =
      picture at drawn
    have flagged := run_setFlag { m with display := picture.1 } picture.2
    simp only [Bare.result, run_get_bind, Machine.bare, drawn, run_check_bind,
      run_set_bind] at flagged ⊢
    rw [run_bind_of_ok flagged, EStateM.run_modify, EStateM.run_modify, drawn_eq]

theorem run_jumpOffset (m : Machine) (fresh : Option Nibble) (o : Opcode) (base : Address) :
    (execute (fresh.map Nibble.byte) o (Word.ofAddress base) (.jumpOffset base)).run m.bare =
      Bare.result ((Machine.execute fresh (.jumpOffset base)).run m) := by
  have base_lt := base.isLt
  have v0_lt := (m.reg 0).toNat_lt
  have target : sum UInt16.size (Word.ofAddress base).toNat (m.reg 0).toNat =
      .ok (base.val + (m.reg 0).toNat) := by
    rw [Word.toNat_ofAddress]
    exact sum_of_lt (by simp only [UInt16.size]; omega)
  have added : UInt16.ofNat (base.val + (m.reg 0).toNat) =
      Word.ofAddress base + (m.reg 0).toUInt16 := by
    apply UInt16.toNat_inj.mp
    rw [UInt16.toNat_ofNat', UInt16.toNat_add, Word.toNat_ofAddress, UInt8.toNat_toUInt16]
  rw [execute]
  refine (run_bind_of_ok (run_register m 0) _).trans ?_
  rw [target, run_check_bind, added]
  rfl

theorem run_loadGlyph (m : Machine) (fresh : Option Nibble) (o : Opcode) (address : UInt16)
    (x : Nibble) (named : o.x = Nibble.byte x) :
    (execute (fresh.map Nibble.byte) o address (.loadGlyph x)).run m.bare =
      Bare.result ((Machine.execute fresh (.loadGlyph x)).run m) := by
  have place (digit : Nibble) : product UInt16.size (Nibble.byte digit).toNat Glyphs.rows =
      .ok (Glyphs.rows * digit.val) := by
    have := digit.isLt
    rw [Nibble.toNat_byte, Nat.mul_comm]
    exact product_of_lt (by simp only [UInt16.size, Glyphs.rows]; omega)
  have index (digit : Nibble) : sum UInt16.size Glyphs.offset (Glyphs.rows * digit.val) =
      .ok (Glyphs.offset + Glyphs.rows * digit.val) := by
    have := digit.isLt
    exact sum_of_lt (by simp only [UInt16.size, Glyphs.rows, Glyphs.offset]; omega)
  rw [execute, named]
  refine (run_bind_of_ok (run_register m x) _).trans ?_
  rw [Nibble.and_eq_byte, place, run_check_bind, index, run_check_bind]
  rfl

theorem run_storeRegisters (m : Machine) (fresh : Option Nibble) (o : Opcode) (address : UInt16)
    (x : Nibble) (named : o.x = Nibble.byte x) :
    (execute (fresh.map Nibble.byte) o address (.storeRegisters x)).run m.bare =
      Bare.result ((Machine.execute fresh (.storeRegisters x)).run m) := by
  have x_lt := x.isLt
  have stored : slice m.bare.registers 0 (x.val + 1) = .ok (m.registers.upTo x) :=
    slice_of_le (Nat.zero_le _) x_lt
  have short : (m.registers.upTo x).length ≤ 16 := by
    rw [Registers.length_upTo]
    exact x_lt
  rw [execute, named, sum_byte, run_check_bind, run_get_bind, stored, run_check_bind]
  exact run_storeAtIndex m (length_lt_sliceLimit short)

theorem run_loadRegisters (m : Machine) (fresh : Option Nibble) (o : Opcode) (address : UInt16)
    (x : Nibble) (named : o.x = Nibble.byte x) :
    (execute (fresh.map Nibble.byte) o address (.loadRegisters x)).run m.bare =
      Bare.result ((Machine.execute fresh (.loadRegisters x)).run m) := by
  have x_lt := x.isLt
  rw [execute, named, sum_byte, run_check_bind, EStateM.run_bind,
    run_loadFromIndex m (length_lt_sliceLimit x_lt), Machine.run_loadFromIndex, Machine.execute,
    EStateM.run_bind, Machine.run_loadFromIndex]
  cases Memory.accessFault m.index (x.val + 1) with
  | some fault => rfl
  | none =>
    have size : ((List.range' m.index.toNat (x.val + 1)).map m.memory.byteAt).length =
        x.val + 1 := by
      rw [List.length_map, List.length_range']
    generalize (List.range' m.index.toNat (x.val + 1)).map m.memory.byteAt = bytes at size
    have copied : copy m.bare.registers 0 (x.val + 1) bytes =
        .ok (m.registers.restore bytes).values := by
      rw [show x.val + 1 = 0 + bytes.length by omega,
        copy_of_le (show 0 + bytes.length ≤ 16 by omega)]
      rfl
    simp only [Bare.result, run_get_bind, copied, run_check_bind, EStateM.run_modify]
    rfl

/-- An instruction does in bare numbers what it does to a machine. -/
theorem run_execute {d : Nibbles} {i : Instruction} (spelled : Instruction.Spells d i)
    (fresh : Option Nibble) (m : Machine) :
    (execute (fresh.map Nibble.byte) d.bare (Word.ofAddress d.address) i).run m.bare =
      Bare.result ((Machine.execute fresh i).run m) := by
  cases i with
  | clearScreen => rfl
  | «return» =>
    rw [execute, EStateM.run_bind, run_pop, Machine.execute, EStateM.run_bind]
    cases (Machine.onStack CallStack.pop).run m <;> rfl
  | jump target =>
    obtain rfl := spelled
    rw [Instruction.toNibbles, Nibbles.address_ofAddress]
    rfl
  | call target =>
    obtain rfl := spelled
    rw [Instruction.toNibbles, Nibbles.address_ofAddress, execute, run_get_bind, EStateM.run_bind,
      run_push, Machine.execute, run_get_bind, EStateM.run_bind]
    have same : m.bare.counter = m.counter := rfl
    rw [same]
    cases (Machine.onStack (CallStack.push m.counter)).run m <;> rfl
  | jumpOffset base =>
    obtain rfl := spelled
    rw [Instruction.toNibbles, Nibbles.address_ofAddress]
    exact run_jumpOffset m fresh _ base
  | skip condition =>
    rw [execute, run_bind_of_ok (run_holds m spelled)]
    show _ = Bare.result (.ok () (if m.holds condition then m.advance else m))
    cases m.holds condition <;> rfl
  | loadValue x value =>
    obtain rfl := spelled
    rw [execute, Instruction.toNibbles, Nibbles.byte_bare_ofByte]
    exact run_setRegister m x value
  | addValue x value =>
    obtain rfl := spelled
    rw [execute, Instruction.toNibbles, Nibbles.byte_bare_ofByte]
    exact (run_bind_of_ok (run_register m x) _).trans (run_setRegister m x _)
  | combine operation x y =>
    obtain rfl := spelled
    exact run_compute m x y operation.compute
  | shift direction x =>
    obtain ⟨-, rfl, -⟩ := spelled
    exact run_compute m d.x d.x fun v _ => direction.compute m.config.leftShiftFlag v
  | random x mask =>
    obtain rfl := spelled
    -- said of any generator, so that none is computed
    have drawn (next : Generator) (value : UInt8) :
        (modify (fun b => { b with generator := next }) >>= fun _ =>
          setRegister (Nibble.byte x) value : Command Unit).run m.bare =
            .ok () { m.setReg x value with generator := next }.bare :=
      run_setRegister { m with generator := next } x value
    rw [execute, Instruction.toNibbles, Nibbles.byte_bare_ofByte, run_get_bind]
    exact drawn m.generator.advance (m.generator.drawByte &&& mask)
  | loadIndex target =>
    obtain rfl := spelled
    rw [Instruction.toNibbles, Nibbles.address_ofAddress]
    rfl
  | addIndex x | setDelay x | setSound x =>
    obtain rfl := spelled
    exact run_bind_of_ok (run_register m x) _
  | loadGlyph x =>
    obtain rfl := spelled
    exact run_loadGlyph m fresh _ _ x rfl
  | draw x y n =>
    obtain rfl := spelled
    exact run_draw m fresh x y n
  | loadDelay x =>
    obtain rfl := spelled
    exact run_setRegister m x m.timers.delay
  | waitKey x =>
    obtain rfl := spelled
    cases fresh with
    | none => rfl
    | some key => exact run_setRegister m x (Nibble.byte key)
  | storeDecimal x =>
    obtain rfl := spelled
    rw [execute, Machine.execute, run_get_bind]
    refine (run_bind_of_ok (run_register m x) _).trans ?_
    have short : (decimalDigits (m.reg x)).length ≤ 16 := by
      rw [Machine.length_decimalDigits]
      decide
    exact run_storeAtIndex m (length_lt_sliceLimit short)
  | storeRegisters x =>
    obtain rfl := spelled
    exact run_storeRegisters m fresh _ _ x rfl
  | loadRegisters x =>
    obtain rfl := spelled
    exact run_loadRegisters m fresh _ _ x rfl

/-! ## One step -/

/-- What a step leaves, in bare numbers. -/
def ofOutcome (o : Outcome) : EStateM.Result Stop BareMachine Unit :=
  match o.fault with
  | none => .ok () o.machine.bare
  | some fault => .error (.fault fault) o.machine.bare

theorem run_tick (m : Machine) : tick.run m.bare = .ok () m.tick.bare := by
  have ticked : Bare.tick m.bare.config.timerDivider m.bare.timers = _ := Bare.tick_eq _ _
  rw [tick, run_get_bind, ticked]
  rfl

theorem run_poll (m : Machine) :
    poll.run m.bare = .ok (m.freshPress.map Nibble.byte) m.drained.bare := by
  have polled : Bare.poll m.bare.down none m.bare.pending = _ :=
    Bare.poll_eq m.keypad.held none m.keypad.pending
  rw [poll, run_get_bind, polled, Option.none_or]
  rfl

theorem run_perform (m : Machine) (fresh : Option Nibble) (word : UInt16) :
    (perform (fresh.map Nibble.byte) word).run m.advance.bare =
      ofOutcome (m.perform fresh word) := by
  rw [perform, Nibbles.ofWord_eq_bare, Nibbles.address_bare, run_check_bind, Nibbles.word_bare,
    run_check_bind, Nibbles.toWord_ofWord, Machine.perform]
  cases decoded : Instruction.decode word with
  | none => rfl
  | some i =>
    have ran := run_execute (Instruction.spells_of_decode decoded) fresh m.advance
    simp only [EStateM.run_bind, ran]
    cases (Machine.execute fresh i).run m.advance with
    | error fault left => rfl
    | ok _ after =>
      have awaits : after.bare.awaiting = after.awaiting.map Nibble.byte := rfl
      simp only [Bare.result, EStateM.run_get, awaits]
      cases after.awaiting with
      | some x => rfl
      | none => exact run_tick after

theorem run_resume (m : Machine) (x key : Nibble) :
    (setRegister (Nibble.byte x) (Nibble.byte key) >>= fun _ =>
      modify (fun b => { b with awaiting := none }) >>= fun _ => advance >>= fun _ => tick).run
        m.bare = ofOutcome (m.resume x (some key)) := by
  refine (run_bind_of_ok (run_setRegister m x (Nibble.byte key)) _).trans ?_
  exact run_tick { (m.setReg x (Nibble.byte key)).advance with awaiting := none }

/-- A step does in bare numbers what it does to a machine. -/
theorem run_step (m : Machine) : step.run m.bare = ofOutcome m.step := by
  have awaits : m.drained.bare.awaiting = m.awaiting.map Nibble.byte := rfl
  rw [step, run_bind_of_ok (run_poll m), run_get_bind, awaits, Machine.step]
  cases m.awaiting with
  | some x =>
    cases m.freshPress with
    | none => rfl
    | some key => exact run_resume m.drained x key
  | none =>
    have read : readWord m.drained.bare.cells m.drained.bare.counter = _ :=
      Checked.readWord_eq m.drained.memory m.drained.counter
    simp only [Option.map_none, run_get_bind, read, Machine.proceed]
    cases m.drained.memory.readWord m.drained.counter with
    | error fault => rfl
    | ok word => exact run_perform m.drained m.freshPress word

end BareMachine

/-! ## Histories -/

/-- What is done to a machine by an action that names its keys by bytes: nothing where a byte names
    none. -/
def BareAction.sent : BareAction → List Action
  | .load program _ => [.load program]
  | .press key => if h : key.toNat < 16 then [.send (.press ⟨key.toNat, h⟩)] else []
  | .release key => if h : key.toNat < 16 then [.send (.release ⟨key.toNat, h⟩)] else []
  | .releaseAll => [.send .releaseAll]
  | .step => [.step]
  | .takeRedraw => [.takeRedraw]

namespace BareMachine

theorem act_step_bare (m : Machine) :
    m.bare.act .step = .ok (m.step.machine.bare, m.step.fault) := by
  rw [act, command, run_step, ofOutcome]
  cases m.step.fault <;> rfl

/-- A byte that names a key queues its event, and any other byte nothing. -/
theorem run_send (m : Machine) (key : UInt8) {event : BareEvent} (e : Nibble → KeyEvent)
    (named : ∀ h : key.toNat < 16, (e ⟨key.toNat, h⟩).bare = event) :
    (send key event).run m.bare = .ok ()
      (m.after (if h : key.toNat < 16 then [.send (e ⟨key.toNat, h⟩)] else [])).bare := by
  have names : key &&& 0x0F = key ↔ key.toNat < 16 := by
    rw [Nibble.and_eq_byte, ← UInt8.toNat_inj, Nibble.toNat_byte, Fin.val_ofNat]
    omega
  rw [send, EStateM.run_modify]
  by_cases h : key.toNat < 16
  · have queued : (m.send (e ⟨key.toNat, h⟩)).bare.pending = m.bare.pending ++ [event] := by
      rw [← named h]
      exact List.map_append
    rw [if_pos (names.mpr h), dif_pos h, ← queued]
    rfl
  · rw [if_neg (mt names.mp h), dif_neg h]
    rfl

theorem run_load (m : Machine) {program : List UInt8} (sized : program.length < sliceLimit) :
    (load program).run m.bare =
      if program.length ≤ maxProgramSize then .ok () (m.act (.load program)).bare
      else .error (.fault (.outOfBounds (programOffset.toNat + program.length - 1))) m.bare := by
  have start : programOffset.toNat = 512 := rfl
  have written : writeSlice m.bare.cells programOffset program = _ :=
    writeSlice_eq m.memory programOffset sized
  rw [load, run_get_bind, written, Memory.accessFault, Machine.act_load, start]
  simp only [maxProgramSize, memorySize]
  by_cases fits : program.length ≤ 3584
  · rw [if_pos (by omega), if_pos fits, if_pos fits]
    rfl
  · rw [if_neg (by omega), if_neg fits]
    rfl

/-- On what a history leads to, no operation of the unguarded machine is undefined. -/
theorem act_bare (m : Machine) (a : BareAction) :
    ∃ fault, m.bare.act a = .ok ((m.after a.sent).bare, fault) := by
  cases a with
  | load program sized =>
    rw [act, command, run_load m sized, BareAction.sent, Machine.after_cons, Machine.after_nil]
    by_cases fits : program.length ≤ maxProgramSize
    · rw [if_pos fits]
      exact ⟨none, rfl⟩
    · rw [if_neg fits, Machine.act_load, if_neg fits]
      exact ⟨some _, rfl⟩
  | press key =>
    rw [act, command, run_send m key .press fun h => congrArg BareEvent.press (Nibble.byte_of_lt h)]
    exact ⟨none, rfl⟩
  | release key =>
    rw [act, command,
      run_send m key .release fun h => congrArg BareEvent.release (Nibble.byte_of_lt h)]
    exact ⟨none, rfl⟩
  | releaseAll =>
    have queued : (m.send .releaseAll).bare.pending = m.bare.pending ++ [.releaseAll] :=
      List.map_append
    rw [act, command, EStateM.run_modify, ← queued]
    exact ⟨none, rfl⟩
  | step => exact ⟨_, act_step_bare m⟩
  | takeRedraw => exact ⟨none, rfl⟩

theorem after_bare (m : Machine) (actions : List BareAction) :
    m.bare.after actions = .ok (m.after (actions.flatMap BareAction.sent)).bare := by
  induction actions generalizing m with
  | nil => rfl
  | cons a actions ih =>
    obtain ⟨fault, acted⟩ := act_bare m a
    rw [after, acted, List.flatMap_cons, Machine.after_append]
    exact ih (m.after a.sent)

/-- Whatever is done to a fresh machine, with any bytes for keys, no operation is applied where it
    is not defined: not by what is done, and not by the next step, whatever events are pending. Both
    lead where they lead a machine whose types leave no room for such an operation. -/
theorem never_aborts (config : Config) (chance : Generator) (actions : List BareAction) :
    let m := (Machine.create config chance).after (actions.flatMap BareAction.sent)
    (create config chance).after actions = .ok m.bare ∧
      m.bare.act .step = .ok (m.step.machine.bare, m.step.fault) := by
  intro m
  exact ⟨after_bare (.create config chance) actions, act_step_bare m⟩

end BareMachine

end Chip8
