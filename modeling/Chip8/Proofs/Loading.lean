import Chip8.Proofs.Counter
import Chip8.Proofs.Trace

/-!
# Loading at any time

A program may be loaded into a machine that has run, and also into one that waits for a
key, whose instruction may be overwritten by it. Either the whole program gets into its
cells, and nothing else changes, or nothing changes at all. What a machine waits for is
not kept in memory: it goes on behind the cells that held its instruction, whatever is in
them by then.

Results:

* `loads_of_fits`, `run_load_of_tooLarge`: which of the two it is depends on the length of the
  program alone.
* `run_load_act_load`: a second load of the same program has nothing to do.
* `after_of_unattended`, `resumes`: until a step finds a fresh press, a machine that waits
  stays as it is but for memory, the keypad and the redraw flag, and then it goes on.
* `load_all_or_nothing`: all of this.
-/

namespace Chip8.Machine

/-- A program is in its cells, and nothing else has changed. -/
structure Loads (m : Machine) (program : List UInt8) (left : Machine) : Prop where
  memory_only : left = { m with memory := left.memory }
  within : ∀ i b, program[i]? = some b → left.memory.byteAt (0x200 + i) = b
  outside : ∀ a, a < 0x200 ∨ 0x200 + program.length ≤ a →
    left.memory.byteAt a = m.memory.byteAt a

/-- None of the steps finds a fresh press. -/
def Unattended (m : Machine) (later : List Action) : Prop :=
  ∀ c ∈ m.trace later, c.freshPress = none

variable {m : Machine} {program : List UInt8} {x : Nibble}

/-! ## One load -/

theorem loads_of_fits (m : Machine) (fits : program.length ≤ 3584) :
    ∃ left, (load program).run m = .ok program.length left ∧ m.Loads program left := by
  have inside : 0x200 + program.length ≤ memorySize := Nat.add_le_add_left fits 0x200
  refine ⟨{ m with memory := m.memory.overwrite 0x200 program }, ?_, ?_⟩
  · rw [run_load, if_pos fits]
    rfl
  · exact ⟨rfl, fun i b place => m.memory.byteAt_overwrite_at inside place,
      fun a apart => m.memory.byteAt_overwrite_of_apart inside apart⟩

theorem run_load_of_tooLarge (m : Machine) (tooLarge : 3584 < program.length) :
    (load program).run m = .error (.tooLarge program.length) m := by
  rw [run_load, if_neg (Nat.not_le_of_gt tooLarge)]

/-- A second load of the same program finds the machine as it leaves it. -/
theorem run_load_act_load (m : Machine) (program : List UInt8) :
    (load program).run (m.act (.load program)) = (load program).run m := by
  rw [act_load]
  split
  · next fits =>
    have inside : programOffset.toNat + program.length ≤ memorySize :=
      Nat.add_le_add_left fits programOffset.toNat
    rw [run_load, run_load, if_pos fits, if_pos fits,
      Memory.overwrite_overwrite _ (Nat.le_refl _) inside]
  · rfl

/-! ## A machine that waits -/

/-- Only programs that are loaded, keys and looks at the display leave a trace. -/
theorem after_of_unattended (suspended : m.awaiting = some x) (later : List Action) :
    m.Unattended later → ∃ memory keypad redraw,
      m.after later = { m with memory := memory, keypad := keypad, redraw := redraw } := by
  refine history_induction (P := fun past last => (∀ c ∈ past, c.freshPress = none) →
    ∃ memory keypad redraw,
      last = { m with memory := memory, keypad := keypad, redraw := redraw }) ?_ ?_ ?_ later
  · exact fun _ => ⟨_, _, _, rfl⟩
  · intro past last ih unattended
    obtain ⟨memory, keypad, redraw, left⟩ :=
      ih fun c among => unattended c (List.mem_append_left _ among)
    have fresh : last.freshPress = none :=
      unattended last (List.mem_append_right _ (List.mem_singleton_self last))
    have waits : last.awaiting = some x := by rw [left, suspended]
    rw [step_idle waits fresh, left]
    exact ⟨_, _, _, rfl⟩
  · intro past last a other ih unattended
    obtain ⟨memory, keypad, redraw, left⟩ := ih unattended
    obtain ⟨memory', keypad', redraw', left'⟩ := act_of_ne_step other last
    rw [left', left]
    exact ⟨_, _, _, rfl⟩

/-- The counter of a suspended machine is at its instruction, so it does not wrap. -/
theorem resumes {key : Nibble} (confined : m.Confined) (suspended : m.awaiting = some x)
    (fresh : m.freshPress = some key) :
    m.step.fault = none ∧ m.step.machine.awaiting = none ∧
      m.step.machine.counter.toNat = m.counter.toNat + 2 ∧
      m.step.machine.registers = m.registers.set x (UInt8.ofNat key.val) := by
  have inside := confined.counter_le_of_suspended suspended
  rw [step_resume suspended fresh]
  exact ⟨rfl, rfl, toNat_add_two (a := m.counter) (by omega), rfl⟩

/-! ## All or nothing -/

/-- A load of a program of at most 3584 bytes tells its size, puts it into the cells from 0x200 on,
    and changes nothing else; a load of a longer one reports its size and the limit, and changes
    nothing at all. A file is loaded as its bytes are, and if they cannot be had, nothing changes.
    A second load of the same program is as the first one. A machine that waits for a key goes on
    waiting whatever is loaded, and the step that finds a fresh press puts it into the register and
    goes on behind the instruction of old. -/
theorem load_all_or_nothing (reachable : m.Reachable) (program : List UInt8) :
    let result := (load program).run m
    (program.length ≤ 3584 → ∃ left, result = .ok program.length left ∧ m.Loads program left) ∧
    (3584 < program.length → result = .error (.tooLarge program.length) m) ∧
    (∀ size, (LoadError.tooLarge size).message =
      s!"program is too large ({size} bytes), at most {3584} bytes fit") ∧
    (∀ path, (loadFile path (.contents program)).run m = result) ∧
    (∀ path reason,
      (loadFile path (.unopened reason)).run m = .error (.unopened path reason) m ∧
      (loadFile path (.unread reason)).run m = .error (.unread path reason) m) ∧
    (load program).run (m.act (.load program)) = result ∧
    ∀ x later, m.awaiting = some x → m.Unattended later →
      let waiting := m.after later
      waiting = { m with
        memory := waiting.memory
        keypad := waiting.keypad
        redraw := waiting.redraw } ∧
      (waiting.freshPress = none → waiting.step = ⟨waiting.drained, [], none⟩) ∧
      ∀ key, waiting.freshPress = some key →
        waiting.step.fault = none ∧ waiting.step.machine.awaiting = none ∧
        waiting.step.machine.counter.toNat = m.counter.toNat + 2 ∧
        waiting.step.machine.registers = m.registers.set x (UInt8.ofNat key.val) := by
  intro result
  refine ⟨loads_of_fits m, run_load_of_tooLarge m, fun size => rfl, fun path => rfl,
    fun path reason => ⟨rfl, rfl⟩, run_load_act_load m program, ?_⟩
  intro x later suspended unattended waiting
  obtain ⟨memory, keypad, redraw, left⟩ := after_of_unattended suspended later unattended
  have left : waiting = { m with memory := memory, keypad := keypad, redraw := redraw } := left
  have still : waiting.awaiting = some x := by rw [left, suspended]
  have counter : waiting.counter = m.counter := by rw [left]
  have registers : waiting.registers = m.registers := by rw [left]
  refine ⟨by rw [left], step_idle still, ?_⟩
  intro key fresh
  rw [← counter, ← registers]
  exact resumes (confined_of_reachable (reachable.after later)) still fresh

/-! ## A program over the instruction that waits -/

/-- A program is loaded, a step finds no key, and then one is pressed. -/
theorem unattended_until_press (suspended : m.awaiting = some x) (idle : m.keypad = .initial)
    (program : List UInt8) (key : Nibble) :
    let later := [.load program, .step, .send (.press key)]
    m.Unattended later ∧ (m.after later).freshPress = some key := by
  intro later
  obtain ⟨memory, loaded⟩ : ∃ memory, m.act (.load program) = { m with memory := memory } := by
    rw [act_load]
    split <;> exact ⟨_, rfl⟩
  have quiet : (m.act (.load program)).freshPress = none := by
    rw [loaded, freshPress, idle]
    rfl
  constructor
  · rw [Unattended, trace_load_cons, trace_step_cons]
    intro c among
    obtain rfl := List.mem_singleton.mp among
    exact quiet
  · rw [after_cons, after_cons, act_step, step_idle (by rw [loaded, suspended]) quiet, loaded]
    show (m.keypad.poll.1.send (.press key)).poll.2 = some key
    rw [idle]
    revert key
    decide

/-- A machine waits for a key for V3. A program that is too large is refused, another one overwrites
    the instruction, and a key is pressed. -/
theorem load_all_or_nothing_while_waiting :
    let m := (started [0xF3, 0x0A]).step.machine
    let later : List Action := [.load [0xFF, 0xFF], .step, .send (.press 7)]
    m.awaiting = some 3 ∧
      (load (List.replicate 3585 0)).run m = .error (.tooLarge 3585) m ∧
      (∃ left, (load [0xFF, 0xFF]).run m = .ok 2 left ∧ left.memory.byteAt (0x200 + 1) = 0xFF) ∧
      (m.after later).step.fault = none ∧
      (m.after later).step.machine.counter.toNat = m.counter.toNat + 2 ∧
      (m.after later).step.machine.registers = m.registers.set 3 7 := by
  have reachable : ((started [0xF3, 0x0A]).act .step).Reachable :=
    ((Reachable.create {} (.ofSeed 0)).after [.load [0xF3, 0x0A]]).act .step
  rw [act_step] at reachable
  have fetch : (started [0xF3, 0x0A]).memory.readWord 0x200 = .ok (Instruction.waitWord 3) :=
    readWord_started 0xF30A
  have suspends : (started [0xF3, 0x0A]).step.machine =
      { (started [0xF3, 0x0A]).drained with awaiting := some 3 } := by
    rw [step_suspend rfl fetch (Instruction.decode_waitWord 3) rfl]
  have suspended : (started [0xF3, 0x0A]).step.machine.awaiting = some 3 := by rw [suspends]
  have idle : (started [0xF3, 0x0A]).step.machine.keypad = .initial := by
    rw [suspends]
    rfl
  generalize (started [0xF3, 0x0A]).step.machine = m at reachable suspended idle ⊢
  obtain ⟨unattended, pressed⟩ := unattended_until_press suspended idle [0xFF, 0xFF] 7
  obtain ⟨fits, -, -, -, -, -, waiting⟩ := load_all_or_nothing reachable [0xFF, 0xFF]
  obtain ⟨left, result, loads⟩ := fits (by decide)
  obtain ⟨-, -, resumed⟩ := waiting 3 _ suspended unattended
  obtain ⟨succeeds, -, counter, registers⟩ := resumed 7 pressed
  have refused := (load_all_or_nothing reachable (List.replicate 3585 0)).2.1
  rw [List.length_replicate] at refused
  exact ⟨suspended, refused (by decide), ⟨left, result, loads.within 1 0xFF rfl⟩, succeeds, counter,
    registers⟩

end Chip8.Machine
