import Chip8.Proofs.Counter
import Chip8.Proofs.Executed

/-!
# Where a program goes on

A step that succeeds moves the counter behind the word that it executes, unless the
word says otherwise: jumps, calls and returns go elsewhere, a skip may leave out the
next word, and a wait for a key stays where it is. A skip tests registers and keys
only, and counts four bytes on whatever there is.

Results:

* `counter_of_execute`: where an instruction leads that is carried out to its end.
* `counter_of_executed`: where each word leads.
* `step_skip`, `step_skip_with_memory`: a skip does not look at the word that it skips.
* `counter_after_step`: where a program goes on, in every machine.
-/

namespace Chip8.Machine

variable {m after : Machine} {d : Nibbles} {i : Instruction}

/-- Where the word of these nibbles leads from the counter of a machine, where `held` are the keys
    held, and `waits` says whether the machine is suspended by it. -/
def leadsTo (m : Machine) (held : HeldKeys) (waits : Bool) (d : Nibbles) : Nat :=
  let here := m.counter.toNat
  match d.kind, d.x, d.y, d.n with
  | 0x0, 0x0, 0xE, 0xE => (m.stack.toList.getLastD 0).toNat
  | 0x1, _, _, _ => d.address.val
  | 0x2, _, _, _ => d.address.val
  | 0x3, x, _, _ => if m.reg x = d.byte then here + 4 else here + 2
  | 0x4, x, _, _ => if m.reg x ≠ d.byte then here + 4 else here + 2
  | 0x5, x, y, 0x0 => if m.reg x = m.reg y then here + 4 else here + 2
  | 0x9, x, y, 0x0 => if m.reg x ≠ m.reg y then here + 4 else here + 2
  | 0xB, _, _, _ => d.address.val + (m.reg 0).toNat
  | 0xE, x, 0x9, 0xE =>
    if held.isDown (Fin.ofNat 16 (m.reg x).toNat) = true then here + 4 else here + 2
  | 0xE, x, 0xA, 0x1 =>
    if held.isDown (Fin.ofNat 16 (m.reg x).toNat) = false then here + 4 else here + 2
  | 0xF, _, 0x0, 0xA => if waits then here else here + 2
  | _, _, _, _ => here + 2

/-! ## One instruction -/

theorem leadsTo_of_skip {condition : Condition} {waits : Bool}
    (spelled : Instruction.Spells d (.skip condition)) :
    m.leadsTo m.drained.keypad.held waits d =
      if m.drained.advance.holds condition then m.counter.toNat + 4 else m.counter.toNat + 2 := by
  obtain rfl := spelled
  cases condition with
  | equalValue x value =>
    show (if m.reg x = (Nibbles.ofByte 0x3 x value).byte then _ else _) =
      if (m.reg x == value) = true then _ else _
    rw [Nibbles.byte_ofByte]
    simp only [beq_iff_eq]
  | notEqualValue x value =>
    show (if m.reg x ≠ (Nibbles.ofByte 0x4 x value).byte then _ else _) =
      if (m.reg x != value) = true then _ else _
    rw [Nibbles.byte_ofByte]
    simp only [bne_iff_ne]
  | equalRegister x y =>
    show (if m.reg x = m.reg y then _ else _) = if (m.reg x == m.reg y) = true then _ else _
    simp only [beq_iff_eq]
  | notEqualRegister x y =>
    show (if m.reg x ≠ m.reg y then _ else _) = if (m.reg x != m.reg y) = true then _ else _
    simp only [bne_iff_ne]
  | keyDown x => rfl
  | keyUp x =>
    show (if m.drained.keypad.isDown (m.reg x) = false then _ else _) =
      if (!m.drained.keypad.isDown (m.reg x)) = true then _ else _
    simp only [Bool.not_eq_true']

/-- Where an instruction leads that was fetched and is carried out to its end. -/
theorem counter_of_execute (spelled : Instruction.Spells d i) (behind : m.counter.toNat + 2 ≤ 4096)
    (ran : (execute m.freshPress i).run m.drained.advance = .ok () after)
    (still : after.awaiting = none) :
    after.counter.toNat = m.leadsTo m.drained.keypad.held false d := by
  have next : (m.counter + 2).toNat = m.counter.toNat + 2 := toNat_add_two (by omega)
  -- the bounds of the counter keep the sums below from wrapping
  have counter : (after.counter.toNat : Int) =
      (m.drained.advance.place.execute m.drained.advance m.freshPress i).counter := by
    rw [← place_of_execute ran]
    · rfl
    · show (2 : Int) ≤ (m.counter + 2).toNat
      omega
    · show ((m.counter + 2).toNat : Int) ≤ 0x10FE
      omega
  cases i with
  | «return» =>
    obtain ⟨target, stack, popped, rfl⟩ := of_run_return ran
    have popped : m.stack.toList = stack.toList ++ [target] := popped
    obtain rfl := spelled
    show target.toNat = (m.stack.toList.getLastD 0).toNat
    rw [popped, List.getLastD_concat]
  | jump target =>
    obtain rfl := spelled
    show after.counter.toNat = (Nibbles.ofAddress 0x1 target).address.val
    rw [Nibbles.address_ofAddress]
    exact Int.ofNat.inj counter
  | call target =>
    obtain rfl := spelled
    show after.counter.toNat = (Nibbles.ofAddress 0x2 target).address.val
    rw [Nibbles.address_ofAddress]
    exact Int.ofNat.inj counter
  | jumpOffset base =>
    obtain rfl := spelled
    have counter : (after.counter.toNat : Int) = base.val + (m.reg 0).toNat := counter
    show after.counter.toNat = (Nibbles.ofAddress 0xB base).address.val + (m.reg 0).toNat
    rw [Nibbles.address_ofAddress]
    omega
  | skip condition =>
    rw [leadsTo_of_skip spelled]
    have counter : (after.counter.toNat : Int) =
        (if m.drained.advance.holds condition then m.drained.advance.place.advance
          else m.drained.advance.place).counter := counter
    split at counter
    · next holds =>
      have counter : (after.counter.toNat : Int) = (m.counter + 2).toNat + 2 := counter
      rw [if_pos holds]
      omega
    · next fails =>
      have counter : (after.counter.toNat : Int) = (m.counter + 2).toNat := counter
      rw [if_neg fails]
      omega
  | waitKey x =>
    obtain rfl := spelled
    cases fresh : m.freshPress with
    | none =>
      rw [fresh] at ran
      cases ran
      cases still
    | some key =>
      rw [fresh] at counter
      exact (Int.ofNat.inj counter).trans next
  | shift direction x =>
    obtain ⟨y, rfl⟩ := Instruction.exists_of_spells_shift spelled
    exact (Int.ofNat.inj counter).trans next
  | _ =>
    obtain rfl := spelled
    exact (Int.ofNat.inj counter).trans next

/-! ## One step -/

/-- What the counter becomes is told by the word, the registers, the stack and the keys. -/
theorem counter_of_executed (executed : m.executed = some d) :
    m.step.machine.counter.toNat =
      m.leadsTo m.drained.keypad.held m.step.machine.awaiting.isSome d := by
  obtain ⟨i, done, spelled⟩ := exists_of_executed executed
  have behind : m.counter.toNat + 2 ≤ 4096 := by
    obtain ⟨-, -, word, fetch, -⟩ := of_carriesOut done
    exact (Memory.readWord_eq_ok_iff.mp fetch).1
  have course := m.course
  rw [done] at course
  generalize m.step = outcome at course
  cases course with
  | suspend =>
    obtain rfl := spelled
    rfl
  | @complete _ after _ silent ran still =>
    show after.counter.toNat = m.leadsTo m.drained.keypad.held after.awaiting.isSome d
    rw [still]
    exact counter_of_execute spelled behind ran still

/-- The step of a word that skips. -/
theorem step_skip {condition : Condition} {word : UInt16} (running : m.awaiting = none)
    (fetch : m.memory.readWord m.counter = .ok word)
    (decoded : Instruction.decode word = some (.skip condition)) :
    m.step =
      (if m.drained.advance.holds condition then m.drained.advance.advance
        else m.drained.advance).finish [.executing m.counter word (.skip condition)] := by
  apply step_complete running fetch decoded rfl
  show (if m.drained.advance.holds condition then m.drained.advance.advance
    else m.drained.advance).awaiting = none
  split <;> exact running

/-- A skip reads no more of memory than the word that it is. -/
theorem step_skip_with_memory {condition : Condition} {word : UInt16} (running : m.awaiting = none)
    (fetch : m.memory.readWord m.counter = .ok word)
    (decoded : Instruction.decode word = some (.skip condition)) {memory : Memory}
    (fetch' : memory.readWord m.counter = .ok word) :
    { m with memory := memory }.step.fault = none ∧
      { m with memory := memory }.step.machine = { m.step.machine with memory := memory } := by
  -- no condition reads memory
  have alike : { m with memory := memory }.drained.advance.holds condition =
      m.drained.advance.holds condition := by
    cases condition <;> rfl
  rw [step_skip (m := { m with memory := memory }) running fetch' decoded, alike,
    step_skip running fetch decoded]
  split <;> exact ⟨rfl, rfl⟩

/-- A step that succeeds moves the counter to where the word leads that it executes, with the keys
    held that all pending events leave. A skip never fails, whatever the word that it skips is and
    whether there is one. -/
theorem counter_after_step {m : Machine} (running : m.awaiting = none) :
    (m.step.fault = none → m.step.machine.counter.toNat =
      m.leadsTo (m.keypad.pending.foldl HeldKeys.apply m.keypad.held)
        m.step.machine.awaiting.isSome (.ofWord (m.memory.wordAt m.counter.toNat))) ∧
    ∀ word condition, m.memory.readWord m.counter = .ok word →
      Instruction.decode word = some (.skip condition) →
      m.step.fault = none ∧ ∀ memory : Memory, memory.readWord m.counter = .ok word →
        { m with memory := memory }.step.fault = none ∧
          { m with memory := memory }.step.machine = { m.step.machine with memory := memory } := by
  refine ⟨?_, ?_⟩
  · intro succeeds
    have keys : m.drained.keypad.held = m.keypad.pending.foldl HeldKeys.apply m.keypad.held :=
      HeldKeys.drain_eq_foldl _ _
    rw [← keys]
    exact counter_of_executed (executed_eq_some_iff.mpr ⟨⟨running, succeeds⟩, rfl⟩)
  · intro word condition fetch decoded
    exact ⟨(step_skip_with_memory running fetch decoded fetch).1,
      fun memory fetch' => step_skip_with_memory running fetch decoded fetch'⟩

/-- A machine with these bytes at its counter, on which a key was pressed since its last step. -/
def pressedAt (address : UInt16) (bytes : List UInt8) : Machine :=
  { create {} (.ofSeed 0) with
    counter := address
    memory := Memory.initial.overwrite address.toNat bytes }.send (.press 0)

/-- A skip in the last word of memory, for a key that is pressed only before the step, and the same
    skip before two different words. -/
theorem counter_after_step_of_keyDown :
    (pressedAt 0xFFE [0xE0, 0x9E]).step.machine.counter.toNat = 0x1002 ∧
      (pressedAt 0x200 [0xE0, 0x9E, 0x00, 0x00]).step.fault = none ∧
      (pressedAt 0x200 [0xE0, 0x9E, 0x12, 0x34]).step.machine.counter =
        (pressedAt 0x200 [0xE0, 0x9E, 0x00, 0x00]).step.machine.counter := by
  have decoded : Instruction.decode 0xE09E = some (.skip (.keyDown 0)) := by decide
  have last : (pressedAt 0xFFE [0xE0, 0x9E]).memory.readWord 0xFFE = .ok 0xE09E :=
    Memory.readWord_overwrite _ 0xFFE 0xE09E (by decide)
  have fetch : ∀ a b, (pressedAt 0x200 [0xE0, 0x9E, a, b]).memory.readWord 0x200 = .ok 0xE09E := by
    intro a b
    have inside : 0x200 + [0xE0, 0x9E, a, b].length ≤ memorySize := by
      show 0x200 + 4 ≤ memorySize
      decide
    exact Memory.initial.readWord_overwrite_at (k := 0) inside rfl rfl rfl
  constructor
  · obtain ⟨leads, skips⟩ := counter_after_step (m := pressedAt 0xFFE [0xE0, 0x9E]) rfl
    have word : (pressedAt 0xFFE [0xE0, 0x9E]).memory.wordAt 0xFFE = 0xE09E :=
      (Memory.readWord_eq_ok_iff.mp last).2.symm
    rw [leads (skips 0xE09E (.keyDown 0) last decoded).1,
      show (pressedAt 0xFFE [0xE0, 0x9E]).counter.toNat = 0xFFE from rfl, word]
    rfl
  · have first := fetch 0x00 0x00
    obtain ⟨m, start⟩ : ∃ m, pressedAt 0x200 [0xE0, 0x9E, 0x00, 0x00] = m := ⟨_, rfl⟩
    have running : m.awaiting = none := by rw [← start]; rfl
    have counter : m.counter = 0x200 := by rw [← start]; rfl
    have other : pressedAt 0x200 [0xE0, 0x9E, 0x12, 0x34] =
        { m with memory := (pressedAt 0x200 [0xE0, 0x9E, 0x12, 0x34]).memory } := by
      rw [← start]
      rfl
    rw [start] at first
    obtain ⟨succeeds, alike⟩ := (counter_after_step running).2 0xE09E (.keyDown 0)
      (by rw [counter, first]) decoded
    obtain ⟨-, same⟩ := alike _ (by rw [counter, fetch 0x12 0x34])
    rw [start, other, same]
    exact ⟨succeeds, rfl⟩

end Chip8.Machine
