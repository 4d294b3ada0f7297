import Chip8.Proofs.Beeps
import Chip8.Proofs.Counter

/-!
# Behind the last word

The last address that a word can be fetched from is 0xFFE. The counter may get beyond it,
by a jump or by going on from the last word. From there nothing brings it back: a step
fails before it does anything but drain the keypad, and what else is done to a machine
does not touch the counter.

Results:

* `stranded_of_reachable`: a machine whose counter is beyond the last word is not waiting
  for a key.
* `Stranded.step_eq`, `Stranded.after_eq`: what the step of such a machine does, and what is
  left as it was whatever is done to the machine.
* `stranded_for_good`: no step ever succeeds again.
-/

namespace Chip8.Machine

/-- A running machine whose counter is beyond the last word. -/
structure Stranded (m : Machine) : Prop where
  running : m.awaiting = none
  beyond : 0xFFE < m.counter.toNat

variable {m : Machine}

/-- A suspended machine has fetched the word at its counter, and has not moved since. -/
theorem stranded_of_reachable (reachable : m.Reachable) (beyond : 0xFFE < m.counter.toNat) :
    m.Stranded := by
  refine ⟨?_, beyond⟩
  cases suspended : m.awaiting with
  | none => rfl
  | some x =>
    have inside := (confined_of_reachable reachable).counter_le_of_suspended suspended
    omega

namespace Stranded

theorem step_eq (h : m.Stranded) :
    m.step = ⟨m.drained, [], some (.outOfBounds (m.counter.toNat + 1))⟩ := by
  have outside : memorySize ≤ m.counter.toNat + 1 := Nat.succ_le_succ h.beyond
  exact step_unfetched h.running (Memory.readWord_eq_error_iff.mpr ⟨outside, rfl⟩)

theorem act_eq (h : m.Stranded) (a : Action) :
    ∃ memory keypad redraw,
      m.act a = { m with memory := memory, keypad := keypad, redraw := redraw } := by
  by_cases step : a = .step
  · subst step
    rw [act_step, h.step_eq]
    exact ⟨_, _, _, rfl⟩
  · exact act_of_ne_step step m

theorem after (h : m.Stranded) (later : List Action) : (m.after later).Stranded := by
  induction later generalizing m with
  | nil => exact h
  | cons a later ih =>
    obtain ⟨memory, keypad, redraw, left⟩ := h.act_eq a
    rw [after_cons, left]
    exact ih ⟨h.running, h.beyond⟩

/-- Only programs that are loaded, keys and looks at the display leave a trace. -/
theorem after_eq (h : m.Stranded) (later : List Action) :
    ∃ memory keypad redraw,
      m.after later = { m with memory := memory, keypad := keypad, redraw := redraw } := by
  induction later using List.reverseRecOn with
  | nil => exact ⟨_, _, _, rfl⟩
  | append_singleton later a ih =>
    obtain ⟨memory, keypad, redraw, left⟩ := ih
    obtain ⟨memory', keypad', redraw', left'⟩ := (h.after later).act_eq a
    rw [after_concat, left', left]
    exact ⟨_, _, _, rfl⟩

theorem beep_not_mem (h : m.Stranded) (a : Action) : .beep ∉ m.emits a := by
  by_cases step : a = .step
  · subst step
    rw [emits, h.step_eq]
    exact List.not_mem_nil
  · exact List.count_eq_zero.mp (beeps_of_ne_step step m)

end Stranded

/-! ## No step ever succeeds again -/

/-- Once the counter is beyond the last word, every step fails, always with the same fault, and
    whatever is done changes nothing but memory, the keypad and the redraw flag. -/
theorem stranded_for_good (reachable : m.Reachable) (beyond : 0xFFE < m.counter.toNat) :
    m.awaiting = none ∧ ∀ later : List Action,
      let last := m.after later
      last.step.fault = some (.outOfBounds (m.counter.toNat + 1)) ∧
      (∀ a, .beep ∉ last.emits a) ∧
      last = { m with memory := last.memory, keypad := last.keypad, redraw := last.redraw } := by
  have stranded := stranded_of_reachable reachable beyond
  refine ⟨stranded.running, ?_⟩
  intro later last
  have still : last.Stranded := stranded.after later
  obtain ⟨memory, keypad, redraw, left⟩ := stranded.after_eq later
  have left : last = { m with memory := memory, keypad := keypad, redraw := redraw } := left
  have counter : last.counter = m.counter := by rw [left]
  refine ⟨?_, still.beep_not_mem, ?_⟩
  · rw [still.step_eq, counter]
  · rw [left]

theorem counter_of_jump {target : Address} (done : m.carriesOut = some (.jump target)) :
    m.step.machine.counter = Word.ofAddress target := by
  obtain ⟨after, ran, -, left⟩ := exists_of_carriesOut done rfl
  cases ran
  rw [left]
  rfl

/-- A jump to the last cell, after which another program is loaded and a key is pressed. -/
theorem stranded_for_good_by_jump :
    let m := (started [0x1F, 0xFF]).step.machine
    let last := m.after [.load [0x00, 0xE0], .step, .send (.press 3), .takeRedraw]
    0xFFE < m.counter.toNat ∧ m.awaiting = none ∧
      last.step.fault = some (.outOfBounds 0x1000) ∧ .beep ∉ last.emits .step ∧
      last = { m with memory := last.memory, keypad := last.keypad, redraw := last.redraw } := by
  have fetch : (started [0x1F, 0xFF]).memory.readWord 0x200 = .ok 0x1FFF := readWord_started 0x1FFF
  have jumps : (started [0x1F, 0xFF]).carriesOut = some (.jump 0xFFF) :=
    carriesOut_of_clear rfl fetch (by decide) rfl
  have counter : (started [0x1F, 0xFF]).step.machine.counter = 0xFFF := counter_of_jump jumps
  have reachable : ((started [0x1F, 0xFF]).act .step).Reachable :=
    ((Reachable.create {} (.ofSeed 0)).after [.load [0x1F, 0xFF]]).act .step
  rw [act_step] at reachable
  generalize (started [0x1F, 0xFF]).step.machine = m at counter reachable ⊢
  have next : m.counter.toNat + 1 = 0x1000 := by
    rw [counter]
    decide
  have beyond : 0xFFE < m.counter.toNat := by omega
  obtain ⟨running, ends⟩ := stranded_for_good reachable beyond
  obtain ⟨fails, silent, left⟩ := ends [.load [0x00, 0xE0], .step, .send (.press 3), .takeRedraw]
  rw [next] at fails
  exact ⟨beyond, running, fails, silent .step, left⟩

end Chip8.Machine
