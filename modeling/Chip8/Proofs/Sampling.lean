import Chip8.Proofs.Trace

/-!
# The random numbers of a history

A generator yields one byte after the other. An instruction that asks for a random
number takes the next byte, whatever mask it then lays over it, and nothing else takes
one. So the place of a machine in the sequence of bytes is the number of times that it
has asked, and two machines with one seed get the same bytes although they run
different programs.

Results:

* `generator_act`: what an action does to the generator.
* `generator_after`: the place in the sequence after a history.
* `generator_of_sampling`: the place at which a step of a history asks.
* `random_bytes_after`: what the steps of every history get.
-/

namespace Chip8

/-- The byte that is drawn after `n` draws. -/
def Generator.byte (g : Generator) (n : Nat) : UInt8 := (g.advanceBy n).drawByte

/-- Whether an instruction asks for a random number. -/
def Instruction.isRandom : Instruction → Bool
  | .random _ _ => true
  | _ => false

theorem Instruction.isRandom_iff {i : Instruction} :
    i.isRandom = true ↔ ∃ x mask, i = .random x mask := by
  cases i <;> simp [isRandom]

namespace Machine

variable {m c : Machine} {a : Action} {history : List Action} {j : Nat}

/-! ## One step -/

/-- Whether the step of a machine gets a random number. -/
def samples (m : Machine) : Bool := m.carriesOut.any Instruction.isRandom

theorem samples_iff (m : Machine) :
    m.samples = true ↔ ∃ x mask, m.carriesOut = some (.random x mask) := by
  rw [samples]
  cases m.carriesOut with
  | none => simp
  | some i => simp [Instruction.isRandom_iff]

theorem generator_step_eq (m : Machine) :
    m.step.machine.generator = if m.samples then m.generator.advance else m.generator := by
  rw [generator_step, samples]
  cases m.carriesOut with
  | none => rfl
  | some i => cases i <;> rfl

/-- Only a step that gets a number moves the generator on. -/
theorem generator_act (m : Machine) (a : Action) :
    (m.act a).generator =
      if a = .step ∧ m.samples then m.generator.advance else m.generator := by
  by_cases h : a = .step
  · subst h
    simp only [act_step, generator_step_eq, true_and]
  · obtain ⟨memory, keypad, redraw, left⟩ := act_of_ne_step h m
    rw [left, if_neg (fun both => h both.1)]

/-- The byte is masked only after it was drawn. -/
theorem reg_of_random {x : Nibble} {mask : UInt8} (done : m.carriesOut = some (.random x mask)) :
    m.step.machine.reg x = m.generator.drawByte &&& mask := by
  rw [reg, registers_of_run done rfl rfl]
  exact (Registers.get_set _ _ _ _).trans (if_pos rfl)

/-! ## Histories -/

/-- The machines that made the steps of a history that got a number, each as it was before its
    step. -/
def sampling (m : Machine) (history : List Action) : List Machine :=
  (m.trace history).filter samples

/-- Nothing but a step that samples advances the generator, and each of these does once. -/
theorem generator_after (m : Machine) (history : List Action) :
    (m.after history).generator = m.generator.advanceBy (m.sampling history).length := by
  induction history using List.reverseRecOn with
  | nil => rfl
  | append_singleton history a ih =>
    rw [sampling] at ih ⊢
    rw [after_concat, generator_act, ih, filter_trace_concat]
    split
    · rw [List.length_append]
      rfl
    · rw [List.append_nil]

theorem generator_of_sampling (at_ : (m.sampling history)[j]? = some c) :
    c.generator = m.generator.advanceBy j := by
  obtain ⟨earlier, rfl, before⟩ := exists_of_filter_trace at_
  have within : j < (m.sampling history).length := (List.getElem?_eq_some_iff.mp at_).1
  rw [generator_after, sampling, before]
  exact congrArg _ (List.length_take_of_le (Nat.le_of_lt within))

theorem samples_of_sampling (at_ : (m.sampling history)[j]? = some c) : c.samples = true :=
  (List.mem_filter.mp (List.mem_of_getElem? at_)).2

/-- The steps of a history that get random numbers, counted from zero, get the bytes of the seed in
    order, each of them under the mask of its instruction. Nothing but such a step moves the
    generator on. So where two machines have one seed, their steps with the same number get the
    same byte. -/
theorem random_bytes_after (seed : UInt64) (config : Config) (chance : Generator)
    (history : List Action) :
    let start := create { config with seed := some seed } chance
    let m := start.after history
    let steps := start.sampling history
    (∀ j c, steps[j]? = some c → ∃ x mask, c.carriesOut = some (.random x mask) ∧
      c.step.machine.reg x = (Generator.ofSeed seed).byte j &&& mask) ∧
    m.generator = (Generator.ofSeed seed).advanceBy steps.length ∧
    (∀ a, (a = .step → ∀ x mask, m.carriesOut ≠ some (.random x mask)) →
      (m.act a).generator = m.generator) ∧
    (m.step.fault ≠ none ∨ m.awaiting ≠ none → m.step.machine.generator = m.generator) ∧
    ∀ (config' : Config) (chance' : Generator) (history' : List Action),
      let steps' := (create { config' with seed := some seed } chance').sampling history'
      ∀ (j : Nat) (c c' : Machine), steps[j]? = some c → steps'[j]? = some c' →
        c'.generator.drawByte = c.generator.drawByte := by
  intro start m steps
  refine ⟨?_, generator_after start history, ?_, ?_, ?_⟩
  · intro j c at_
    obtain ⟨x, mask, done⟩ := (samples_iff c).mp (samples_of_sampling at_)
    refine ⟨x, mask, done, ?_⟩
    rw [reg_of_random done, generator_of_sampling at_]
    rfl
  · intro a other
    rw [generator_act, if_neg]
    rintro ⟨step, samples⟩
    obtain ⟨x, mask, done⟩ := (samples_iff m).mp samples
    exact other step x mask done
  · intro idle
    have nothing : m.carriesOut = none := by
      rcases idle with fails | waits
      · obtain ⟨fault, failed⟩ := Option.ne_none_iff_exists'.mp fails
        exact carriesOut_of_fault failed
      · obtain ⟨x, suspended⟩ := Option.ne_none_iff_exists'.mp waits
        exact carriesOut_of_suspended suspended
    rw [generator_step, nothing]
    rfl
  · intro config' chance' history' steps' j c c' at_ at'
    rw [generator_of_sampling at_, generator_of_sampling at']
    rfl

/-! ## A program of one instruction -/

theorem sampling_of_load (config : Config) (chance : Generator) {w : UInt16} {x : Nibble}
    {mask : UInt8} (decoded : Instruction.decode w = some (.random x mask)) :
    ∃ c, (create config chance).sampling [.load [Word.high w, Word.low w], .step] = [c] ∧
      c.carriesOut = some (.random x mask) := by
  have fits : [Word.high w, Word.low w].length ≤ maxProgramSize := by
    show 2 ≤ maxProgramSize
    decide
  have fetch : Memory.readWord _ 0x200 = .ok w :=
    readWord_act_load_create (k := 0) config chance fits rfl rfl rfl
  have fresh := act_load_create config chance fits
  obtain ⟨c, loaded⟩ : ∃ c, (create config chance).act (.load [Word.high w, Word.low w]) = c :=
    ⟨_, rfl⟩
  rw [loaded] at fetch fresh
  have running : c.awaiting = none := by rw [fresh]; rfl
  have counter : c.counter = 0x200 := by rw [fresh]; rfl
  have done : c.carriesOut = some (.random x mask) :=
    carriesOut_of_clear running (by rw [counter, fetch]) decoded rfl
  refine ⟨c, ?_, done⟩
  rw [sampling, trace_load_cons, loaded, trace_step_cons, trace_nil]
  simp [(samples_iff c).mpr ⟨x, mask, done⟩]

/-- Two programs that lay different masks over the first byte of the seed one. -/
theorem random_bytes_after_one_draw :
    ∃ c c', (create { seed := some 1 } (.ofSeed 0)).sampling [.load [0xC3, 0x0F], .step] = [c] ∧
      (create { seed := some 1, edge := .clip } (.ofSeed 0)).sampling
        [.load [0xC5, 0xFF], .step] = [c'] ∧
      c.step.machine.reg 3 = 0x06 ∧ c'.step.machine.reg 5 = 0xE6 ∧
      c'.generator.drawByte = c.generator.drawByte ∧
      ((create { seed := some 1 } (.ofSeed 0)).act (.send (.press 2))).generator = .ofSeed 1 := by
  have first : (Generator.ofSeed 1).byte 0 = 0xE6 := by decide +kernel
  obtain ⟨c, steps, done⟩ := sampling_of_load { seed := some 1 } (.ofSeed 0)
    (show Instruction.decode 0xC30F = some (.random 3 0x0F) by decide)
  obtain ⟨c', steps', done'⟩ := sampling_of_load { seed := some 1, edge := .clip } (.ofSeed 0)
    (show Instruction.decode 0xC5FF = some (.random 5 0xFF) by decide)
  have law := random_bytes_after 1 {} (.ofSeed 0) [.load [0xC3, 0x0F], .step]
  have law' := random_bytes_after 1 { edge := .clip } (.ofSeed 0) [.load [0xC5, 0xFF], .step]
  have untouched := (random_bytes_after 1 {} (.ofSeed 0) []).2.2.1 (.send (.press 2)) nofun
  obtain ⟨x, mask, done₁, value⟩ := law.1 0 c (congrArg (·[0]?) steps)
  obtain ⟨x', mask', done₁', value'⟩ := law'.1 0 c' (congrArg (·[0]?) steps')
  have same := law.2.2.2.2 { edge := .clip } (.ofSeed 0) [.load [0xC5, 0xFF], .step] 0 c c'
    (congrArg (·[0]?) steps) (congrArg (·[0]?) steps')
  rw [done] at done₁
  rw [done'] at done₁'
  cases done₁
  cases done₁'
  rw [first] at value value'
  exact ⟨c, c', steps, steps', value, value', same, untouched⟩

end Machine

end Chip8
