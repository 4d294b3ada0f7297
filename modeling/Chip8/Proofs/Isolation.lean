import Chip8.Proofs.Countdown

/-!
# What a program can know of its surroundings

The time and the keys reach a program where it looks at them and nowhere else. Two
machines with the same interior do the same as long as the program does not look,
whatever keys are pressed and however fast the timers go down. What the one executes
tells how long that is for both.

Results:

* `alike_step`: machines that run and have the same interior take steps that are alike.
* `Lockstep`: two histories that differ in nothing but the key events.
* `alike_of_lockstep`: along two such histories the steps are alike, one by one.
-/

namespace Chip8

/-- Two steps are alike to a program that goes on running. -/
structure Outcome.Alike (o o' : Outcome) : Prop where
  fault : o'.fault = o.fault
  interior : o'.machine.interior = o.machine.interior
  running : o.machine.awaiting = none
  running' : o'.machine.awaiting = none

namespace Machine

variable {m m' : Machine} {history history' : List Action}

/-! ## One step -/

theorem alike_step_within (o : Surroundings) (running : m.awaiting = none)
    (blind : ∀ i ∈ m.carriesOut, i.looksAround = false) : m.step.Alike (m.within o).step := by
  have running' : (m.within o).awaiting = none := running
  have way := m.stepCase
  generalize outcome : m.step = left at way ⊢
  cases way with
  | idle suspended | resume suspended =>
    rw [running] at suspended
    cases suspended
  | unfetched _ fetch =>
    rw [step_unfetched running' fetch]
    exact ⟨rfl, rfl, running, running⟩
  | unknown _ fetch unknown =>
    rw [step_unknown running' fetch unknown]
    exact ⟨rfl, rfl, running, running⟩
  | obstructed _ fetch decoded obstacle =>
    rw [step_obstructed running' fetch decoded obstacle]
    exact ⟨rfl, rfl, running, running⟩
  | @suspend word x _ fetch decoded fresh =>
    have done : m.carriesOut = some (.waitKey x) := by
      rw [carriesOut_of_fetch running fetch (congrArg Outcome.fault outcome), decoded]
    cases blind _ done
  | @complete word i after _ fetch decoded clear ran still =>
    have done : m.carriesOut = some i := carriesOut_of_clear running fetch decoded clear
    -- the surroundings in which the instruction is executed, once the keypad is drained
    have ran' := run_execute_within (m.within o).drained.surroundings m.drained.advance
      m.freshPress (m.within o).freshPress i fun looks => nomatch (blind i done).symm.trans looks
    rw [ran] at ran'
    rw [step_complete running' fetch decoded ran' still]
    exact ⟨rfl, rfl, still, still⟩

/-- Machines that are alike inside stay so over a step that looks neither at keys nor at chance. -/
theorem alike_step (same : m'.interior = m.interior) (running : m.awaiting = none)
    (running' : m'.awaiting = none) (blind : ∀ i ∈ m.carriesOut, i.looksAround = false) :
    m.step.Alike m'.step := by
  rw [eq_within same (running'.trans running.symm)]
  exact alike_step_within _ running blind

/-! ## Two histories -/

/-- Two histories with the same actions, but for the key events that either machine is sent in
    between. -/
inductive Lockstep : List Action → List Action → Prop
  | nil : Lockstep [] []
  | both (a : Action) {history history' : List Action} (rest : Lockstep history history') :
      Lockstep (a :: history) (a :: history')
  | left (event : KeyEvent) {history history' : List Action} (rest : Lockstep history history') :
      Lockstep (.send event :: history) history'
  | right (event : KeyEvent) {history history' : List Action} (rest : Lockstep history history') :
      Lockstep history (.send event :: history')

/-- What is done between the steps does not depend on the surroundings. -/
theorem interior_act {a : Action} (h : a ≠ .step) (same : m'.interior = m.interior) :
    (m'.act a).interior = (m.act a).interior := by
  cases a with
  | load program =>
    rw [act_load, act_load]
    split
    · show { m'.interior with memory := m'.interior.memory.overwrite programOffset.toNat program } =
        { m.interior with memory := m.interior.memory.overwrite programOffset.toNat program }
      rw [same]
    · exact same
  | send event => exact same
  | step => exact absurd rfl h
  | takeRedraw =>
    show { m'.interior with redraw := false } = { m.interior with redraw := false }
    rw [same]

theorem awaiting_act {a : Action} (h : a ≠ .step) (m : Machine) :
    (m.act a).awaiting = m.awaiting := by
  obtain ⟨memory, keypad, redraw, left⟩ := act_of_ne_step h m
  rw [left]

/-- Machines that run and have the same interior take the same steps, one by one, as long as the one
    executes no instruction that looks at a timer or at the keys: with the same fault or none, to
    the same interior, and running on. Seeds and dividers, timers with their phase, keys held, and
    events sent before or in between may all differ. -/
theorem alike_of_lockstep (same : m'.interior = m.interior) (running : m.awaiting = none)
    (running' : m'.awaiting = none) (lockstep : Lockstep history history')
    (blind : ∀ i ∈ m.performed history, i.looksAround = false) :
    List.Forall₂ (fun c c' => c.step.Alike c'.step) (m.trace history) (m'.trace history') := by
  induction lockstep generalizing m m' with
  | nil => exact .nil
  | both a rest ih =>
    rw [performed_cons, List.forall_mem_append] at blind
    obtain ⟨now, later⟩ := blind
    by_cases h : a = .step
    · subst h
      have alike : m.step.Alike m'.step :=
        alike_step same running running' fun i done => now i (by simpa using done)
      exact .cons alike (ih alike.interior alike.running alike.running' later)
    · rw [trace, trace, if_neg h, if_neg h]
      exact ih (interior_act h same) ((awaiting_act h m).trans running)
        ((awaiting_act h m').trans running') later
  | left event rest ih => exact ih same running running' blind
  | right event rest ih => exact ih same running running' blind

/-! ## A program that sets a timer and does not look at it -/

/-- Surroundings unlike those of a fresh machine: a slow divider, timers that are running, and keys
    that were pressed. -/
def busySurroundings : Surroundings where
  seed := some 5
  timerDivider := 7
  timers := { delay := 9, sound := 1, phase := 6 }
  keypad := ⟨.allUp, [.press 3, .press 4]⟩

/-- Both machines set the sound timer, though keys are pressed around the one only. -/
theorem alike_of_lockstep_setting :
    ∃ m, (create {} (.ofSeed 0)).act (.load (settingProgram .sound)) = m ∧ m.awaiting = none ∧
      m.performed [.step, .step] = [.loadValue 0 2, .setSound 0] ∧
      List.Forall₂ (fun c c' => c.step.Alike c'.step) (m.trace [.step, .step])
        ((m.within busySurroundings).trace [.step, .send (.release 3), .step]) := by
  obtain ⟨m, loaded, done, done₁, -, -⟩ := steps_of_settingProgram {} (.ofSeed 0) .sound
  have running : m.awaiting = none := (of_carriesOut done).1
  have done₁ : m.step.machine.carriesOut = some (.setSound 0) := done₁
  have performed : m.performed [.step, .step] = [.loadValue 0 2, .setSound 0] := by
    rw [Machine.performed, trace_step_cons, trace_step_cons, trace_nil]
    simp [done, done₁]
  have lockstep : Lockstep [.step, .step] [.step, .send (.release 3), .step] :=
    .both .step (.right (.release 3) (.both .step .nil))
  have blind : ∀ i ∈ m.performed [.step, .step], i.looksAround = false := by
    rw [performed]
    decide
  exact ⟨m, loaded, running, performed,
    alike_of_lockstep (interior_within _ m) running running lockstep blind⟩

end Machine

end Chip8
