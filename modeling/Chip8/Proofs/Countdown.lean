import Chip8.Proofs.Divider

/-!
# The timers over a history

Both timers go down with every `period`-th ticking step, counted from the creation
of the machine and not from the instruction that set the timer. So the value of a
timer is the one to which it was last set, less the multiples of the period among
the ticking steps since then.

Results:

* `phase_tick`, `isDue_iff`: the phase is the number of ticking steps up to
  multiples of the period.
* `OnSchedule.tick`, `onSchedule_after`: what the timers are throughout every history.
* `OnSchedule.found_of_set`: what the tick of a step finds.
* `delay_after`: the law of the delay timer, as a program sees it.
-/

namespace Chip8

/-- One of the two timers. -/
inductive Timer where
  | delay
  | sound
deriving DecidableEq, Repr

namespace Timers

variable {t : Timers} {divider : UInt8} {n : Nat}

/-- The value of a timer. -/
def read (t : Timers) : Timer → UInt8
  | .delay => t.delay
  | .sound => t.sound

/-- How many ticks take the timers down by one. -/
def period (divider : UInt8) : Nat := max 1 divider.toNat

theorem period_pos (divider : UInt8) : 0 < period divider := Nat.le_max_left 1 _

/-! ## One tick -/

theorem toNat_read_tick (divider : UInt8) (t : Timers) (timer : Timer) :
    ((t.tick divider).read timer).toNat =
      if t.isDue divider then (t.read timer).toNat - 1 else (t.read timer).toNat := by
  cases timer with
  | delay => exact toNat_delay_tick divider t
  | sound => exact toNat_sound_tick divider t

/-- The phase is never the greatest byte, at which it would stay. -/
theorem toNat_nextPhase (below : t.phase.toNat < period divider) :
    t.nextPhase.toNat = t.phase.toNat + 1 := by
  have := divider.toNat_lt
  have : t.phase.toNat < 255 := by
    rw [period] at below
    omega
  have notLast : t.phase ≠ 255 := by
    intro last
    rw [last] at this
    exact absurd this (by decide)
  rw [nextPhase, if_neg notLast, UInt8.toNat_add]
  exact Nat.mod_eq_of_lt (Nat.succ_lt_succ this)

theorem dvd_succ_iff {D : Nat} (pos : 0 < D) : D ∣ n + 1 ↔ n % D + 1 = D := by
  obtain ⟨D, rfl⟩ := Nat.exists_eq_add_one_of_ne_zero (Nat.ne_of_gt pos)
  rw [Nat.dvd_iff_mod_eq_zero, Nat.succ_mod_succ_eq_zero_iff, Nat.add_right_cancel_iff]

section Phase

variable (h : t.phase.toNat = n % period divider)
include h

theorem phase_lt : t.phase.toNat < period divider := h ▸ Nat.mod_lt n (period_pos divider)

theorem isDue_iff : t.isDue divider = true ↔ period divider ∣ n + 1 := by
  have next : t.nextPhase.toNat = n % period divider + 1 := h ▸ toNat_nextPhase (phase_lt h)
  have below : n % period divider < period divider := h ▸ phase_lt h
  rw [isDue, decide_eq_true_iff, UInt8.le_iff_toNat_le, next, dvd_succ_iff (period_pos divider)]
  rw [period] at *
  omega

theorem phase_tick : (t.tick divider).phase.toNat = (n + 1) % period divider := by
  rw [tick]
  by_cases due : period divider ∣ n + 1
  · rw [if_pos ((isDue_iff h).mpr due), Nat.mod_eq_zero_of_dvd due]
    rfl
  · have below : n % period divider + 1 < period divider :=
      Nat.lt_of_le_of_ne (Nat.mod_lt n (period_pos divider))
        (mt (dvd_succ_iff (period_pos divider)).mpr due)
    rw [if_neg (mt (isDue_iff h).mp due)]
    show t.nextPhase.toNat = _
    rw [toNat_nextPhase (phase_lt h), h, ← Nat.mod_add_mod, Nat.mod_eq_of_lt below]

end Phase

end Timers

/-- The register whose value an instruction puts into a timer, if it sets the timer. -/
def Instruction.setter (timer : Timer) : Instruction → Option Nibble
  | .setDelay x => if timer = .delay then some x else none
  | .setSound x => if timer = .sound then some x else none
  | _ => none

namespace Machine

variable {m c : Machine} {timer : Timer} {ticks : List Machine} {i j : Nat} {v : UInt8}

/-! ## Setting a timer -/

/-- The value to which the step of a machine sets a timer, if it sets it. -/
def sets (m : Machine) (timer : Timer) : Option UInt8 :=
  (m.carriesOut.bind (Instruction.setter timer)).map m.reg

theorem sets_of_carriesOut {i : Instruction} (done : m.carriesOut = some i) :
    m.sets timer = (i.setter timer).map m.reg := by
  rw [sets, done, Option.bind_some]

theorem read_timersFound (m : Machine) (timer : Timer) :
    m.timersFound.read timer = (m.sets timer).getD (m.timers.read timer) := by
  rw [timersFound, sets]
  cases m.carriesOut with
  | none => rfl
  | some i => cases i <;> cases timer <;> rfl

theorem phase_timersFound (m : Machine) : m.timersFound.phase = m.timers.phase := by
  rw [timersFound]
  cases m.carriesOut with
  | none => rfl
  | some i => cases i <;> rfl

/-- Whether the `i`-th of these ticking steps, counted from zero, sets a timer to a value, and none
    of those after it sets the timer again. -/
structure LastSet (timer : Timer) (ticks : List Machine) (i : Nat) (v : UInt8) : Prop where
  set : ticks[i]?.bind (·.sets timer) = some v
  last : ∀ c ∈ ticks.drop (i + 1), c.sets timer = none

theorem LastSet.lt (h : LastSet timer ticks i v) : i < ticks.length := by
  obtain ⟨c, at_, -⟩ := Option.bind_eq_some_iff.mp h.set
  exact (List.getElem?_eq_some_iff.mp at_).1

theorem LastSet.take (h : LastSet timer ticks i v) (before : i < j) :
    LastSet timer (ticks.take j) i v where
  set := by rw [List.getElem?_take_of_lt before, h.set]
  last c mem := h.last c (List.mem_of_mem_take (List.drop_take.subst mem))

theorem lastSet_concat (h : LastSet timer (ticks ++ [m]) i v) :
    i = ticks.length ∧ m.sets timer = some v ∨
      LastSet timer ticks i v ∧ m.sets timer = none := by
  have within := h.lt
  rw [List.length_append, List.length_singleton] at within
  rcases Nat.lt_or_eq_of_le (Nat.le_of_lt_succ within) with before | rfl
  · have set := h.set
    have last := h.last
    rw [List.getElem?_append_left before] at set
    rw [List.drop_append_of_le_length before] at last
    exact .inr ⟨⟨set, fun c mem => last c (List.mem_append_left _ mem)⟩, last m (by simp)⟩
  · have set := h.set
    rw [List.getElem?_concat_length] at set
    exact .inl ⟨rfl, set⟩

/-! ## The schedule -/

/-- What the timers of a machine are after these ticking steps. -/
structure OnSchedule (ticks : List Machine) (m : Machine) : Prop where
  phase : m.timers.phase.toNat = ticks.length % Timers.period m.config.timerDivider
  unset : ∀ timer, (∀ c ∈ ticks, c.sets timer = none) → m.timers.read timer = 0
  set : ∀ timer i v, LastSet timer ticks i v → (m.timers.read timer).toNat =
    v.toNat - (ticks.length / Timers.period m.config.timerDivider -
      i / Timers.period m.config.timerDivider)

namespace OnSchedule

variable (h : OnSchedule ticks m)
include h

theorem isDue_iff : m.timersFound.isDue m.config.timerDivider = true ↔
    Timers.period m.config.timerDivider ∣ ticks.length + 1 :=
  Timers.isDue_iff (m.phase_timersFound.symm ▸ h.phase)

theorem found_of_unset (never : ∀ c ∈ ticks ++ [m], c.sets timer = none) :
    m.timersFound.read timer = 0 := by
  rw [read_timersFound, never m (by simp), Option.getD_none]
  exact h.unset timer fun c mem => never c (List.mem_append_left _ mem)

/-- A timer that was set at tick `i` has lost one for each period that was completed since, down to
    zero. -/
theorem found_of_set (set : LastSet timer (ticks ++ [m]) i v) :
    (m.timersFound.read timer).toNat =
      v.toNat - (ticks.length / Timers.period m.config.timerDivider -
        i / Timers.period m.config.timerDivider) := by
  rw [read_timersFound]
  rcases lastSet_concat set with ⟨rfl, sets⟩ | ⟨before, sets⟩
  · rw [sets, Option.getD_some, Nat.sub_self, Nat.sub_zero]
  · rw [sets, Option.getD_none, h.set timer i v before]

/-- A tick keeps the timers on schedule, also if the step sets one of them first. -/
theorem tick (ticked : m.step.ticked = true) : OnSchedule (ticks ++ [m]) m.step.machine where
  phase := by
    rw [timers_step, if_pos ticked, config_step, List.length_append]
    exact Timers.phase_tick (m.phase_timersFound.symm ▸ h.phase)
  unset timer never := by
    have found := h.found_of_unset never
    apply UInt8.toNat_inj.mp
    rw [timers_step, if_pos ticked, Timers.toNat_read_tick, found]
    split <;> rfl
  set timer i v set := by
    have within := set.lt
    rw [List.length_append, List.length_singleton] at within
    have earlier : i / Timers.period m.config.timerDivider ≤
        ticks.length / Timers.period m.config.timerDivider :=
      Nat.div_le_div_right (Nat.le_of_lt_succ within)
    rw [timers_step, if_pos ticked, config_step, Timers.toNat_read_tick, h.found_of_set set,
      List.length_append, List.length_singleton, Nat.succ_div]
    simp only [h.isDue_iff]
    split <;> omega

end OnSchedule

theorem OnSchedule.of_eq {m' : Machine} (h : OnSchedule ticks m) (timers : m'.timers = m.timers)
    (config : m'.config = m.config) : OnSchedule ticks m' where
  phase := by rw [timers, config, h.phase]
  unset timer never := by rw [timers, h.unset timer never]
  set timer i v set := by rw [timers, config, h.set timer i v set]

theorem onSchedule_create (config : Config) (chance : Generator) :
    OnSchedule [] (create config chance) where
  phase := (Nat.zero_mod _).symm
  unset timer _ := by cases timer <;> rfl
  set timer i v h := absurd h.lt (Nat.not_lt_zero i)

/-- Every machine is on the schedule of its own ticks. -/
theorem onSchedule_after (config : Config) (chance : Generator) (history : List Action) :
    ((create config chance).after history).config = config ∧
      OnSchedule ((create config chance).ticking history)
        ((create config chance).after history) := by
  refine history_induction (P := fun past m =>
    m.config = config ∧ OnSchedule (past.filter (·.step.ticked)) m) ?_ ?_ ?_ history
  · exact ⟨rfl, onSchedule_create config chance⟩
  · rintro past m ⟨same, h⟩
    refine ⟨(config_step m).trans same, ?_⟩
    rw [List.filter_append, List.filter_cons, List.filter_nil]
    by_cases ticked : m.step.ticked = true
    · rw [if_pos ticked]
      exact h.tick ticked
    · rw [if_neg ticked, List.append_nil]
      exact h.of_eq ((timers_step m).trans (if_neg ticked)) (config_step m)
  · intro past m a other ih
    obtain ⟨memory, keypad, redraw, left⟩ := act_of_ne_step other m
    rw [left]
    exact ⟨ih.1, ih.2.of_eq rfl rfl⟩

/-- The schedule of the machine that makes the `j`-th ticking step of a history. -/
theorem onSchedule_of_ticking {config : Config} {chance : Generator} {history : List Action}
    (at_ : ((create config chance).ticking history)[j]? = some c) :
    c.config = config ∧ OnSchedule (((create config chance).ticking history).take j) c := by
  obtain ⟨earlier, rfl, before⟩ := exists_of_filter_trace at_
  rw [ticking, ← before]
  exact onSchedule_after config chance earlier

/-! ## The delay timer -/

/-- The register into which an instruction puts a value. -/
theorem reg_of_setReg {i : Instruction} {x : Nibble} (done : m.carriesOut = some i)
    (goesOn : i.awaits none = none)
    (puts : (execute m.freshPress i).run m.drained.advance =
      .ok () (m.drained.advance.setReg x v)) :
    m.step.machine.reg x = v := by
  rw [reg, registers_of_run done goesOn puts]
  exact (Registers.get_set _ _ _ _).trans (if_pos rfl)

theorem reg_of_loadDelay {x : Nibble} (done : m.carriesOut = some (.loadDelay x)) :
    m.step.machine.reg x = m.timers.delay := reg_of_setReg done rfl rfl

/-- Throughout every history the phase is the number of ticks so far, counted modulo the period. The
    delay timer is zero until it is set; when it was last set to `v`, at tick `i`, it has lost one
    for each multiple of the period that was reached since, and that is what Fx07 reads. The
    dividers zero and one make no difference. -/
theorem delay_after (config : Config) (chance : Generator) (history : List Action) :
    let start := create config chance
    let m := start.after history
    let ticks := start.ticking history
    let D := Timers.period config.timerDivider
    m.timers.phase.toNat = ticks.length % D ∧
    m.timers.phase.toNat < D ∧ m.timers.nextPhase.toNat = m.timers.phase.toNat + 1 ∧
    ((∀ c ∈ ticks, c.sets .delay = none) → m.timers.delay = 0) ∧
    (∀ i v, LastSet .delay ticks i v →
      m.timers.delay.toNat = v.toNat - (ticks.length / D - i / D) ∧
      ∀ j c x, i < j → ticks[j]? = some c → c.carriesOut = some (.loadDelay x) →
        (c.step.machine.reg x).toNat = v.toNat - (j / D - i / D)) ∧
    (config.timerDivider = 0 →
      let m' := (create { config with timerDivider := 1 } chance).after history
      m' = m.withDivider 1 ∧ m'.step.events = m.step.events ∧ m'.step.fault = m.step.fault) := by
  intro start m ticks D
  obtain ⟨same, h⟩ : m.config = config ∧ OnSchedule ticks m :=
    onSchedule_after config chance history
  have divider : Timers.period m.config.timerDivider = D := by rw [same]
  have phase := h.phase
  have value := h.set .delay
  rw [divider] at phase value
  have below := Timers.phase_lt phase
  refine ⟨phase, below, Timers.toNat_nextPhase below, h.unset .delay, ?_, ?_⟩
  · intro i v set
    refine ⟨value i v set, ?_⟩
    intro j c x later at_ done
    obtain ⟨same', h'⟩ := onSchedule_of_ticking at_
    have within : j < ticks.length := (List.getElem?_eq_some_iff.mp at_).1
    have found := h'.set .delay i v (set.take later)
    rw [same', List.length_take_of_le (Nat.le_of_lt within)] at found
    rw [reg_of_loadDelay done]
    exact found
  · intro zero m'
    have alike : m' = m.withDivider 1 :=
      after_withDivider Timers.ticksAlike_zero_one (m := start) zero history
    have step : (m.withDivider 1).step = outcomeWithDivider 1 m.step :=
      step_withDivider Timers.ticksAlike_zero_one (same ▸ zero)
    rw [alike, step]
    exact ⟨rfl, rfl, rfl⟩

/-! ## A program that sets a timer -/

/-- An instruction that changes registers and timers only goes on to the next one. -/
theorem machine_of_light {i : Instruction} (done : m.carriesOut = some i)
    (goesOn : i.awaits none = none)
    (light : ∀ fresh (m : Machine), ∃ registers timers, (execute fresh i).run m =
      .ok () { m with registers := registers, timers := timers }) :
    m.step.machine.awaiting = none ∧ m.step.machine.memory = m.memory ∧
      m.step.machine.counter = m.counter + 2 := by
  obtain ⟨after, ran, running, left⟩ := exists_of_carriesOut done goesOn
  obtain ⟨registers, timers, ran'⟩ := light m.freshPress m.drained.advance
  rw [ran'] at ran
  cases ran
  rw [left]
  exact ⟨running, rfl, rfl⟩

/-- The instruction that sets a timer to the value of V0. -/
def setFromZero : Timer → Instruction
  | .delay => .setDelay 0
  | .sound => .setSound 0

theorem reg_of_loadValue {x : Nibble} {value : UInt8}
    (done : m.carriesOut = some (.loadValue x value)) : m.step.machine.reg x = value :=
  reg_of_setReg done rfl rfl

/-- V0 is set to 2, a timer to V0, and V1 to the delay timer. -/
theorem steps_of_setting (timer : Timer) (running : m.awaiting = none)
    (first : m.memory.readWord m.counter = .ok 0x6002)
    (second : m.memory.readWord (m.counter + 2) = .ok (setFromZero timer).encode)
    (third : m.memory.readWord (m.counter + 2 + 2) = .ok 0xF107) :
    m.carriesOut = some (.loadValue 0 2) ∧ m.step.machine.carriesOut = some (setFromZero timer) ∧
      m.step.machine.reg 0 = 2 ∧
      m.step.machine.step.machine.carriesOut = some (.loadDelay 1) := by
  have done : m.carriesOut = some (.loadValue 0 2) :=
    carriesOut_of_clear running first (by decide) rfl
  obtain ⟨running₁, memory₁, counter₁⟩ := machine_of_light done rfl fun _ _ => ⟨_, _, rfl⟩
  rw [← memory₁, ← counter₁] at second
  have done₁ : m.step.machine.carriesOut = some (setFromZero timer) :=
    carriesOut_of_clear running₁ second (Instruction.decode_encode _) (by cases timer <;> rfl)
  obtain ⟨running₂, memory₂, counter₂⟩ := machine_of_light done₁ (by cases timer <;> rfl)
    (by cases timer <;> exact fun _ _ => ⟨_, _, rfl⟩)
  rw [← memory₁, ← counter₁, ← memory₂, ← counter₂] at third
  exact ⟨done, done₁, reg_of_loadValue done, carriesOut_of_clear running₂ third (by decide) rfl⟩

/-- The program of these three steps. -/
def settingProgram (timer : Timer) : List UInt8 :=
  [0x60, 0x02, Word.high (setFromZero timer).encode, Word.low (setFromZero timer).encode,
    0xF1, 0x07]

/-- The program is loaded and the three steps are made. -/
def settingHistory (timer : Timer) : List Action :=
  [.load (settingProgram timer), .step, .step, .step]

theorem steps_of_settingProgram (config : Config) (chance : Generator) (timer : Timer) :
    ∃ m, (create config chance).act (.load (settingProgram timer)) = m ∧
      m.carriesOut = some (.loadValue 0 2) ∧ m.step.machine.carriesOut = some (setFromZero timer) ∧
      m.step.machine.reg 0 = 2 ∧ m.step.machine.step.machine.carriesOut = some (.loadDelay 1) := by
  have fits : (settingProgram timer).length ≤ maxProgramSize := by
    show 6 ≤ maxProgramSize
    decide
  have first : Memory.readWord _ 0x200 = .ok 0x6002 :=
    readWord_act_load_create (k := 0) config chance fits rfl rfl rfl
  have second : Memory.readWord _ 0x202 = .ok (setFromZero timer).encode :=
    readWord_act_load_create (k := 2) config chance fits rfl rfl rfl
  have third : Memory.readWord _ 0x204 = .ok 0xF107 :=
    readWord_act_load_create (k := 4) config chance fits rfl rfl rfl
  have fresh := act_load_create config chance fits
  generalize (create config chance).act (.load (settingProgram timer)) = m
    at first second third fresh
  have running : m.awaiting = none := by rw [fresh]; rfl
  have counter : m.counter = 0x200 := by rw [fresh]; rfl
  rw [← counter] at first
  exact ⟨m, rfl, steps_of_setting timer running first (by rw [counter]; exact second)
    (by rw [counter]; exact third)⟩

theorem ticking_settingHistory (config : Config) (chance : Generator) (timer : Timer) :
    ∃ m₀ m₁ m₂, (create config chance).ticking (settingHistory timer) = [m₀, m₁, m₂] ∧
      m₀.sets timer = none ∧ m₁.sets timer = some 2 ∧ m₂.sets timer = none ∧
      m₂.carriesOut = some (.loadDelay 1) := by
  obtain ⟨m, loaded, done, done₁, value, done₂⟩ := steps_of_settingProgram config chance timer
  have ticked := ticked_of_carriesOut done rfl
  have ticked₁ := ticked_of_carriesOut done₁ (by cases timer <;> rfl)
  have ticked₂ := ticked_of_carriesOut done₂ rfl
  refine ⟨m, m.step.machine, m.step.machine.step.machine, ?_, ?_, ?_, ?_, done₂⟩
  · rw [ticking, settingHistory, trace_load_cons, loaded, trace_step_cons, trace_step_cons,
      trace_step_cons, trace_nil]
    exact List.filter_eq_self.mpr (by simp [ticked, ticked₁, ticked₂])
  · exact sets_of_carriesOut done
  · rw [sets_of_carriesOut done₁, ← value]
    cases timer <;> rfl
  · exact sets_of_carriesOut done₂

theorem lastSet_of_three {m₀ m₁ m₂ : Machine} (sets : m₁.sets timer = some v)
    (after : m₂.sets timer = none) : LastSet timer [m₀, m₁, m₂] 1 v where
  set := sets
  last c mem := by
    obtain rfl := List.mem_singleton.mp mem
    exact after

/-- With a divider of two, the third ticking step finds the delay timer lower than it was set. -/
theorem delay_after_setting :
    ((create { timerDivider := 2 } (.ofSeed 0)).after []).timers.delay = 0 ∧
    ((create { timerDivider := 2 } (.ofSeed 0)).after
      (settingHistory .delay)).timers.delay.toNat = 1 ∧
    (∃ c,
      ((create { timerDivider := 2 } (.ofSeed 0)).ticking (settingHistory .delay))[2]? = some c ∧
      (c.step.machine.reg 1).toNat = 1) ∧
    (create { timerDivider := 1 } (.ofSeed 0)).after (settingHistory .delay) =
      ((create { timerDivider := 0 } (.ofSeed 0)).after (settingHistory .delay)).withDivider 1 := by
  obtain ⟨m₀, m₁, m₂, ticks, -, sets, keeps, done⟩ :=
    ticking_settingHistory { timerDivider := 2 } (.ofSeed 0) .delay
  have nothing := delay_after { timerDivider := 2 } (.ofSeed 0) []
  have law := (delay_after { timerDivider := 2 } (.ofSeed 0) (settingHistory .delay)).2.2.2.2.1
  have alike := delay_after { timerDivider := 0 } (.ofSeed 0) (settingHistory .delay)
  rw [ticks] at law ⊢
  obtain ⟨value, reads⟩ := law 1 2 (lastSet_of_three sets keeps)
  have read := reads 2 m₂ 1 (by decide) rfl done
  refine ⟨nothing.2.2.2.1 (fun _ mem => nomatch mem), value.trans ?_, ⟨m₂, rfl, read.trans ?_⟩,
    (alike.2.2.2.2.2 rfl).1⟩
  · show 2 - (3 / Timers.period 2 - 1 / Timers.period 2) = 1
    decide
  · show 2 - (2 / Timers.period 2 - 1 / Timers.period 2) = 1
    decide

end Machine

end Chip8
