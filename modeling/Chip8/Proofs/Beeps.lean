import Chip8.Proofs.Countdown

/-!
# The beeps of a history

The sound timer goes down with the delay timer, and the tick that takes it from one
to zero beeps. So an instruction that sets it to a value above zero is followed by
one beep, with the ticking step that the value and the period name, unless the timer
is set again before. Nothing else beeps.

Results:

* `expiry_iff`: with which tick a countdown ends.
* `beeps_le_one`, `beeps_of_not_ticked`, `beeps_of_ne_step`: what cannot beep, and
  what cannot beep twice.
* `beeps_of_set`, `beeps_of_unset`: the beeps of one ticking step.
* `count_beeps`: the beeps of the ticking steps from one on.
* `beeps_after`: the beeps of every history.
-/

namespace Chip8

/-- With which tick a countdown from `s` ends that was begun with the tick `i`, both counted from
    zero. -/
theorem expiry_iff {D i j s : Nat} (pos : 0 < D) (begun : i ≤ j) :
    D ∣ j + 1 ∧ s - (j / D - i / D) = 1 ↔ 0 < s ∧ j + 1 = D * (i / D + s) := by
  have elapsed : i / D ≤ j / D := Nat.div_le_div_right begun
  constructor
  · rintro ⟨due, one⟩
    have next : i / D + s = (j + 1) / D := by
      rw [Nat.succ_div_of_dvd due]
      omega
    rw [next, Nat.mul_div_cancel' due]
    exact ⟨by omega, rfl⟩
  · rintro ⟨set, ends⟩
    have due : D ∣ j + 1 := ⟨_, ends⟩
    have next : j / D + 1 = i / D + s := by
      rw [← Nat.succ_div_of_dvd due, ends, Nat.mul_div_cancel_left _ pos]
    exact ⟨due, by omega⟩

/-- A countdown does not end before the tick with which it was begun. -/
theorem le_expiry {D i s : Nat} (pos : 0 < D) (set : 0 < s) : i + 1 ≤ D * (i / D + s) := by
  have next : i < D * (i / D + 1) := Nat.lt_mul_div_succ i pos
  exact Nat.le_trans next (Nat.mul_le_mul_left D (Nat.add_le_add_left set _))

namespace Machine

variable {m c : Machine} {a : Action} {ticks : List Machine} {i : Nat} {v : UInt8}

/-! ## What does not beep -/

/-- The events that an action makes happen. -/
def emits (m : Machine) : Action → List Event
  | .load program =>
    match (load program).run m with
    | .ok size _ => loadEvents size
    | .error _ _ => []
  | .send _ => []
  | .step => m.step.events
  | .takeRedraw => []

theorem beeps_of_ne_step (h : a ≠ .step) (m : Machine) : (m.emits a).count .beep = 0 := by
  cases a with
  | load program =>
    rw [emits]
    split <;> rfl
  | send event => rfl
  | step => exact absurd rfl h
  | takeRedraw => rfl

/-- A step beeps at most once, since it ticks at most once. -/
theorem beeps_le_one (m : Machine) : m.step.beeps ≤ 1 := by
  rw [beeps_step]
  split <;> decide

/-- Only a tick can beep. -/
theorem beeps_of_not_ticked (h : m.step.ticked = false) : m.step.beeps = 0 := by
  rw [beeps_step, if_neg (by simp [h])]

theorem not_ticked_of_fault (h : m.step.fault ≠ none) : m.step.ticked = false := by
  rw [Outcome.ticked, Option.isNone_eq_false_iff.mpr (Option.isSome_iff_ne_none.mpr h)]
  rfl

theorem not_ticked_of_awaiting (h : m.step.machine.awaiting ≠ none) : m.step.ticked = false := by
  rw [Outcome.ticked, Option.isNone_eq_false_iff.mpr (Option.isSome_iff_ne_none.mpr h),
    Bool.and_false]

/-! ## The beep of a tick -/

theorem OnSchedule.expires_iff (h : OnSchedule ticks m) :
    m.timersFound.expires m.config.timerDivider = true ↔
      Timers.period m.config.timerDivider ∣ ticks.length + 1 ∧
        (m.timersFound.read .sound).toNat = 1 := by
  rw [Timers.expires, Bool.and_eq_true, h.isDue_iff, beq_iff_eq, ← UInt8.toNat_inj]
  rfl

/-- While the sound timer was never set it stays at zero. -/
theorem beeps_of_unset (h : OnSchedule ticks m) (never : ∀ c ∈ ticks ++ [m], c.sets .sound = none) :
    m.step.beeps = 0 := by
  rw [beeps_step, if_neg]
  rintro ⟨-, expires⟩
  have one := (h.expires_iff.mp expires).2
  rw [h.found_of_unset never] at one
  cases one

/-- The tick that takes the sound timer from one to zero is known when the timer is set. -/
theorem beeps_of_set (h : OnSchedule ticks m) (ticked : m.step.ticked = true)
    (set : LastSet .sound (ticks ++ [m]) i v) :
    m.step.beeps =
      if 0 < v.toNat ∧ ticks.length + 1 =
        Timers.period m.config.timerDivider * (i / Timers.period m.config.timerDivider + v.toNat)
      then 1 else 0 := by
  have begun := set.lt
  rw [List.length_append, List.length_singleton] at begun
  rw [beeps_step]
  apply if_congr _ rfl rfl
  rw [and_iff_right ticked, h.expires_iff, h.found_of_set set,
    expiry_iff (Timers.period_pos _) (Nat.le_of_lt_succ begun)]

/-- If of the steps from the `i`-th on the one with the number `N` beeps, there is one beep or
    none. -/
theorem count_beeps {s N : Nat} (le : i ≤ ticks.length) (late : 0 < s → i + 1 ≤ N)
    (each : ∀ j c, i ≤ j → ticks[j]? = some c →
      c.step.beeps = if 0 < s ∧ j + 1 = N then 1 else 0) :
    ((ticks.drop i).flatMap (·.step.events)).count .beep =
      if 0 < s ∧ N ≤ ticks.length then 1 else 0 := by
  induction ticks using List.reverseRecOn with
  | nil =>
    rw [List.drop_nil, if_neg]
    · rfl
    · rintro ⟨set, early⟩
      exact absurd (Nat.le_trans (late set) early) (Nat.not_succ_le_zero i)
  | append_singleton ticks last ih =>
    rw [List.length_append, List.length_singleton] at le ⊢
    rcases Nat.lt_or_eq_of_le le with before | rfl
    · have le : i ≤ ticks.length := Nat.le_of_lt_succ before
      have latest := each ticks.length last le List.getElem?_concat_length
      have earlier := ih le fun j c begun at_ =>
        each j c begun (List.getElem?_append_left (List.getElem?_eq_some_iff.mp at_).1 ▸ at_)
      rw [Outcome.beeps] at latest
      rw [List.drop_append_of_le_length le, List.flatMap_append, List.count_append, earlier,
        List.flatMap_singleton, latest]
      split_ifs <;> omega
    · rw [List.drop_of_length_le (by simp), List.flatMap_nil, List.count_nil, if_neg]
      rintro ⟨set, early⟩
      exact absurd (Nat.le_trans (late set) early) (Nat.not_succ_le_self _)

/-! ## Histories -/

/-- The schedule of the machine that makes one of the first `n` ticking steps of a history. -/
theorem onSchedule_of_take {config : Config} {chance : Generator} {history : List Action}
    {n j : Nat} (at_ : (((create config chance).ticking history).take n)[j]? = some c) :
    c.config = config ∧ c.step.ticked = true ∧
      OnSchedule ((((create config chance).ticking history).take n).take j) c := by
  rw [List.getElem?_take, Option.ite_none_right_eq_some] at at_
  obtain ⟨same, h⟩ := onSchedule_of_ticking at_.2
  rw [List.take_take, Nat.min_eq_left (Nat.le_of_lt at_.1)]
  exact ⟨same, (List.mem_filter.mp (List.mem_of_getElem? at_.2)).2, h⟩

/-- Throughout every history, after the sound timer is set to `v` at tick `i` the machine beeps at
    one tick only, the one that completes `v` periods from the period of `i` on, unless it is set
    again before; if `v` is zero it does not beep. A step that fails or suspends the machine is
    silent, and so is everything that is no step. -/
theorem beeps_after (config : Config) (chance : Generator) (history : List Action) :
    let start := create config chance
    let m := start.after history
    let ticks := start.ticking history
    let D := Timers.period config.timerDivider
    (∀ n i v, LastSet .sound (ticks.take n) i v →
      (∀ j c, i ≤ j → (ticks.take n)[j]? = some c →
        c.step.beeps = if 0 < v.toNat ∧ j + 1 = D * (i / D + v.toNat) then 1 else 0) ∧
      (((ticks.take n).drop i).flatMap (·.step.events)).count .beep =
        if 0 < v.toNat ∧ D * (i / D + v.toNat) ≤ (ticks.take n).length then 1 else 0) ∧
    (∀ n, (∀ c ∈ ticks.take n, c.sets .sound = none) → ∀ c ∈ ticks.take n, c.step.beeps = 0) ∧
    m.step.beeps ≤ 1 ∧
    (m.step.fault ≠ none → m.step.beeps = 0) ∧
    (m.step.machine.awaiting ≠ none → m.step.beeps = 0) ∧
    ∀ a, a ≠ .step → (m.emits a).count .beep = 0 := by
  intro start m ticks D
  refine ⟨?_, ?_, m.beeps_le_one, fun fails => beeps_of_not_ticked (not_ticked_of_fault fails),
    fun waits => beeps_of_not_ticked (not_ticked_of_awaiting waits),
    fun a other => beeps_of_ne_step other m⟩
  · intro n i v set
    have each : ∀ j c, i ≤ j → (ticks.take n)[j]? = some c →
        c.step.beeps = if 0 < v.toNat ∧ j + 1 = D * (i / D + v.toNat) then 1 else 0 := by
      intro j c begun at_
      obtain ⟨same, ticked, h⟩ := onSchedule_of_take at_
      have within : j < (ticks.take n).length := (List.getElem?_eq_some_iff.mp at_).1
      have latest := set.take (Nat.lt_succ_of_le begun)
      rw [List.take_add_one, at_] at latest
      rw [beeps_of_set h ticked latest, same, List.length_take_of_le (Nat.le_of_lt within)]
    exact ⟨each, count_beeps (Nat.le_of_lt set.lt) (le_expiry (Timers.period_pos _)) each⟩
  · intro n never c mem
    obtain ⟨j, at_⟩ := List.mem_iff_getElem?.mp mem
    obtain ⟨-, -, h⟩ := onSchedule_of_take at_
    apply beeps_of_unset h
    intro c' mem'
    rcases List.mem_append.mp mem' with before | self
    · exact never c' (List.mem_of_mem_take before)
    · exact never c' (List.mem_singleton.mp self ▸ mem)

/-- A sound timer that is set to two beeps with the third ticking step, and neither a step that
    fails nor one that begins to wait beeps. -/
theorem beeps_after_setting :
    (∃ m₀ m₁ m₂, (create {} (.ofSeed 0)).ticking (settingHistory .sound) = [m₀, m₁, m₂] ∧
      m₀.step.beeps = 0 ∧ m₁.step.beeps = 0 ∧ m₂.step.beeps = 1) ∧
    (started [0xF5, 0x55]).step.beeps = 0 ∧ (started [0xF3, 0x0A]).step.beeps = 0 ∧
    (((create {} (.ofSeed 0)).after []).emits .takeRedraw).count .beep = 0 := by
  have fetch : (started [0xF5, 0x55]).memory.readWord 0x200 = .ok 0xF555 := readWord_started 0xF555
  have fails : (started [0xF5, 0x55]).step.fault ≠ none := by
    rw [step_obstructed rfl fetch (i := .storeRegisters 5) (by decide) rfl]
    exact nofun
  have fetch' : (started [0xF3, 0x0A]).memory.readWord 0x200 = .ok 0xF30A := readWord_started 0xF30A
  have waits : (started [0xF3, 0x0A]).step.machine.awaiting ≠ none := by
    rw [step_suspend rfl fetch' (x := 3) (by decide) rfl]
    exact nofun
  unfold started at fails waits ⊢
  refine ⟨?_, (beeps_after {} (.ofSeed 0) [.load [0xF5, 0x55]]).2.2.2.1 fails,
    (beeps_after {} (.ofSeed 0) [.load [0xF3, 0x0A]]).2.2.2.2.1 waits,
    (beeps_after {} (.ofSeed 0) []).2.2.2.2.2 .takeRedraw nofun⟩
  obtain ⟨m₀, m₁, m₂, ticks, before, sets, keeps, -⟩ :=
    ticking_settingHistory {} (.ofSeed 0) .sound
  have law := beeps_after {} (.ofSeed 0) (settingHistory .sound)
  have silent := law.2.1
  have law := law.1
  rw [ticks] at law silent
  have each := (law 3 1 2 (lastSet_of_three sets keeps)).1
  refine ⟨m₀, m₁, m₂, ticks, silent 1 ?_ m₀ (.head _), ?_, ?_⟩
  · intro c mem
    obtain rfl := List.mem_singleton.mp mem
    exact before
  · exact (each 1 m₁ (by decide) rfl).trans (if_neg (by decide))
  · exact (each 2 m₂ (by decide) rfl).trans (if_pos (by decide))

end Machine

end Chip8
