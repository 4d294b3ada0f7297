/-!
# The timers

Two counters that go down to zero, once for every `divider` ticks of the
machine. The phase counts the ticks since they last went down.

Results:

* `toNat_delay_tick`, `toNat_sound_tick`: what a tick does to each counter.
* `isDue_iff_le`, `tick_cases`: when a tick takes the counters down, and all that it does.
* `expires_iff`: a tick reports the end of the sound iff it takes the sound
  counter from one to zero.
-/

namespace Chip8

/-- The delay counter, the sound counter, and the ticks since they last went down. -/
structure Timers where
  delay : UInt8
  sound : UInt8
  phase : UInt8
deriving DecidableEq, Repr

namespace Timers

/-- The timers of a fresh machine. -/
def stopped : Timers := ⟨0, 0, 0⟩

/-- The phase after one more tick; it stays at the greatest byte. -/
def nextPhase (t : Timers) : UInt8 := if t.phase = 255 then 255 else t.phase + 1

/-- Whether the next tick takes the counters down. -/
def isDue (divider : UInt8) (t : Timers) : Bool := divider ≤ t.nextPhase

/-- Both counters one lower, but not below zero. -/
def countDown (t : Timers) : Timers where
  delay := if t.delay = 0 then 0 else t.delay - 1
  sound := if t.sound = 0 then 0 else t.sound - 1
  phase := 0

/-- Whether the next tick ends the sound. -/
def expires (divider : UInt8) (t : Timers) : Bool := t.isDue divider && t.sound == 1

/-- The timers after one tick. -/
def tick (divider : UInt8) (t : Timers) : Timers :=
  if t.isDue divider then t.countDown else { t with phase := t.nextPhase }

theorem toNat_delay_tick (divider : UInt8) (t : Timers) :
    (t.tick divider).delay.toNat =
      if t.isDue divider then t.delay.toNat - 1 else t.delay.toNat := by
  unfold tick
  split
  · simp only [countDown]
    by_cases h : t.delay = 0
    · simp [h]
    · have : t.delay.toNat ≠ 0 := fun e => h (UInt8.toNat_inj.mp e)
      have := t.delay.toNat_lt
      simp only [h, if_false, UInt8.toNat_sub, UInt8.toNat_ofNat]
      omega
  · rfl

theorem toNat_sound_tick (divider : UInt8) (t : Timers) :
    (t.tick divider).sound.toNat =
      if t.isDue divider then t.sound.toNat - 1 else t.sound.toNat := by
  unfold tick
  split
  · simp only [countDown]
    by_cases h : t.sound = 0
    · simp [h]
    · have : t.sound.toNat ≠ 0 := fun e => h (UInt8.toNat_inj.mp e)
      have := t.sound.toNat_lt
      simp only [h, if_false, UInt8.toNat_sub, UInt8.toNat_ofNat]
      omega
  · rfl

/-- The next tick takes the counters down iff with it there were `divider` of them. -/
theorem isDue_iff_le (divider : UInt8) (t : Timers) :
    t.isDue divider = true ↔ divider.toNat ≤ t.phase.toNat + 1 := by
  rw [isDue, decide_eq_true_iff, UInt8.le_iff_toNat_le, nextPhase]
  split
  · next last =>
    rw [last]
    exact ⟨fun _ => Nat.le_of_lt divider.toNat_lt, fun _ => Nat.le_of_lt_succ divider.toNat_lt⟩
  · next early =>
    have notLast : t.phase.toNat ≠ 255 := fun last => early (UInt8.toNat_inj.mp last)
    have below := t.phase.toNat_lt
    have next : (t.phase + 1).toNat = t.phase.toNat + 1 := by
      rw [UInt8.toNat_add]
      exact Nat.mod_eq_of_lt (show t.phase.toNat + 1 < 256 by omega)
    rw [next]

/-- A tick that is due takes both counters down and starts anew; any other only counts. -/
theorem tick_cases (divider : UInt8) (t : Timers) :
    if divider.toNat ≤ t.phase.toNat + 1 then
      (t.tick divider).delay.toNat = t.delay.toNat - 1 ∧
      (t.tick divider).sound.toNat = t.sound.toNat - 1 ∧ (t.tick divider).phase = 0
    else t.tick divider = { t with phase := t.phase + 1 } := by
  have due := t.isDue_iff_le divider
  split
  · next reached =>
    have due := due.mpr reached
    rw [toNat_delay_tick, toNat_sound_tick, if_pos due, if_pos due, tick, if_pos due]
    exact ⟨rfl, rfl, rfl⟩
  · next early =>
    have notLast : t.phase ≠ 255 := by
      intro last
      rw [last] at early
      exact early (Nat.le_of_lt divider.toNat_lt)
    rw [tick, if_neg (mt due.mp early), nextPhase, if_neg notLast]

/-- A counter that is set to zero, or stays at zero, reports nothing. -/
theorem expires_iff (divider : UInt8) (t : Timers) :
    t.expires divider = true ↔ t.sound = 1 ∧ (t.tick divider).sound = 0 := by
  simp only [expires, Bool.and_eq_true, beq_iff_eq]
  constructor
  · rintro ⟨due, one⟩
    refine ⟨one, ?_⟩
    simp [tick, due, countDown, one]
  · rintro ⟨one, zero⟩
    refine ⟨?_, one⟩
    by_cases due : t.isDue divider
    · exact due
    · simp [tick, due, one] at zero

end Timers

end Chip8
