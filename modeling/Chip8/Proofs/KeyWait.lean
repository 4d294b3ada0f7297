import Chip8.Machine.History
import Chip8.Proofs.StepCases
import Mathlib.Data.List.Infix

/-!
# Waiting for a key

A machine drains the keypad once per step, so the key events that it gets to see
come in chunks, cut where the steps happen to fall. When an instruction that
waits for a key takes one, and which, is decided by the events as a whole: it is
the first press of a key that was up.

Results:

* `drain_of_firstFreshPress`, `drain_of_no_freshPress`: a drain reports the first
  fresh press among its events.
* `AtWait.step_none`, `AtWait.step_some`: a step that starts to wait and one that
  goes on waiting do the same.
* `served_spec`: what a machine is like that took a key.
* `after_schedule`: how the events are cut into chunks does not matter.
-/

namespace Chip8

/-! ## Fresh presses in a sequence of events -/

namespace HeldKeys

/-- The event at place `n` presses a key that is up after the events before it. -/
def FreshPressAt (held : HeldKeys) (es : List KeyEvent) (n : Nat) (key : Nibble) : Prop :=
  es[n]? = some (.press key) ∧ ((es.take n).foldl apply held).isDown key = false

/-- The event at place `n` is the first that presses a key that is up. -/
def FirstFreshPress (held : HeldKeys) (es : List KeyEvent) (n : Nat) (key : Nibble) : Prop :=
  held.FreshPressAt es n key ∧ ∀ n' < n, ∀ key', ¬ held.FreshPressAt es n' key'

variable {held : HeldKeys} {e : KeyEvent} {es later : List KeyEvent} {n : Nat} {key : Nibble}

theorem freshPressAt_zero : held.FreshPressAt (e :: es) 0 key ↔ held.freshPress e = some key := by
  show some e = some (.press key) ∧ held.isDown key = false ↔ _
  constructor
  · rintro ⟨⟨⟩, up⟩
    rw [freshPress, up]
    rfl
  · intro fresh
    cases e with
    | press k =>
      obtain ⟨up, ⟨⟩⟩ := Option.ite_none_left_eq_some.mp fresh
      exact ⟨rfl, Bool.eq_false_iff.mpr up⟩
    | release k => cases fresh
    | releaseAll => cases fresh

theorem freshPressAt_succ :
    held.FreshPressAt (e :: es) (n + 1) key ↔ (held.apply e).FreshPressAt es n key := Iff.rfl

theorem FreshPressAt.lt_length (h : held.FreshPressAt es n key) : n < es.length :=
  (List.getElem?_eq_some_iff.mp h.1).1

theorem freshPressAt_append (h : n < es.length) :
    held.FreshPressAt (es ++ later) n key ↔ held.FreshPressAt es n key := by
  rw [FreshPressAt, FreshPressAt, List.getElem?_append_left h,
    List.take_append_of_le_length (Nat.le_of_lt h)]

/-- What is a fresh press among the first events is one among all. -/
theorem FreshPressAt.mono {all : List KeyEvent} (h : held.FreshPressAt es n key)
    (initial : es <+: all) : held.FreshPressAt all n key := by
  obtain ⟨later, rfl⟩ := initial
  exact (freshPressAt_append h.lt_length).mpr h

theorem FirstFreshPress.of_isPrefix {all : List KeyEvent} (h : held.FirstFreshPress all n key)
    (initial : es <+: all) (within : n < es.length) : held.FirstFreshPress es n key := by
  obtain ⟨fresh, first⟩ := h
  constructor
  · obtain ⟨later, rfl⟩ := initial
    exact (freshPressAt_append within).mp fresh
  · intro n' lt key' earlier
    exact first n' lt key' (earlier.mono initial)

theorem freshPress_of_no_freshPress (quiet : ∀ key, ¬ held.FreshPressAt (e :: es) 0 key) :
    held.freshPress e = none := by
  rw [Option.eq_none_iff_forall_ne_some]
  intro key fresh
  exact quiet key (freshPressAt_zero.mpr fresh)

theorem drain_of_no_freshPress (quiet : ∀ n key, ¬ held.FreshPressAt es n key) :
    (held.drain es).2 = none := by
  induction es generalizing held with
  | nil => rfl
  | cons e es ih =>
    show (held.freshPress e).or ((held.apply e).drain es).2 = none
    have rest : ∀ n key, ¬ (held.apply e).FreshPressAt es n key := by
      intro n key fresh
      exact quiet (n + 1) key (freshPressAt_succ.mpr fresh)
    rw [freshPress_of_no_freshPress (quiet 0), ih rest]
    rfl

/-- The press that counts is the first that finds its key up, whatever comes after it. -/
theorem drain_of_firstFreshPress (h : held.FirstFreshPress es n key) :
    (held.drain es).2 = some key := by
  obtain ⟨fresh, first⟩ := h
  induction n generalizing held es with
  | zero =>
    cases es with
    | nil => cases fresh.1
    | cons e es =>
      show (held.freshPress e).or _ = some key
      rw [freshPressAt_zero.mp fresh, Option.some_or]
  | succ n ih =>
    cases es with
    | nil => cases fresh.1
    | cons e es =>
      show (held.freshPress e).or ((held.apply e).drain es).2 = some key
      have rest : ∀ n' < n, ∀ key', ¬ (held.apply e).FreshPressAt es n' key' := by
        intro n' lt key' earlier
        exact first (n' + 1) (Nat.succ_lt_succ lt) key' (freshPressAt_succ.mpr earlier)
      rw [freshPress_of_no_freshPress (first 0 (Nat.succ_pos n)), Option.none_or]
      exact ih (freshPressAt_succ.mp fresh) rest

/-- A press counts although its key is released before the drain ends. -/
example : (allUp.drain [.press 7, .release 7]).2 = some 7 := by decide

end HeldKeys

/-! ## Steps at an instruction that waits -/

namespace Machine

variable {m : Machine} {x : Nibble}

/-- The counter is at the instruction that waits for a key for `x`, and the machine is either about
    to execute it or suspended by it. -/
def AtWait (m : Machine) (x : Nibble) : Prop :=
  m.memory.readWord m.counter = .ok (Instruction.waitWord x) ∧
    (m.awaiting = none ∨ m.awaiting = some x)

theorem AtWait.step_none (h : m.AtWait x) (fresh : m.freshPress = none) :
    m.step.machine = { m.drained with awaiting := some x } := by
  obtain ⟨word, running | suspended⟩ := h
  · rw [step_suspend running word (Instruction.decode_waitWord x) fresh]
  · rw [step_idle suspended fresh, ← suspended]
    rfl

/-- It makes no difference whether the machine was waiting already. -/
theorem AtWait.step_some {key : Nibble} (h : m.AtWait x) (fresh : m.freshPress = some key) :
    m.step.machine =
      { m.drained with
        registers := m.registers.set x (UInt8.ofNat key.val)
        counter := m.counter + 2
        timers := m.timers.tick m.config.timerDivider
        awaiting := none } := by
  obtain ⟨word, running | suspended⟩ := h
  · have ran : (execute m.freshPress (.waitKey x)).run m.drained.advance =
        .ok () (m.drained.advance.setReg x (UInt8.ofNat key.val)) := by
      rw [fresh]
      rfl
    rw [step_complete running word (Instruction.decode_waitWord x) ran running, ← running]
    rfl
  · rw [step_resume suspended fresh]
    rfl

/-! ## Chunks of events -/

/-- Sends the events of a chunk, and then makes a step. -/
def batch (chunk : List KeyEvent) : List Action := chunk.map .send ++ [.step]

/-- Sends chunk after chunk, with a step behind each. -/
def schedule (chunks : List (List KeyEvent)) : List Action := chunks.flatMap batch

/-- The machine after all these events were sent to it. -/
def sendAll (m : Machine) (es : List KeyEvent) : Machine :=
  { m with keypad := { m.keypad with pending := m.keypad.pending ++ es } }

/-- The machine when it has seen some events and waits for a key. -/
def waitingFor (m : Machine) (x : Nibble) (seen : List KeyEvent) : Machine :=
  { m with
    keypad := ⟨seen.foldl HeldKeys.apply m.keypad.held, []⟩
    awaiting := some x }

/-- The machine when it has seen some events and has taken a key, with one tick of the timers. -/
def served (m : Machine) (x key : Nibble) (seen : List KeyEvent) : Machine :=
  { m with
    registers := m.registers.set x (UInt8.ofNat key.val)
    counter := m.counter + 2
    timers := m.timers.tick m.config.timerDivider
    keypad := ⟨seen.foldl HeldKeys.apply m.keypad.held, []⟩
    awaiting := none }

theorem schedule_append (chunks more : List (List KeyEvent)) :
    schedule (chunks ++ more) = schedule chunks ++ schedule more := List.flatMap_append

theorem schedule_singleton (chunk : List KeyEvent) : schedule [chunk] = batch chunk :=
  List.flatMap_singleton batch chunk

theorem after_sends (m : Machine) (es : List KeyEvent) : m.after (es.map .send) = m.sendAll es := by
  induction es generalizing m with
  | nil =>
    rw [sendAll, List.append_nil]
    rfl
  | cons e es ih =>
    show (m.send e).after (es.map .send) = _
    rw [ih, sendAll, sendAll, List.append_cons]
    rfl

theorem after_batch (m : Machine) (chunk : List KeyEvent) :
    m.after (batch chunk) = (m.sendAll chunk).step.machine := by
  rw [batch, after_append, after_sends]
  rfl

theorem AtWait.sendAll (h : m.AtWait x) (es : List KeyEvent) : (m.sendAll es).AtWait x := h

theorem AtWait.waitingFor (h : m.AtWait x) (seen : List KeyEvent) :
    (m.waitingFor x seen).AtWait x := ⟨h.1, .inr rfl⟩

theorem AtWait.batch_none (h : m.AtWait x) {chunk : List KeyEvent}
    (fresh : (m.keypad.held.drain (m.keypad.pending ++ chunk)).2 = none) :
    m.after (batch chunk) = m.waitingFor x (m.keypad.pending ++ chunk) := by
  rw [after_batch, (h.sendAll chunk).step_none fresh, Machine.waitingFor,
    ← HeldKeys.drain_eq_foldl]
  rfl

theorem AtWait.batch_some {key : Nibble} (h : m.AtWait x) {chunk : List KeyEvent}
    (fresh : (m.keypad.held.drain (m.keypad.pending ++ chunk)).2 = some key) :
    m.after (batch chunk) = m.served x key (m.keypad.pending ++ chunk) := by
  rw [after_batch, (h.sendAll chunk).step_some fresh, served, ← HeldKeys.drain_eq_foldl]
  rfl

theorem waitingFor_waitingFor (m : Machine) (x : Nibble) (seen es : List KeyEvent) :
    (m.waitingFor x seen).waitingFor x es = m.waitingFor x (seen ++ es) := by
  rw [waitingFor, waitingFor, waitingFor, List.foldl_append]

theorem served_waitingFor (m : Machine) (x key : Nibble) (seen es : List KeyEvent) :
    (m.waitingFor x seen).served x key es = m.served x key (seen ++ es) := by
  rw [waitingFor, served, served, List.foldl_append]

theorem drain_waitingFor (m : Machine) (x : Nibble) (seen es : List KeyEvent)
    (quiet : (m.keypad.held.drain seen).2 = none) :
    ((m.waitingFor x seen).keypad.held.drain es).2 = (m.keypad.held.drain (seen ++ es)).2 := by
  show ((seen.foldl HeldKeys.apply m.keypad.held).drain es).2 = _
  rw [← HeldKeys.drain_eq_foldl, HeldKeys.drain_append, quiet, Option.none_or]

/-- Without a fresh press the machine waits, however often it steps. -/
theorem AtWait.schedule_none (h : m.AtWait x) {chunk : List KeyEvent}
    {chunks : List (List KeyEvent)}
    (quiet : (m.keypad.held.drain (m.keypad.pending ++ (chunk :: chunks).flatten)).2 = none) :
    m.after (schedule (chunk :: chunks)) =
      m.waitingFor x (m.keypad.pending ++ (chunk :: chunks).flatten) := by
  induction chunks generalizing m chunk with
  | nil =>
    rw [schedule_singleton]
    rw [List.flatten_singleton] at quiet ⊢
    exact h.batch_none quiet
  | cons next chunks ih =>
    rw [List.flatten_cons, ← List.append_assoc] at quiet ⊢
    have now : (m.keypad.held.drain (m.keypad.pending ++ chunk)).2 = none := by
      rw [HeldKeys.drain_append] at quiet
      exact (Option.or_eq_none_iff.mp quiet).1
    have later : ((m.waitingFor x (m.keypad.pending ++ chunk)).keypad.held.drain
        (next :: chunks).flatten).2 = none := by
      rw [drain_waitingFor m x _ _ now]
      exact quiet
    show m.after (batch chunk ++ schedule (next :: chunks)) = _
    rw [after_append, h.batch_none now, ih (h.waitingFor _) later]
    exact waitingFor_waitingFor m x _ _

/-- The step that drains the first fresh press takes the key. -/
theorem AtWait.schedule_some (h : m.AtWait x) {chunks : List (List KeyEvent)}
    {chunk : List KeyEvent} {key : Nibble}
    (quiet : chunks ≠ [] → (m.keypad.held.drain (m.keypad.pending ++ chunks.flatten)).2 = none)
    (fresh :
      (m.keypad.held.drain (m.keypad.pending ++ (chunks ++ [chunk]).flatten)).2 = some key) :
    m.after (schedule (chunks ++ [chunk])) =
      m.served x key (m.keypad.pending ++ (chunks ++ [chunk]).flatten) := by
  cases chunks with
  | nil =>
    rw [List.nil_append] at fresh ⊢
    rw [schedule_singleton]
    rw [List.flatten_singleton] at fresh ⊢
    exact h.batch_some fresh
  | cons first chunks =>
    have quiet := quiet (List.cons_ne_nil _ _)
    rw [List.flatten_append, List.flatten_singleton, ← List.append_assoc] at fresh ⊢
    rw [← drain_waitingFor m x _ _ quiet] at fresh
    rw [schedule_append, schedule_singleton, after_append, h.schedule_none quiet,
      (h.waitingFor _).batch_some fresh]
    exact served_waitingFor m x key _ _

/-! ## Any number of chunks -/

/-- The events that the machine has drained after `k` steps, each with a chunk sent before it. -/
def drainedBy (m : Machine) (chunks : List (List KeyEvent)) : Nat → List KeyEvent
  | 0 => []
  | k + 1 => m.keypad.pending ++ (chunks.take (k + 1)).flatten

variable {chunks : List (List KeyEvent)} {key : Nibble} {n j k : Nat}

theorem isPrefix_drainedBy (m : Machine) (chunks : List (List KeyEvent)) (le : j ≤ k) :
    m.drainedBy chunks j <+: m.drainedBy chunks k := by
  cases j with
  | zero => exact List.nil_prefix
  | succ j =>
    cases k with
    | zero => omega
    | succ k =>
      show m.keypad.pending ++ _ <+: m.keypad.pending ++ _
      rw [List.prefix_append_right_inj]
      exact (List.take_prefix_take_left le).flatten

/-- Every event is drained by one of the steps. -/
theorem exists_drainedBy (m : Machine) (chunks : List (List KeyEvent))
    (within : n < (m.drainedBy chunks k).length) :
    ∃ i < k, (m.drainedBy chunks i).length ≤ n ∧ n < (m.drainedBy chunks (i + 1)).length := by
  induction k with
  | zero => cases within
  | succ k ih =>
    by_cases earlier : n < (m.drainedBy chunks k).length
    · obtain ⟨i, lt, found⟩ := ih earlier
      exact ⟨i, Nat.lt_succ_of_lt lt, found⟩
    · exact ⟨k, Nat.lt_succ_self k, Nat.not_lt.mp earlier, within⟩

theorem AtWait.waits (h : m.AtWait x) (some : 0 < k) (le : k ≤ chunks.length)
    (quiet : ∀ n key, ¬ m.keypad.held.FreshPressAt (m.drainedBy chunks k) n key) :
    m.after (schedule (chunks.take k)) = m.waitingFor x (m.drainedBy chunks k) := by
  have quiet := HeldKeys.drain_of_no_freshPress quiet
  cases k with
  | zero => omega
  | succ k =>
    cases chunks with
    | nil => cases le
    | cons chunk chunks => exact h.schedule_none quiet

theorem AtWait.serves (h : m.AtWait x) (lt : k < chunks.length)
    (quiet : ∀ n key, ¬ m.keypad.held.FreshPressAt (m.drainedBy chunks k) n key)
    (first : m.keypad.held.FirstFreshPress (m.drainedBy chunks (k + 1)) n key) :
    m.after (schedule (chunks.take (k + 1))) = m.served x key (m.drainedBy chunks (k + 1)) := by
  have quiet := HeldKeys.drain_of_no_freshPress quiet
  have fresh := HeldKeys.drain_of_firstFreshPress first
  rw [drainedBy, List.take_succ_eq_append_getElem lt] at fresh ⊢
  refine h.schedule_some ?_ fresh
  intro nonempty
  cases k with
  | zero => exact absurd List.take_zero nonempty
  | succ k => exact quiet

/-- Who took a key has it in the register, goes on behind the instruction, and has ticked once. -/
theorem served_spec (m : Machine) (x key : Nibble) (seen : List KeyEvent) :
    let left := m.served x key seen
    left.reg x = UInt8.ofNat key.val ∧ (∀ y, y ≠ x → left.reg y = m.reg y) ∧
    left.counter = m.counter + 2 ∧ left.awaiting = none ∧
    if m.config.timerDivider.toNat ≤ m.timers.phase.toNat + 1 then
      left.timers.delay.toNat = m.timers.delay.toNat - 1 ∧
      left.timers.sound.toNat = m.timers.sound.toNat - 1 ∧ left.timers.phase = 0
    else left.timers = { m.timers with phase := m.timers.phase + 1 } := by
  intro left
  refine ⟨?_, ?_, rfl, rfl, Timers.tick_cases m.config.timerDivider m.timers⟩
  · exact (Registers.get_set _ x x _).trans (if_pos rfl)
  · intro y other
    exact (Registers.get_set _ x y _).trans (if_neg (Ne.symm other))

/-- A machine that comes to an instruction that waits for a key, and the events that it drains while
    it makes as many steps as there are `chunks`, those first that are pending already. If one of
    them presses a key that is up, the step that drains the first such event takes its key, puts it
    into Vx and ticks the timers once, and all steps before it only wait. If there is none, all
    steps only wait. -/
theorem after_schedule {m : Machine} {x : Nibble} (running : m.awaiting = none)
    (word : m.memory.readWord m.counter = .ok (Instruction.waitWord x))
    (chunks : List (List KeyEvent)) :
    (∀ n key, m.keypad.held.FirstFreshPress (m.drainedBy chunks chunks.length) n key →
      ∃ k < chunks.length,
        (m.drainedBy chunks k).length ≤ n ∧ n < (m.drainedBy chunks (k + 1)).length ∧
        (∀ j, 0 < j → j ≤ k →
          m.after (schedule (chunks.take j)) = m.waitingFor x (m.drainedBy chunks j)) ∧
        m.after (schedule (chunks.take (k + 1))) =
          m.served x key (m.drainedBy chunks (k + 1)) ∧
        let left := m.after (schedule (chunks.take (k + 1)))
        left.reg x = UInt8.ofNat key.val ∧ (∀ y, y ≠ x → left.reg y = m.reg y) ∧
        left.counter = m.counter + 2 ∧ left.awaiting = none ∧
        if m.config.timerDivider.toNat ≤ m.timers.phase.toNat + 1 then
          left.timers.delay.toNat = m.timers.delay.toNat - 1 ∧
          left.timers.sound.toNat = m.timers.sound.toNat - 1 ∧ left.timers.phase = 0
        else left.timers = { m.timers with phase := m.timers.phase + 1 }) ∧
    ((∀ n key, ¬ m.keypad.held.FreshPressAt (m.drainedBy chunks chunks.length) n key) →
      ∀ j, 0 < j → j ≤ chunks.length →
        m.after (schedule (chunks.take j)) = m.waitingFor x (m.drainedBy chunks j)) := by
  have atWait : m.AtWait x := ⟨word, .inl running⟩
  constructor
  · intro n key first
    obtain ⟨k, lt, before, within⟩ := exists_drainedBy m chunks first.1.lt_length
    -- up to the step that drains place `n` no event is a fresh press
    have quiet : ∀ j ≤ k, ∀ n' key',
        ¬ m.keypad.held.FreshPressAt (m.drainedBy chunks j) n' key' := by
      intro j le n' key' fresh
      have inside := fresh.lt_length
      have short := (isPrefix_drainedBy m chunks le).length_le
      have initial := isPrefix_drainedBy m chunks (show j ≤ chunks.length by omega)
      exact first.2 n' (by omega) key' (fresh.mono initial)
    have initial := isPrefix_drainedBy m chunks (show k + 1 ≤ chunks.length from lt)
    have served := atWait.serves lt (quiet k (Nat.le_refl k)) (first.of_isPrefix initial within)
    refine ⟨k, lt, before, within, ?_, served, ?_⟩
    · intro j some le
      exact atWait.waits some (by omega) (quiet j le)
    · rw [served]
      exact m.served_spec x key _
  · intro quiet j some le
    refine atWait.waits some le ?_
    intro n key fresh
    exact quiet n key (fresh.mono (isPrefix_drainedBy m chunks le))

/-- A key that is down is pressed again, which is no fresh press, and before the second step another
    key is pressed and released. -/
theorem after_schedule_pressed :
    let m := { started [0xF3, 0x0A] with keypad := ⟨HeldKeys.allUp.apply (.press 2), []⟩ }
    let chunks : List (List KeyEvent) := [[.press 2], [.press 7, .release 7]]
    m.awaiting = none ∧ m.memory.readWord m.counter = .ok (Instruction.waitWord 3) ∧
      m.keypad.held.FirstFreshPress (m.drainedBy chunks chunks.length) 1 7 ∧
      m.after (schedule chunks) = m.served 3 7 [.press 2, .press 7, .release 7] := by
  intro m chunks
  have running : m.awaiting = none := rfl
  have word : m.memory.readWord m.counter = .ok (Instruction.waitWord 3) :=
    readWord_started 0xF30A
  have first : m.keypad.held.FirstFreshPress (m.drainedBy chunks chunks.length) 1 7 := by
    refine ⟨⟨rfl, by decide⟩, ?_⟩
    rintro n' lt key' ⟨pressed, up⟩
    obtain rfl : n' = 0 := by omega
    cases pressed
    cases up
  obtain ⟨k, lt, before, within, -, served, -⟩ := (after_schedule running word chunks).1 1 7 first
  have second : k = 1 := by
    cases k with
    | zero => exact absurd within (by decide)
    | succ k =>
      have : k + 1 < 2 := lt
      omega
  subst second
  exact ⟨running, word, first, served⟩

end Machine

end Chip8
