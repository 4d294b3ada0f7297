import Chip8.Proofs.Beeps
import Chip8.Proofs.Failure
import Chip8.Sound

/-!
# The log as an account

The log of a machine tells what its steps did. Which word was executed where can be told
from it, whether the machine waits for a key and for which register, which keys it took,
and when it beeped; nothing else that is done to a machine leaves such lines.

Results:

* `mem_executing_iff`: the step that executes a word tells which word it is and where.
* `waitCourse`, `waits_after`: the lines about keys come in pairs, but for the last one of
  a machine that waits.
* `beepsTold_told`: a beep directly follows the line that announces it.
* `filter_journal`: the sound device does not touch these lines.
* `filter_journal_debug`, `mem_journal_trace_iff`: what the lines say.
* `account_after`: all of this, of every history.
-/

namespace Chip8

namespace Event

/-- Whether an event tells which word is executed. -/
def isExecuting : Event → Bool
  | .executing .. => true
  | _ => false

/-- What the log says of a wait for a key, of its end, and of the end of a sound. -/
def debugLine : Event → Option Entry
  | .waiting x address =>
    let register := Hex.write Hex.nibble x.val
    let place := Hex.writeMarked Hex.location address.toNat
    some ⟨.debug, s!"Waiting for a key press to store in V{register} at {place}"⟩
  | .keyTaken key x =>
    let pressed := Hex.write Hex.nibble key.val
    let register := Hex.write Hex.nibble x.val
    some ⟨.debug, s!"Key {pressed} pressed, stored in V{register}"⟩
  | .soundEnded => some ⟨.debug, "Sound timer expired"⟩
  | _ => none

/-- Whether an event tells that the machine waits for a key, or that it took one. -/
def isKeyWait : Event → Bool
  | .waiting .. => true
  | .keyTaken .. => true
  | _ => false

end Event

namespace Machine

variable {m : Machine} {word : UInt16} {i : Instruction} {x key : Nibble} {a : Action}

/-! ## The lines of a history -/

/-- The events of a history, in order. -/
def told (m : Machine) : List Action → List Event
  | [] => []
  | a :: history => m.emits a ++ (m.act a).told history

theorem told_concat (m : Machine) (history : List Action) (a : Action) :
    m.told (history ++ [a]) = m.told history ++ (m.after history).emits a := by
  induction history generalizing m with
  | nil =>
    show m.emits a ++ [] = m.emits a
    rw [List.append_nil]
  | cons first history ih =>
    rw [List.cons_append, told, told, ih, List.append_assoc]
    rfl

theorem emits_of_ne_step (h : a ≠ .step) (m : Machine) :
    m.emits a = [] ∨ ∃ size, m.emits a = [.loaded size] := by
  cases a with
  | load program =>
    rw [emits]
    split
    · exact .inr ⟨_, rfl⟩
    · exact .inl rfl
  | send event => exact .inl rfl
  | step => exact absurd rfl h
  | takeRedraw => exact .inl rfl

/-- Only steps leave lines of a kind that loads do not leave. -/
theorem filter_told {kind : Event → Bool} (loads : ∀ size, kind (.loaded size) = false)
    (m : Machine) (history : List Action) :
    (m.told history).filter kind =
      ((m.trace history).flatMap (·.step.events)).filter kind := by
  induction history generalizing m with
  | nil => rfl
  | cons a history ih =>
    rw [told, trace, List.filter_append, ih, List.flatMap_append, List.filter_append]
    congr 1
    by_cases h : a = .step
    · subst h
      exact congrArg _ (List.append_nil _).symm
    · rw [if_neg h]
      rcases emits_of_ne_step h m with silent | ⟨size, loaded⟩
      · rw [silent]
        rfl
      · rw [loaded, List.filter_cons_of_neg (by rw [loads]; exact Bool.false_ne_true)]
        rfl

/-! ## The words that are executed -/

theorem filter_tickEvents {kind : Event → Bool} (ended : kind .soundEnded = false)
    (beeps : kind .beep = false) (m : Machine) : m.tickEvents.filter kind = [] := by
  rw [tickEvents]
  split
  · rw [List.filter_cons_of_neg (by rw [ended]; exact Bool.false_ne_true),
      List.filter_cons_of_neg (by rw [beeps]; exact Bool.false_ne_true)]
    rfl
  · rfl

theorem filter_finish {kind : Event → Bool} (ended : kind .soundEnded = false)
    (beeps : kind .beep = false) (m : Machine) (events : List Event) :
    (m.finish events).events.filter kind = events.filter kind := by
  show (events ++ m.tickEvents).filter kind = _
  rw [List.filter_append, filter_tickEvents ended beeps, List.append_nil]

/-- The only line of a step about the word that it executes. -/
theorem filter_executing_of_decoded (running : m.awaiting = none)
    (fetch : m.memory.readWord m.counter = .ok word) (decoded : Instruction.decode word = some i) :
    m.step.events.filter Event.isExecuting = [.executing m.counter word i] := by
  have way := m.stepCase
  generalize m.step = outcome at way
  cases way with
  | idle suspended | resume suspended =>
    rw [running] at suspended
    cases suspended
  | unfetched _ fetch' =>
    rw [fetch] at fetch'
    cases fetch'
  | unknown _ fetch' unknown =>
    rw [fetch] at fetch'
    cases fetch'
    rw [decoded] at unknown
    cases unknown
  | obstructed _ fetch' decoded' | suspend _ fetch' decoded' =>
    rw [fetch] at fetch'
    cases fetch'
    rw [decoded] at decoded'
    cases decoded'
    rfl
  | complete _ fetch' decoded' =>
    rw [fetch] at fetch'
    cases fetch'
    rw [decoded] at decoded'
    cases decoded'
    exact filter_finish rfl rfl _ _

/-- Without a word that is an instruction nothing is executed. -/
theorem filter_executing_of_not (nothing : ¬ (m.awaiting = none ∧ ∃ word i,
      m.memory.readWord m.counter = .ok word ∧ Instruction.decode word = some i)) :
    m.step.events.filter Event.isExecuting = [] := by
  have way := m.stepCase
  generalize m.step = outcome at way
  cases way with
  | idle | unfetched | unknown => rfl
  | resume => exact filter_finish rfl rfl _ _
  | obstructed running fetch decoded | suspend running fetch decoded
  | complete running fetch decoded => exact absurd ⟨running, _, _, fetch, decoded⟩ nothing

/-- The line about a word is written once the word is decoded, whether its instruction then succeeds
    or not. -/
theorem mem_executing_iff {address : UInt16} :
    .executing address word i ∈ m.step.events ↔
      m.awaiting = none ∧ address = m.counter ∧ m.memory.readWord m.counter = .ok word ∧
        Instruction.decode word = some i := by
  have among : .executing address word i ∈ m.step.events ↔
      .executing address word i ∈ m.step.events.filter Event.isExecuting := by
    rw [List.mem_filter]
    exact (and_iff_left rfl).symm
  rw [among]
  constructor
  · intro tells
    by_cases something : m.awaiting = none ∧ ∃ word i,
        m.memory.readWord m.counter = .ok word ∧ Instruction.decode word = some i
    · obtain ⟨running, word', i', fetch, decoded⟩ := something
      rw [filter_executing_of_decoded running fetch decoded, List.mem_singleton] at tells
      cases tells
      exact ⟨running, rfl, fetch, decoded⟩
    · rw [filter_executing_of_not something] at tells
      cases tells
  · rintro ⟨running, rfl, fetch, decoded⟩
    rw [filter_executing_of_decoded running fetch decoded]
    exact List.mem_singleton_self _

theorem length_filter_executing_le (m : Machine) :
    (m.step.events.filter Event.isExecuting).length ≤ 1 := by
  by_cases something : m.awaiting = none ∧ ∃ word i,
      m.memory.readWord m.counter = .ok word ∧ Instruction.decode word = some i
  · obtain ⟨running, word, i, fetch, decoded⟩ := something
    rw [filter_executing_of_decoded running fetch decoded]
    exact Nat.le_refl 1
  · rw [filter_executing_of_not something]
    exact Nat.zero_le 1

/-! ## Waiting for keys -/

/-- What a step can tell about keys, with the machine that it leaves. -/
inductive WaitCourse (m : Machine) : List Event → Machine → Prop
  /-- It tells nothing, and a machine that waits goes on waiting where it is. -/
  | nothing {after : Machine} (same : after.awaiting = m.awaiting)
      (still : m.awaiting ≠ none → after.counter = m.counter) : WaitCourse m [] after
  /-- The machine begins to wait, at an instruction that waits for a key. -/
  | begins {x : Nibble} {after : Machine} (running : m.awaiting = none)
      (fetch : m.memory.readWord m.counter = .ok (Instruction.waitWord x))
      (fresh : m.freshPress = none) (suspended : after.awaiting = some x)
      (still : after.counter = m.counter) : WaitCourse m [.waiting x m.counter] after
  /-- A machine that waits takes a key. -/
  | ends {x key : Nibble} {after : Machine} (suspended : m.awaiting = some x)
      (fresh : m.freshPress = some key) (running : after.awaiting = none)
      (stored : after.reg x = UInt8.ofNat key.val) : WaitCourse m [.keyTaken key x] after

/-- A step tells at most one thing about keys. -/
theorem waitCourse (m : Machine) :
    m.WaitCourse (m.step.events.filter Event.isKeyWait) m.step.machine := by
  have way := m.stepCase
  generalize m.step = outcome at way
  cases way with
  | idle => exact .nothing rfl fun _ => rfl
  | resume suspended fresh =>
    rw [filter_finish rfl rfl]
    exact .ends suspended fresh rfl ((Registers.get_set _ _ _ _).trans (if_pos rfl))
  | unfetched running | unknown running | obstructed running =>
    exact .nothing rfl fun waits => absurd running waits
  | suspend running fetch decoded fresh =>
    rw [Instruction.eq_waitWord_of_decode decoded] at fetch
    exact .begins running fetch fresh rfl rfl
  | complete running fetch decoded clear ran still =>
    rw [filter_finish rfl rfl]
    exact .nothing (still.trans running.symm) fun waits => absurd running waits

/-- A machine begins to wait exactly at an instruction that waits for a key and finds none. -/
theorem mem_waiting_iff {address : UInt16} :
    .waiting x address ∈ m.step.events ↔
      m.awaiting = none ∧ m.memory.readWord m.counter = .ok (Instruction.waitWord x) ∧
        m.freshPress = none ∧ address = m.counter := by
  constructor
  · intro tells
    have among : .waiting x address ∈ m.step.events.filter Event.isKeyWait :=
      List.mem_filter.mpr ⟨tells, rfl⟩
    have course := m.waitCourse
    generalize m.step.events.filter Event.isKeyWait = lines at course among
    cases course with
    | nothing => cases among
    | begins running fetch fresh =>
      cases List.mem_singleton.mp among
      exact ⟨running, fetch, fresh, rfl⟩
    | ends => cases List.mem_singleton.mp among
  · rintro ⟨running, fetch, fresh, rfl⟩
    rw [step_suspend running fetch (Instruction.decode_waitWord x) fresh]
    exact .tail _ (.head _)

theorem of_mem_keyTaken (tells : .keyTaken key x ∈ m.step.events) :
    m.awaiting = some x ∧ m.freshPress = some key ∧
      m.step.machine.reg x = UInt8.ofNat key.val := by
  have among : .keyTaken key x ∈ m.step.events.filter Event.isKeyWait :=
    List.mem_filter.mpr ⟨tells, rfl⟩
  have course := m.waitCourse
  generalize m.step.events.filter Event.isKeyWait = lines, m.step.machine = after
    at course among ⊢
  cases course with
  | nothing => cases among
  | begins => cases List.mem_singleton.mp among
  | ends suspended fresh running stored =>
    cases List.mem_singleton.mp among
    exact ⟨suspended, fresh, stored⟩

/-- A running machine that finds a fresh press, at an instruction that waits for a key or at
    another one, tells nothing about keys. -/
theorem filter_keyWait_of_fresh (running : m.awaiting = none) (fresh : m.freshPress = some key) :
    m.step.events.filter Event.isKeyWait = [] := by
  have course := m.waitCourse
  generalize m.step.events.filter Event.isKeyWait = lines, m.step.machine = after at course
  cases course with
  | nothing => rfl
  | begins _ _ none_ =>
    rw [fresh] at none_
    cases none_
  | ends suspended =>
    rw [running] at suspended
    cases suspended

/-- A wait that has ended: for which register, where, and with which key. -/
structure Wait where
  register : Nibble
  address : UInt16
  key : Nibble

/-- The lines of a wait that has ended. -/
def Wait.lines (w : Wait) : List Event :=
  [.waiting w.register w.address, .keyTaken w.key w.register]

/-- The line of the wait that has not ended, if the machine waits. -/
def openLine (m : Machine) : List Event :=
  m.awaiting.elim [] fun x => [.waiting x m.counter]

/-- The last line about keys tells whether the machine waits. -/
theorem awaiting_eq_some_iff (m : Machine) (waits : List Wait) :
    m.awaiting = some x ↔ ∃ address,
      (waits.flatMap Wait.lines ++ m.openLine).getLast? = some (.waiting x address) := by
  rw [openLine]
  cases m.awaiting with
  | some y =>
    rw [Option.elim_some, List.getLast?_concat, Option.some.injEq]
    constructor
    · rintro rfl
      exact ⟨m.counter, rfl⟩
    · rintro ⟨address, last⟩
      cases last
      rfl
  | none =>
    refine ⟨nofun, ?_⟩
    rintro ⟨address, last⟩
    rw [Option.elim_none, List.append_nil] at last
    rcases List.eq_nil_or_concat waits with rfl | ⟨waits, w, rfl⟩
    · cases last
    · have lines : (waits ++ [w]).flatMap Wait.lines =
          (waits.flatMap Wait.lines ++ [.waiting w.register w.address]) ++
            [.keyTaken w.key w.register] := by
        rw [List.flatMap_append, List.flatMap_singleton, List.append_assoc]
        rfl
      rw [List.concat_eq_append, lines, List.getLast?_concat] at last
      cases last

/-- Whether a machine ends a wait with its step. -/
def EndsWait (m : Machine) (w : Wait) : Prop :=
  m.awaiting = some w.register ∧ m.counter = w.address ∧
    .keyTaken w.key w.register ∈ m.step.events ∧
    m.step.machine.reg w.register = UInt8.ofNat w.key.val

/-- What a step tells about keys ends the wait of a machine that waits, or begins one. -/
theorem waits_step (m : Machine) : ∃ waits : List Wait,
    m.openLine ++ m.step.events.filter Event.isKeyWait =
      waits.flatMap Wait.lines ++ m.step.machine.openLine ∧ ∀ w ∈ waits, m.EndsWait w := by
  have told : ∀ e ∈ m.step.events.filter Event.isKeyWait, e ∈ m.step.events :=
    fun e among => (List.mem_filter.mp among).1
  -- the lines and the machine are made variables, which the cases then determine
  have course := m.waitCourse
  generalize lines_ : m.step.events.filter Event.isKeyWait = lines at told course ⊢
  generalize after_ : m.step.machine = after at course ⊢
  cases course with
  | nothing same still =>
    refine ⟨[], ?_, nofun⟩
    rw [List.append_nil, openLine, openLine, same]
    cases waits : m.awaiting with
    | none => rfl
    | some x => rw [Option.elim_some, Option.elim_some, still (by rw [waits]; exact nofun)]; rfl
  | begins running fetch fresh suspended still =>
    refine ⟨[], ?_, nofun⟩
    rw [openLine, openLine, running, suspended, Option.elim_some, still]
    rfl
  | @ends x key after suspended fresh running stored =>
    refine ⟨[⟨x, m.counter, key⟩], ?_, ?_⟩
    · rw [openLine, openLine, suspended, running]
      rfl
    · intro w only
      obtain rfl := List.mem_singleton.mp only
      exact ⟨suspended, rfl, told _ (List.mem_singleton_self _), by rw [after_]; exact stored⟩

/-- The lines about keys are those of the waits that have ended, each with a step, and of the one
    that has not. -/
theorem waits_after (config : Config) (chance : Generator) (history : List Action) :
    let start := create config chance
    ∃ waits : List Wait,
      (start.told history).filter Event.isKeyWait =
        waits.flatMap Wait.lines ++ (start.after history).openLine ∧
      ∀ w ∈ waits, ∃ c ∈ start.trace history, c.EndsWait w := by
  intro start
  rw [filter_told (fun _ => rfl)]
  apply history_induction (P := fun past m => ∃ waits : List Wait,
    (past.flatMap (·.step.events)).filter Event.isKeyWait =
      waits.flatMap Wait.lines ++ m.openLine ∧ ∀ w ∈ waits, ∃ c ∈ past, c.EndsWait w)
  case fresh => exact ⟨[], rfl, nofun⟩
  case step =>
    rintro past m ⟨waits, lines, ended⟩
    obtain ⟨more, further, ends⟩ := m.waits_step
    -- the line left open by the earlier steps is the one that this step may find
    refine ⟨waits ++ more, ?_, ?_⟩
    · rw [List.flatMap_append, List.flatMap_singleton, List.filter_append, lines,
        List.append_assoc, further, List.flatMap_append, List.append_assoc]
    · intro w among
      rcases List.mem_append.mp among with earlier | latest
      · obtain ⟨c, made, did⟩ := ended w earlier
        exact ⟨c, List.mem_append_left _ made, did⟩
      · exact ⟨m, List.mem_append_right _ (List.mem_singleton_self m), ends w latest⟩
  case other =>
    rintro past m a other ⟨waits, lines, ended⟩
    obtain ⟨memory, keypad, redraw, left⟩ := act_of_ne_step other m
    refine ⟨waits, ?_, ended⟩
    rw [lines, left]
    rfl

end Machine

/-! ## Beeps -/

/-- Whether every beep is announced, directly before it, and nothing else is announced so. -/
inductive BeepsTold : List Event → Prop
  | nil : BeepsTold []
  | beep {events : List Event} (rest : BeepsTold events) :
      BeepsTold (.soundEnded :: .beep :: events)
  | other {e : Event} {events : List Event} (silent : e ≠ .soundEnded) (quiet : e ≠ .beep)
      (rest : BeepsTold events) : BeepsTold (e :: events)

namespace BeepsTold

variable {events later : List Event}

theorem append (h : BeepsTold events) (h' : BeepsTold later) : BeepsTold (events ++ later) := by
  induction h with
  | nil => exact h'
  | beep _ ih => exact .beep ih
  | other silent quiet _ ih => exact .other silent quiet ih

/-- Place by place, a beep stands behind each line that announces one, and only there. -/
theorem getElem?_iff (h : BeepsTold events) :
    events[0]? ≠ some .beep ∧
      ∀ j, events[j]? = some .soundEnded ↔ events[j + 1]? = some .beep := by
  induction h with
  | nil => exact ⟨nofun, fun j => ⟨nofun, nofun⟩⟩
  | beep _ ih =>
    refine ⟨nofun, ?_⟩
    rintro (_ | _ | j)
    · exact ⟨fun _ => rfl, fun _ => rfl⟩
    · exact ⟨nofun, fun beeps => absurd beeps ih.1⟩
    · exact ih.2 j
  | other silent quiet _ ih =>
    refine ⟨fun first => quiet (Option.some.inj first), ?_⟩
    rintro (_ | j)
    · exact ⟨fun first => absurd (Option.some.inj first) silent, fun next => absurd next ih.1⟩
    · exact ih.2 j

end BeepsTold

namespace Machine

theorem beepsTold_tickEvents (m : Machine) : BeepsTold m.tickEvents := by
  rw [tickEvents]
  split
  · exact .beep .nil
  · exact .nil

theorem beepsTold_step (m : Machine) : BeepsTold m.step.events := by
  have way := m.stepCase
  generalize m.step = outcome at way
  cases way with
  | idle | unfetched | unknown => exact .nil
  | resume | complete => exact .other nofun nofun (beepsTold_tickEvents _)
  | obstructed => exact .other nofun nofun .nil
  | suspend => exact .other nofun nofun (.other nofun nofun .nil)

/-- No line comes between a beep and its announcement, whatever the history. -/
theorem beepsTold_told (m : Machine) (history : List Action) : BeepsTold (m.told history) := by
  induction history generalizing m with
  | nil => exact .nil
  | cons a history ih =>
    apply BeepsTold.append _ (ih (m.act a))
    by_cases h : a = .step
    · subst h
      exact m.beepsTold_step
    · rcases emits_of_ne_step h m with silent | ⟨size, loaded⟩
      · rw [silent]
        exact .nil
      · rw [loaded]
        exact .other nofun nofun .nil

end Machine

/-! ## The lines in the log -/

/-- What a beep leaves in the log is never of the levels of the lines of a machine. -/
theorem SoundDevice.filter_journal (device : SoundDevice) {level : Level}
    (inner : level = .trace ∨ level = .debug) (events : List Event) :
    (device.journal events).filter (·.level == level) =
      (events.filterMap Event.entry).filter (·.level == level) := by
  induction events with
  | nil => rfl
  | cons e events ih =>
    have head : (device.journal [e]).filter (·.level == level) =
        ([e].filterMap Event.entry).filter (·.level == level) := by
      cases e with
      | beep => rcases inner with rfl | rfl <;> cases device <;> rfl
      | _ => rfl
    rw [← List.singleton_append, SoundDevice.journal_append, List.filter_append, ih, head,
      List.filterMap_append, List.filter_append]

/-- A line of those levels is in the log iff it is the line of an event. -/
theorem SoundDevice.mem_journal_iff (device : SoundDevice) {entry : Entry}
    (inner : entry.level = .trace ∨ entry.level = .debug) {events : List Event} :
    entry ∈ device.journal events ↔ ∃ e ∈ events, e.entry = some entry := by
  have among : ∀ lines : List Entry,
      entry ∈ lines ↔ entry ∈ lines.filter (·.level == entry.level) := by
    intro lines
    rw [List.mem_filter]
    exact (and_iff_left (beq_self_eq_true _)).symm
  rw [among, device.filter_journal inner, ← among, List.mem_filterMap]

/-- The lines of level DEBUG are those about waits for keys and about the end of sounds. -/
theorem SoundDevice.filter_journal_debug (device : SoundDevice) (events : List Event) :
    (device.journal events).filter (·.level == .debug) = events.filterMap Event.debugLine := by
  rw [device.filter_journal (.inr rfl), List.filter_filterMap]
  apply congrArg fun line => events.filterMap line
  funext e
  cases e <;> rfl

/-- The lines of level TRACE are those about the words that are executed. -/
theorem Event.filter_trace (events : List Event) :
    (events.filterMap Event.entry).filter (·.level == .trace) =
      (events.filter Event.isExecuting).filterMap Event.entry := by
  rw [List.filter_filterMap, List.filterMap_filter]
  apply congrArg fun line => events.filterMap line
  funext e
  cases e <;> rfl

namespace Machine

variable {m : Machine}

/-- A line of level TRACE tells where the word stands that a step executes, which word it is, and
    which instruction. -/
theorem mem_journal_trace_iff (device : SoundDevice) {message : String} :
    let place := Hex.writeMarked Hex.location m.counter.toNat
    ⟨.trace, message⟩ ∈ device.journal m.step.events ↔
      m.awaiting = none ∧ ∃ word i, m.memory.readWord m.counter = .ok word ∧
        Instruction.decode word = some i ∧
        message = s!"{place}: {Hex.write Hex.word word.toNat} {i.listing}" := by
  intro place
  rw [device.mem_journal_iff (.inl rfl)]
  constructor
  · rintro ⟨e, tells, line⟩
    cases e with
    | executing address word i =>
      obtain ⟨running, rfl, fetch, decoded⟩ := mem_executing_iff.mp tells
      cases line
      exact ⟨running, word, i, fetch, decoded, rfl⟩
    | _ => cases line
  · rintro ⟨running, word, i, fetch, decoded, rfl⟩
    exact ⟨.executing m.counter word i, mem_executing_iff.mpr ⟨running, rfl, fetch, decoded⟩, rfl⟩

/-- Throughout every history the log tells what the steps do: which word each of them is about to
    execute and where; when the machine begins to wait for a key, and where and for which register
    and which key ends the wait; and when it beeps. Whatever the sound device, a step has a line of
    level TRACE iff it executes a word, and the lines of level DEBUG are those of the waits and of
    the beeps, in order. -/
theorem account_after (config : Config) (chance : Generator) (history : List Action) :
    let start := create config chance
    let m := start.after history
    let told := start.told history
    let place := Hex.writeMarked Hex.location m.counter.toNat
    start.told (history ++ [.step]) = told ++ m.step.events ∧
    (∀ address word i, .executing address word i ∈ m.step.events ↔
      m.awaiting = none ∧ address = m.counter ∧ m.memory.readWord m.counter = .ok word ∧
        Instruction.decode word = some i) ∧
    (∀ word, m.memory.readWord m.counter = .ok word → word.toNat =
      256 * (m.memory.byteAt m.counter.toNat).toNat +
        (m.memory.byteAt (m.counter.toNat + 1)).toNat) ∧
    (∀ device : SoundDevice,
      (device.journal m.step.events).filter (·.level == .trace) =
        (m.step.events.filter Event.isExecuting).filterMap Event.entry ∧
      (m.step.events.filter Event.isExecuting).length ≤ 1 ∧
      (∀ message, ⟨.trace, message⟩ ∈ device.journal m.step.events ↔
        m.awaiting = none ∧ ∃ word i, m.memory.readWord m.counter = .ok word ∧
          Instruction.decode word = some i ∧
          message = s!"{place}: {Hex.write Hex.word word.toNat} {i.listing}") ∧
      (device.journal told).filter (·.level == .debug) = told.filterMap Event.debugLine ∧
      ∀ level, level = .trace ∨ level = .debug →
        (device.journal told).filter (·.level == level) =
          (told.filterMap Event.entry).filter (·.level == level)) ∧
    (∃ waits : List Wait,
      told.filter Event.isKeyWait = waits.flatMap Wait.lines ++
        m.awaiting.elim [] (fun x => [.waiting x m.counter]) ∧
      ∀ w ∈ waits, ∃ c ∈ start.trace history, c.EndsWait w) ∧
    (∀ x, m.awaiting = some x ↔
      ∃ address, (told.filter Event.isKeyWait).getLast? = some (.waiting x address)) ∧
    (∀ x address, .waiting x address ∈ m.step.events ↔
      m.awaiting = none ∧ m.memory.readWord m.counter = .ok (Instruction.waitWord x) ∧
        m.freshPress = none ∧ address = m.counter) ∧
    (∀ key x, .keyTaken key x ∈ m.step.events →
      m.awaiting = some x ∧ m.step.machine.reg x = UInt8.ofNat key.val) ∧
    (∀ x key, m.awaiting = none →
      m.memory.readWord m.counter = .ok (Instruction.waitWord x) → m.freshPress = some key →
      m.step.events.filter Event.isKeyWait = []) ∧
    told[0]? ≠ some .beep ∧
    ∀ j, told[j]? = some .soundEnded ↔ told[j + 1]? = some .beep := by
  intro start m told place
  have waits := waits_after config chance history
  refine ⟨start.told_concat history .step, fun _ _ _ => mem_executing_iff, ?_, ?_, waits, ?_,
    fun _ _ => mem_waiting_iff, ?_,
    fun _ _ running _ fresh => filter_keyWait_of_fresh running fresh,
    (start.beepsTold_told history).getElem?_iff⟩
  · intro word fetch
    rw [(Memory.readWord_eq_ok_iff.mp fetch).2, Memory.wordAt, Word.toNat_ofBytes]
  · intro device
    refine ⟨?_, m.length_filter_executing_le, fun _ => mem_journal_trace_iff device,
      device.filter_journal_debug told, fun level inner => device.filter_journal inner told⟩
    rw [device.filter_journal (.inl rfl), Event.filter_trace]
  · intro x
    obtain ⟨ended, lines, -⟩ := waits
    rw [lines]
    exact m.awaiting_eq_some_iff ended
  · intro key x tells
    obtain ⟨suspended, -, stored⟩ := of_mem_keyTaken tells
    exact ⟨suspended, stored⟩

/-- A program that waits for a key at once says so, and where. -/
theorem account_after_wait :
    let told := (create {} (.ofSeed 0)).told [.load [0xF3, 0x0A], .step]
    .executing 0x200 0xF30A (.waitKey 3) ∈ (started [0xF3, 0x0A]).step.events ∧
    .waiting 3 0x200 ∈ (started [0xF3, 0x0A]).step.events ∧
    ⟨.trace, "0x200: F30A WaitKey \x7b x: 3 \x7d"⟩ ∈
      SoundDevice.mute.journal (started [0xF3, 0x0A]).step.events ∧
    ∃ address, (told.filter Event.isKeyWait).getLast? = some (.waiting 3 address) := by
  have fetch : (started [0xF3, 0x0A]).memory.readWord 0x200 = .ok 0xF30A := readWord_started 0xF30A
  have waits : (started [0xF3, 0x0A]).step.machine.awaiting = some 3 :=
    congrArg (·.machine.awaiting) (step_suspend rfl fetch (x := 3) (by decide) rfl)
  have running : (started [0xF3, 0x0A]).awaiting = none := rfl
  have fresh : (started [0xF3, 0x0A]).freshPress = none := rfl
  unfold started at *
  rw [← act_step, ← after_concat] at waits
  obtain ⟨-, tells, -, lines, -, -, begins, -⟩ := account_after {} (.ofSeed 0) [.load [0xF3, 0x0A]]
  obtain ⟨-, -, traced, -⟩ := lines .mute
  obtain ⟨-, -, -, -, -, last, -⟩ := account_after {} (.ofSeed 0) ([.load [0xF3, 0x0A]] ++ [.step])
  refine ⟨(tells _ _ _).mpr ⟨running, rfl, fetch, by decide⟩,
    (begins _ _).mpr ⟨running, fetch, fresh, rfl⟩, ?_, (last 3).mp waits⟩
  exact (traced _).mpr ⟨running, 0xF30A, .waitKey 3, fetch, by decide, by decide⟩

end Machine

end Chip8
