import Chip8.Proofs.Calls
import Chip8.Proofs.Failure
import Mathlib.Data.List.Infix

/-!
# Where the counter can be

The counter and the addresses on the call stack are words, and what is added to
them or taken from them could wrap. It never does: a machine fetches nothing behind
the last cell, so what goes on from a fetched word stays close to memory, and the
only jump that leaves memory goes 255 bytes beyond the last address that an
instruction can name.

A `Place` is what the counter and the call stack would be with integers that have
no bounds.

Results:

* `Place.Confined.execute`: an instruction that was fetched leads to a confined place.
* `place_step`: while the place of a machine is confined, a step computes with words
  what it would compute with integers.
* `counter_after`: so it is throughout every history.
-/

namespace Chip8

/-- The counter and the stored addresses, the oldest first, as integers. -/
@[ext] structure Place where
  counter : Int
  stored : List Int
deriving DecidableEq, Repr

/-- The place of a machine. -/
def Machine.place (m : Machine) : Place where
  counter := m.counter.toNat
  stored := m.stack.toList.map fun a => a.toNat

namespace Place

/-- The place of a fresh machine. -/
def start : Place := ⟨0x200, []⟩

/-- The place one instruction further on. -/
def advance (p : Place) : Place := { p with counter := p.counter + 2 }

/-- Where an instruction leads that is carried out behind its word, with the registers and the keys
    of a machine. -/
def execute (p : Place) (m : Machine) (fresh : Option Nibble) : Instruction → Place
  | .return => ⟨p.stored.getLastD p.counter, p.stored.dropLast⟩
  | .jump target => { p with counter := target.val }
  | .call target => ⟨target.val, p.stored ++ [p.counter]⟩
  | .jumpOffset base => { p with counter := base.val + (m.reg 0).toNat }
  | .skip condition => if m.holds condition then p.advance else p
  | .waitKey _ => if fresh.isNone then { p with counter := p.counter - 2 } else p
  | _ => p

/-- Where a step leads: a suspended machine goes on once it takes a key, and a running machine goes
    on iff there is a word to fetch. -/
def step (p : Place) (m : Machine) : Place :=
  match m.awaiting with
  | some _ => if m.freshPress.isSome then p.advance else p
  | none =>
    if p.counter + 2 ≤ memorySize then
      m.carriesOut.elim p.advance (p.advance.execute m.drained m.freshPress)
    else p

/-- A place that the counter and the stored addresses can have. -/
structure Confined (p : Place) : Prop where
  nonneg : 0 ≤ p.counter
  counter_le : p.counter ≤ 0x10FE
  stored : ∀ a ∈ p.stored, 0x002 ≤ a ∧ a ≤ 0x1000

variable {p : Place} {m : Machine}

theorem confined_start : start.Confined := ⟨by decide, by decide, by simp [start]⟩

theorem Confined.move (h : p.Confined) {counter : Int} (nonneg : 0 ≤ counter)
    (le : counter ≤ 0x10FE) : Confined { p with counter := counter } := ⟨nonneg, le, h.stored⟩

/-- An instruction that was fetched from memory leads to a confined place. -/
theorem Confined.execute (h : p.Confined) (behind : 2 ≤ p.counter) (inside : p.counter ≤ memorySize)
    (fresh : Option Nibble) (i : Instruction) : (p.execute m fresh i).Confined := by
  simp only [memorySize] at inside
  cases i with
  | «return» =>
    have among : p.stored.getLastD p.counter ∈ p.counter :: p.stored := List.getLastD_mem_cons
    -- without a stored address, the place stays behind the instruction
    have back : 2 ≤ p.stored.getLastD p.counter ∧ p.stored.getLastD p.counter ≤ 0x1000 := by
      rcases List.mem_cons.mp among with here | stored
      · rw [here]
        exact ⟨behind, inside⟩
      · exact h.stored _ stored
    have moved := h.move (Int.le_trans (by decide) back.1) (Int.le_trans back.2 (by decide))
    exact ⟨moved.nonneg, moved.counter_le, fun a left => h.stored a (List.mem_of_mem_dropLast left)⟩
  | jump target =>
    have := target.isLt
    exact h.move (by omega) (by omega)
  | call target =>
    have := target.isLt
    have moved : Place.Confined ⟨target.val, p.stored⟩ := h.move (by omega) (by omega)
    refine ⟨moved.nonneg, moved.counter_le, ?_⟩
    intro a among
    rcases List.mem_append.mp among with stored | new
    · exact h.stored a stored
    · obtain rfl := List.mem_singleton.mp new
      exact ⟨behind, inside⟩
  | jumpOffset base =>
    have := base.isLt
    have := (m.reg 0).toNat_lt
    exact h.move (by omega) (by omega)
  | skip condition =>
    rw [Place.execute]
    split
    · exact h.move (by omega) (by omega)
    · exact h
  | waitKey x =>
    rw [Place.execute]
    split
    · exact h.move (by omega) (by omega)
    · exact h
  | _ => exact h

theorem Confined.step (h : p.Confined)
    (inside : m.awaiting ≠ none → p.counter + 2 ≤ memorySize) : (p.step m).Confined := by
  have nonneg := h.nonneg
  simp only [memorySize] at inside
  rw [Place.step]
  cases suspended : m.awaiting with
  | some x =>
    have room := inside (by simp [suspended])
    simp only
    split
    · exact h.move (by omega) (by omega)
    · exact h
  | none =>
    simp only [memorySize]
    split
    · next room =>
      have behind : p.advance.Confined := h.move (by omega) (by omega)
      cases m.carriesOut with
      | none => exact behind
      | some i =>
        apply behind.execute
        · show 2 ≤ p.counter + 2
          omega
        · exact room
    · exact h

end Place

namespace Machine

variable {m after : Machine} {fresh : Option Nibble}

/-! ## One instruction -/

theorem toNat_add_two {a : UInt16} (small : a.toNat + 2 < 65536) : (a + 2).toNat = a.toNat + 2 := by
  rw [UInt16.toNat_add]
  exact Nat.mod_eq_of_lt small

theorem place_advance (high : m.place.counter ≤ 0x10FE) : m.advance.place = m.place.advance := by
  have high : (m.counter.toNat : Int) ≤ 0x10FE := high
  apply Place.ext
  · show ((m.counter + 2).toNat : Int) = m.counter.toNat + 2
    rw [toNat_add_two (by omega)]
    rfl
  · rfl

/-- The integers of an instruction that does not fail. -/
theorem place_of_execute {i : Instruction} (ran : (execute fresh i).run m = .ok () after)
    (low : 2 ≤ m.place.counter) (high : m.place.counter ≤ 0x10FE) :
    after.place = m.place.execute m fresh i := by
  cases i with
  | «return» =>
    obtain ⟨target, stack, popped, rfl⟩ := of_run_return ran
    simp [place, Place.execute, popped]
  | call target =>
    obtain ⟨stack, pushed, rfl⟩ := of_run_call ran
    simp [place, Place.execute, pushed]
  | jump target =>
    cases ran
    simp [place, Place.execute, goTo]
  | jumpOffset base =>
    cases ran
    have := base.isLt
    have := (m.reg 0).toNat_lt
    have target :
        (Word.ofAddress base + (m.reg 0).toUInt16).toNat = base.val + (m.reg 0).toNat := by
      rw [UInt16.toNat_add, Word.toNat_ofAddress, UInt8.toNat_toUInt16]
      exact Nat.mod_eq_of_lt (by omega)
    apply Place.ext
    · show ((Word.ofAddress base + (m.reg 0).toUInt16).toNat : Int) = _
      rw [target]
      rfl
    · rfl
  | skip condition =>
    cases ran
    show (if m.holds condition then m.advance else m).place = _
    rw [Place.execute]
    split
    · exact place_advance high
    · rfl
  | waitKey x =>
    cases fresh with
    | some key =>
      cases ran
      rfl
    | none =>
      cases ran
      have low : 2 ≤ (m.counter.toNat : Int) := low
      have back : (m.counter - 2).toNat = m.counter.toNat - 2 :=
        UInt16.toNat_sub_of_le _ _
          (UInt16.le_iff_toNat_le.mpr (by simp only [UInt16.reduceToNat]; omega))
      apply Place.ext
      · show ((m.counter - 2).toNat : Int) = m.counter.toNat - 2
        rw [back]
        omega
      · rfl
  | draw x y n =>
    obtain rfl := of_run_draw ran
    rfl
  | loadRegisters x =>
    obtain rfl := of_run_loadRegisters ran
    rfl
  | storeDecimal x | storeRegisters x =>
    rw [execute, run_get_bind] at ran
    obtain rfl := of_run_storeAtIndex ran
    rfl
  | _ =>
    cases ran
    rfl

/-! ## One step -/

/-- What holds of the counter and the stored addresses of every machine that can be reached. -/
structure Confined (m : Machine) : Prop where
  place : m.place.Confined
  /-- A suspended machine has fetched the word at its counter. -/
  suspended : m.awaiting ≠ none → m.place.counter + 2 ≤ memorySize

theorem Confined.counter_le_of_suspended {x : Nibble} (h : m.Confined)
    (suspended : m.awaiting = some x) : m.counter.toNat ≤ 0xFFE := by
  have waits : m.awaiting ≠ none := by
    rw [suspended]
    exact Option.some_ne_none x
  have inside : (m.counter.toNat : Int) + 2 ≤ memorySize := h.suspended waits
  simp only [memorySize] at inside
  omega

theorem counter_of_fetch {word : UInt16} (fetch : m.memory.readWord m.counter = .ok word) :
    m.place.counter + 2 ≤ memorySize := by
  have inside := (Memory.readWord_eq_ok_iff.mp fetch).1
  show (m.counter.toNat : Int) + 2 ≤ memorySize
  omega

theorem step_place_of_fetch {word : UInt16} (running : m.awaiting = none)
    (fetch : m.memory.readWord m.counter = .ok word) :
    m.place.step m =
      m.carriesOut.elim m.place.advance (m.place.advance.execute m.drained m.freshPress) := by
  rw [Place.step, running]
  exact if_pos (counter_of_fetch fetch)

/-- A step computes the counter and the stored addresses as if words had no bounds. -/
theorem place_step (h : m.Confined) : m.step.machine.place = m.place.step m := by
  have high := h.place.counter_le
  have nonneg := h.place.nonneg
  have moved : m.drained.advance.place = m.place.advance := place_advance high
  have way := m.stepCase
  generalize outcome : m.step = o at way
  cases way with
  | idle suspended fresh =>
    simp only [Place.step, suspended, fresh]
    rfl
  | resume suspended fresh =>
    simp only [Place.step, suspended, fresh]
    exact moved
  | unfetched running fetch =>
    have outside : ¬ m.place.counter + 2 ≤ memorySize := by
      intro inside
      have inside : m.counter.toNat + 1 < memorySize := by
        simp only [place] at inside
        omega
      rw [Memory.readWord_eq_ok_iff.mpr ⟨inside, rfl⟩] at fetch
      cases fetch
    rw [Place.step, running]
    exact (if_neg outside).symm
  | unknown running fetch unknown =>
    rw [step_place_of_fetch running fetch, carriesOut_of_fault (congrArg Outcome.fault outcome)]
    exact moved
  | obstructed running fetch decoded obstacle =>
    rw [step_place_of_fetch running fetch, carriesOut_of_fault (congrArg Outcome.fault outcome)]
    exact moved
  | suspend running fetch decoded fresh =>
    -- the step back undoes the step beyond the instruction
    rw [step_place_of_fetch running fetch,
      carriesOut_of_fetch running fetch (congrArg Outcome.fault outcome), decoded, fresh]
    apply Place.ext
    · show m.place.counter = m.place.counter + 2 - 2
      omega
    · rfl
  | complete running fetch decoded clear ran still =>
    have inside := counter_of_fetch fetch
    rw [step_place_of_fetch running fetch,
      carriesOut_of_fetch running fetch (congrArg Outcome.fault outcome), decoded, ← moved]
    simp only [memorySize] at inside
    apply place_of_execute ran
    · rw [moved]
      show 2 ≤ m.place.counter + 2
      omega
    · rw [moved]
      show m.place.counter + 2 ≤ 0x10FE
      omega

theorem Confined.step (h : m.Confined) : m.step.machine.Confined := by
  refine ⟨place_step h ▸ h.place.step h.suspended, ?_⟩
  have way := m.stepCase
  generalize m.step = o at way
  cases way with
  | idle suspended fresh => exact h.suspended
  | resume suspended fresh => exact fun waits => absurd rfl waits
  | unfetched running fetch => exact fun waits => absurd running waits
  | unknown running fetch unknown => exact fun waits => absurd running waits
  | obstructed running fetch decoded obstacle => exact fun waits => absurd running waits
  | suspend running fetch decoded fresh => exact fun _ => counter_of_fetch fetch
  | complete running fetch decoded clear ran still => exact fun waits => absurd still waits

/-! ## Histories -/

theorem confined_after (config : Config) (chance : Generator) (history : List Action) :
    let start := create config chance
    (start.after history).Confined ∧
      (start.after history).place = (start.trace history).foldl Place.step Place.start := by
  refine history_induction
    (P := fun past m => m.Confined ∧ m.place = past.foldl Place.step Place.start) ?_ ?_ ?_ history
  · exact ⟨⟨Place.confined_start, fun waits => absurd rfl waits⟩, rfl⟩
  · rintro past m ⟨confined, same⟩
    refine ⟨confined.step, ?_⟩
    rw [place_step confined, List.foldl_append, ← same]
    rfl
  · rintro past m a other ⟨confined, same⟩
    obtain ⟨memory, keypad, redraw, left⟩ := act_of_ne_step other m
    rw [left]
    exact ⟨⟨confined.place, confined.suspended⟩, same⟩

theorem confined_of_reachable (reachable : m.Reachable) : m.Confined := by
  obtain ⟨config, chance, history, rfl⟩ := (reachable_iff m).mp reachable
  exact (confined_after config chance history).1

/-- The counter stays close to memory, what is stored on the call stack are addresses behind an
    instruction, and a suspended machine points to one. So no addition to the counter and no
    subtraction from it wraps, and what the steps of a history compute is what they would compute
    with integers that have no bounds. -/
theorem counter_after (config : Config) (chance : Generator) (history : List Action) :
    let start := create config chance
    let m := start.after history
    m.counter.toNat ≤ 0x10FE ∧
    (∀ a ∈ m.stack.toList, 0x002 ≤ a.toNat ∧ a.toNat ≤ 0x1000) ∧
    (∀ x, m.awaiting = some x → x.val ≤ 15 ∧ m.counter.toNat ≤ 0xFFE) ∧
    (m.counter + 2).toNat = m.counter.toNat + 2 ∧
    (m.counter + 2 + 2).toNat = m.counter.toNat + 2 + 2 ∧
    ((m.counter + 2 - 2).toNat : Int) = (m.counter + 2).toNat - 2 ∧
    m.place = (start.trace history).foldl Place.step Place.start := by
  intro start m
  obtain ⟨confined, same⟩ := confined_after config chance history
  have high : (m.counter.toNat : Int) ≤ 0x10FE := confined.place.counter_le
  have once : (m.counter + 2).toNat = m.counter.toNat + 2 := toNat_add_two (by omega)
  refine ⟨by omega, ?_, ?_, once, ?_, ?_, same⟩
  · intro a among
    have bounds := confined.place.stored a.toNat (List.mem_map.mpr ⟨a, among, rfl⟩)
    omega
  · intro x suspended
    have waits : m.awaiting ≠ none := by
      rw [suspended]
      exact Option.some_ne_none x
    have inside : (m.counter.toNat : Int) + 2 ≤ memorySize := confined.suspended waits
    simp only [memorySize] at inside
    have low := x.isLt
    omega
  · rw [toNat_add_two (by omega), once]
  · rw [UInt16.add_sub_cancel, once]
    omega

/-! ## A call of a routine that waits for a key -/

theorem waits_after_call {target : Address} {x : Nibble}
    (called : m.carriesOut = some (.call target))
    (fetch : m.memory.readWord (Word.ofAddress target) = .ok (Instruction.waitWord x)) :
    m.step.machine.step.machine.stack.toList = m.stack.toList ++ [m.counter + 2] ∧
      m.step.machine.step.machine.awaiting = some x := by
  have pushed := m.stack_step
  rw [called] at pushed
  obtain ⟨running, memory, counter, fresh⟩ := machine_of_call called
  rw [step_suspend running (by rw [memory, counter, fetch]) (Instruction.decode_waitWord x) fresh]
  exact ⟨pushed, rfl⟩

theorem after_two_steps (program : List UInt8) :
    (create {} (.ofSeed 0)).after [.load program, .step, .step] =
      (started program).step.machine.step.machine := rfl

/-- A routine is called that waits for a key. -/
theorem counter_after_call_and_wait :
    let start := create {} (.ofSeed 0)
    let history := [.load [0x22, 0x04, 0x00, 0x00, 0xF3, 0x0A], .step, .step]
    let m := start.after history
    m.stack.toList = [0x202] ∧ 0x002 ≤ (0x202 : UInt16).toNat ∧ m.awaiting = some 3 ∧
      m.counter.toNat ≤ 0xFFE ∧
      m.place = (start.trace history).foldl Place.step Place.start := by
  have loaded : started [0x22, 0x04, 0x00, 0x00, 0xF3, 0x0A] = _ := started_eq (by decide)
  have first : (started [0x22, 0x04, 0x00, 0x00, 0xF3, 0x0A]).memory.readWord 0x200 =
    .ok 0x2204 := readWord_started_at (k := 0) (by decide) rfl rfl rfl
  have second : (started [0x22, 0x04, 0x00, 0x00, 0xF3, 0x0A]).memory.readWord
    (Word.ofAddress 0x204) = .ok (Instruction.waitWord 3) :=
      readWord_started_at (k := 4) (by decide) rfl rfl rfl
  have called : (started [0x22, 0x04, 0x00, 0x00, 0xF3, 0x0A]).carriesOut =
      some (.call 0x204) := by
    apply carriesOut_of_clear _ first (by decide)
    · rw [loaded]
      rfl
    · rw [loaded]
      rfl
  have fresh : (started [0x22, 0x04, 0x00, 0x00, 0xF3, 0x0A]).stack.toList ++
      [(started [0x22, 0x04, 0x00, 0x00, 0xF3, 0x0A]).counter + 2] = [0x202] := by
    rw [loaded]
    rfl
  obtain ⟨stack, awaiting⟩ := waits_after_call called second
  rw [← after_two_steps] at stack awaiting
  rw [fresh] at stack
  obtain ⟨-, stored, suspended, -, -, -, same⟩ := counter_after {} (.ofSeed 0)
    [.load [0x22, 0x04, 0x00, 0x00, 0xF3, 0x0A], .step, .step]
  have among := List.mem_singleton_self (0x202 : UInt16)
  rw [← stack] at among
  exact ⟨stack, (stored 0x202 among).1, awaiting, (suspended 3 awaiting).2, same⟩

end Machine

end Chip8
