import Chip8.Proofs.Course
import Chip8.Proofs.Failure

/-!
# The word that a step executes

A step that finds the machine running and does not fail executes the word at the
counter. What such a word does is told by its nibbles, as an instruction set manual
has it, and without the decoder.

Results:

* `exists_of_executed`, `carriesOut_of_executed`, `executed_of_carriesOut`: the word that is
  executed spells the instruction that is carried out.
* `executed_eq_none_iff`: where no word is executed, no instruction is carried out.
-/

namespace Chip8.Machine

variable {m : Machine} {d : Nibbles} {i : Instruction}

/-- The nibbles of the word that the step of a machine executes, if it executes one. -/
def executed (m : Machine) : Option Nibbles :=
  if m.awaiting = none ∧ m.step.fault = none then
    some (.ofWord (m.memory.wordAt m.counter.toNat))
  else none

theorem executed_eq_some_iff :
    m.executed = some d ↔
      (m.awaiting = none ∧ m.step.fault = none) ∧
        Nibbles.ofWord (m.memory.wordAt m.counter.toNat) = d := Option.ite_some_none_eq_some

theorem exists_of_executed (h : m.executed = some d) :
    ∃ i, m.carriesOut = some i ∧ Instruction.Spells d i := by
  obtain ⟨⟨running, succeeds⟩, rfl⟩ := executed_eq_some_iff.mp h
  have spells : ∀ {word : UInt16} {i : Instruction}, m.memory.readWord m.counter = .ok word →
      Instruction.decode word = some i → m.carriesOut = some i ∧
        Instruction.Spells (.ofWord (m.memory.wordAt m.counter.toNat)) i := by
    intro word i fetch decoded
    obtain ⟨-, rfl⟩ := Memory.readWord_eq_ok_iff.mp fetch
    rw [carriesOut_of_fetch running fetch succeeds, decoded]
    exact ⟨rfl, Instruction.spells_of_decode decoded⟩
  have way := m.stepCase
  generalize m.step = outcome at succeeds way
  cases way with
  | idle suspended | resume suspended =>
    rw [running] at suspended
    cases suspended
  | unfetched | unknown | obstructed => cases succeeds
  | suspend running fetch decoded => exact ⟨_, spells fetch decoded⟩
  | complete running fetch decoded => exact ⟨_, spells fetch decoded⟩

/-- A word that is executed has one reading. -/
theorem carriesOut_of_executed (h : m.executed = some d) (spells : Instruction.Spells d i) :
    m.carriesOut = some i := by
  obtain ⟨j, done, spells'⟩ := exists_of_executed h
  have decoded := Instruction.ofNibbles_of_spells spells
  rw [Instruction.ofNibbles_of_spells spells'] at decoded
  cases decoded
  exact done

theorem executed_of_carriesOut (h : m.carriesOut = some i) :
    ∃ d, m.executed = some d ∧ Instruction.Spells d i := by
  obtain ⟨running, succeeds, word, fetch, decoded⟩ := of_carriesOut h
  obtain ⟨-, rfl⟩ := Memory.readWord_eq_ok_iff.mp fetch
  exact ⟨_, executed_eq_some_iff.mpr ⟨⟨running, succeeds⟩, rfl⟩,
    Instruction.spells_of_decode decoded⟩

theorem executed_eq_none_iff : m.executed = none ↔ m.carriesOut = none := by
  constructor
  · intro h
    cases done : m.carriesOut with
    | none => rfl
    | some i =>
      obtain ⟨d, executed, -⟩ := executed_of_carriesOut done
      rw [h] at executed
      cases executed
  · intro h
    cases executed : m.executed with
    | none => rfl
    | some d =>
      obtain ⟨i, done, -⟩ := exists_of_executed executed
      rw [h] at done
      cases done

end Chip8.Machine
