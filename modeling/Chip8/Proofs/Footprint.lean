import Chip8.Proofs.Executed

/-!
# The footprint of a step

A program changes few parts of a machine with each word. Which ones is a table over
the nibbles of the word; every other part is kept, but that the timers tick. A step
that executes no word keeps everything, but for the register that takes the key when
a wait ends.

Results:

* `reg_of_execute`, `mem_footprint_of_writes`: an instruction changes no register but those that
  its word lists.
* `kept_of_executed`: what a step keeps that executes a word.
* `kept_of_idle`: what a step keeps that executes no word.
* `toNat_index_step`: what I is after each step.
* `footprint_of_step`: all of these, in every machine.
-/

namespace Chip8

/-- A part of a machine that programs change. -/
inductive Component where
  | register (k : Nibble)
  | index
  | stack
  | timers
  | memory
  | display
deriving DecidableEq, Repr

/-- The parts that the word of these nibbles may change. -/
def Nibbles.footprint (d : Nibbles) : List Component :=
  match d.kind, d.x, d.y, d.n with
  | 0x0, 0x0, 0xE, 0x0 => [.display]
  | 0x0, 0x0, 0xE, 0xE => [.stack]
  | 0x2, _, _, _ => [.stack]
  | 0x6, x, _, _ => [.register x]
  | 0x7, x, _, _ => [.register x]
  | 0x8, x, _, n =>
    if n ∈ [0x4, 0x5, 0x6, 0x7, 0xE] then [.register x, .register 0xF] else [.register x]
  | 0xA, _, _, _ => [.index]
  | 0xC, x, _, _ => [.register x]
  | 0xD, _, _, _ => [.display, .register 0xF]
  | 0xF, x, 0x0, 0x7 => [.register x]
  | 0xF, x, 0x0, 0xA => [.register x]
  | 0xF, _, 0x1, 0x5 => [.timers]
  | 0xF, _, 0x1, 0x8 => [.timers]
  | 0xF, _, 0x1, 0xE => [.index]
  | 0xF, _, 0x2, 0x9 => [.index]
  | 0xF, _, 0x3, 0x3 => [.memory]
  | 0xF, _, 0x5, 0x5 => [.memory]
  | 0xF, x, 0x6, 0x5 => ((List.finRange 16).filter (· ≤ x)).map .register
  | _, _, _, _ => []

/-- The words of calls and skips, and of additions, addresses and stores that report no flag. -/
inductive Nibbles.SparesFlag : Nibbles → Prop where
  | call (x y n : Nibble) : SparesFlag ⟨0x2, x, y, n⟩
  | skipEqualValue (x y n : Nibble) : SparesFlag ⟨0x3, x, y, n⟩
  | skipNotEqualValue (x y n : Nibble) : SparesFlag ⟨0x4, x, y, n⟩
  | skipEqualRegister (x y : Nibble) : SparesFlag ⟨0x5, x, y, 0x0⟩
  | addValue {x : Nibble} (y n : Nibble) (other : x ≠ 0xF) : SparesFlag ⟨0x7, x, y, n⟩
  | skipNotEqualRegister (x y : Nibble) : SparesFlag ⟨0x9, x, y, 0x0⟩
  | loadIndex (x y n : Nibble) : SparesFlag ⟨0xA, x, y, n⟩
  | skipKeyDown (x : Nibble) : SparesFlag ⟨0xE, x, 0x9, 0xE⟩
  | skipKeyUp (x : Nibble) : SparesFlag ⟨0xE, x, 0xA, 0x1⟩
  | addIndex (x : Nibble) : SparesFlag ⟨0xF, x, 0x1, 0xE⟩
  | loadGlyph (x : Nibble) : SparesFlag ⟨0xF, x, 0x2, 0x9⟩
  | storeDecimal (x : Nibble) : SparesFlag ⟨0xF, x, 0x3, 0x3⟩
  | storeRegisters (x : Nibble) : SparesFlag ⟨0xF, x, 0x5, 0x5⟩

theorem Nibbles.SparesFlag.not_mem {d : Nibbles} (h : d.SparesFlag) :
    Component.register 0xF ∉ d.footprint := by
  cases h with
  | addValue y n other =>
    rintro (_ | ⟨_, ⟨⟩⟩)
    exact other rfl
  | _ => nofun

/-- The registers that an instruction may change. -/
def Instruction.Writes (k : Nibble) : Instruction → Prop
  | .loadValue x _ => k = x
  | .addValue x _ => k = x
  | .combine operation x _ => k = x ∨ k = 0xF ∧ ∃ a b, (operation.compute a b).flag ≠ none
  | .shift _ x => k = x ∨ k = 0xF
  | .random x _ => k = x
  | .draw _ _ _ => k = 0xF
  | .loadDelay x => k = x
  | .waitKey x => k = x
  | .loadRegisters x => k ≤ x
  | _ => False

namespace Machine

variable {m after : Machine} {fresh : Option Nibble} {d : Nibbles} {i : Instruction} {k : Nibble}

/-- Whether a step keeps a part of the machine; the timers may tick. -/
def Keeps (m : Machine) (o : Outcome) : Component → Prop
  | .register k => o.machine.reg k = m.reg k
  | .index => o.machine.index = m.index
  | .stack => o.machine.stack = m.stack
  | .timers =>
    o.machine.timers = if o.ticked then m.timers.tick m.config.timerDivider else m.timers
  | .memory => o.machine.memory = m.memory
  | .display => o.machine.display = m.display

/-- I after the word of these nibbles. -/
def indexBy (m : Machine) (d : Nibbles) : Nat :=
  match d.kind, d.y, d.n with
  | 0xA, _, _ => d.address.val
  | 0xF, 0x1, 0xE => (m.index.toNat + (m.reg d.x).toNat) % 65536
  | 0xF, 0x2, 0x9 => 5 * ((m.reg d.x).toNat % 16)
  | _, _, _ => m.index.toNat

/-! ## Registers -/

theorem get_put_of_ne {v : Registers} {x : Nibble} {c : Computed} (other : k ≠ x)
    (noFlag : k = 0xF → c.flag = none) : (v.put x c).get k = v.get k := by
  rw [Registers.get_put]
  cases flag : c.flag with
  | none => exact if_neg (Ne.symm other)
  | some b =>
    have spared : Registers.flag ≠ k := by
      intro same
      rw [noFlag same.symm] at flag
      cases flag
    exact (if_neg spared).trans (if_neg (Ne.symm other))

/-- A register that the instruction does not write is kept, VF among them. -/
theorem reg_of_execute (ran : (execute fresh i).run m = .ok () after) (spared : ¬ i.Writes k) :
    after.reg k = m.reg k := by
  cases i with
  | loadValue | addValue | random | loadDelay =>
    cases ran
    exact (Registers.get_set _ _ _ _).trans (if_neg (Ne.symm spared))
  | waitKey x =>
    cases fresh with
    | none =>
      cases ran
      rfl
    | some key =>
      cases ran
      exact (Registers.get_set _ _ _ _).trans (if_neg (Ne.symm spared))
  | combine operation x y =>
    obtain ⟨other, noFlag⟩ := not_or.mp spared
    cases ran
    exact get_put_of_ne other fun last =>
      Decidable.byContradiction fun flag => noFlag ⟨last, _, _, flag⟩
  | shift direction x =>
    obtain ⟨other, notLast⟩ := not_or.mp spared
    cases ran
    exact get_put_of_ne other fun last => absurd last notLast
  | draw x y n =>
    -- the flag is the only register that a drawing sets
    obtain rfl := of_run_draw ran
    exact (Registers.get_set _ _ _ _).trans (if_neg (Ne.symm spared))
  | loadRegisters x =>
    obtain rfl := of_run_loadRegisters ran
    have beyond : x.val < k.val := Nat.lt_of_not_le spared
    rw [reg, Registers.get_restore, List.getElem?_eq_none]
    · rfl
    · rw [List.length_map, List.length_range']
      exact beyond
  | «return» =>
    obtain ⟨target, stack, -, rfl⟩ := of_run_return ran
    rfl
  | call target =>
    obtain ⟨stack, -, rfl⟩ := of_run_call ran
    rfl
  | storeDecimal x | storeRegisters x =>
    rw [execute, run_get_bind] at ran
    obtain rfl := of_run_storeAtIndex ran
    rfl
  | skip condition =>
    cases ran
    show (if m.holds condition then m.advance else m).reg k = m.reg k
    split <;> rfl
  | _ =>
    cases ran
    rfl

theorem mem_footprint_of_writes (spelled : Instruction.Spells d i) (h : i.Writes k) :
    .register k ∈ d.footprint := by
  cases i with
  | loadValue | addValue | random | loadDelay | waitKey =>
    obtain rfl := spelled
    obtain rfl := h
    exact List.mem_singleton_self _
  | combine operation x y =>
    obtain rfl := spelled
    obtain rfl | ⟨rfl, a, b, flag⟩ := h
    · cases operation <;> exact List.mem_cons_self
    · cases operation with
      | load | or | and | xor => exact absurd rfl flag
      | add | subtract | subtractFrom => exact List.mem_cons_of_mem _ List.mem_cons_self
  | shift direction x =>
    obtain ⟨y, rfl⟩ := Instruction.exists_of_spells_shift spelled
    obtain rfl | rfl := h
    · cases direction <;> exact List.mem_cons_self
    · cases direction <;> exact List.mem_cons_of_mem _ List.mem_cons_self
  | draw =>
    obtain rfl := spelled
    obtain rfl := h
    exact List.mem_cons_of_mem _ List.mem_cons_self
  | loadRegisters x =>
    obtain rfl := spelled
    have le : k ≤ x := h
    show Component.register k ∈ ((List.finRange 16).filter (· ≤ x)).map .register
    exact List.mem_map_of_mem (List.mem_filter.mpr ⟨List.mem_finRange k, decide_eq_true le⟩)
  | _ => exact h.elim

/-! ## The other parts -/

theorem stackAfter_of_spared (spelled : Instruction.Spells d i) (spared : .stack ∉ d.footprint)
    (h : m.StackAfter after i) : after.stack = m.stack := by
  cases i with
  | «return» | call =>
    obtain rfl := spelled
    exact absurd (List.mem_singleton_self _) spared
  | _ => exact h

theorem memoryAfter_of_spared (spelled : Instruction.Spells d i) (spared : .memory ∉ d.footprint) :
    m.memoryAfter i = m.memory := by
  cases i with
  | storeDecimal | storeRegisters =>
    obtain rfl := spelled
    exact absurd (List.mem_singleton_self _) spared
  | _ => rfl

theorem displayAfter_of_spared (spelled : Instruction.Spells d i)
    (spared : .display ∉ d.footprint) : m.displayAfter i = m.display := by
  cases i with
  | clearScreen | draw =>
    obtain rfl := spelled
    exact absurd List.mem_cons_self spared
  | _ => rfl

theorem timersAfter_of_spared (spelled : Instruction.Spells d i) (spared : .timers ∉ d.footprint) :
    m.timersAfter i = m.timers := by
  cases i with
  | setDelay | setSound =>
    obtain rfl := spelled
    exact absurd (List.mem_singleton_self _) spared
  | _ => rfl

theorem indexAfter_of_spared (spelled : Instruction.Spells d i) (spared : .index ∉ d.footprint) :
    m.indexAfter i = m.index := by
  cases i with
  | loadIndex | addIndex | loadGlyph =>
    obtain rfl := spelled
    exact absurd (List.mem_singleton_self _) spared
  | _ => rfl

theorem toNat_indexAfter (spelled : Instruction.Spells d i) :
    (m.indexAfter i).toNat = m.indexBy d := by
  cases i with
  | loadIndex target =>
    obtain rfl := spelled
    show (Word.ofAddress target).toNat = (Nibbles.ofAddress 0xA target).address.val
    rw [Nibbles.address_ofAddress]
    exact Word.toNat_ofAddress target
  | addIndex x =>
    obtain rfl := spelled
    show (m.index + (m.reg x).toUInt16).toNat = (m.index.toNat + (m.reg x).toNat) % 65536
    exact UInt16.toNat_add _ _
  | loadGlyph x =>
    obtain rfl := spelled
    exact Glyphs.toNat_address _
  | shift direction x =>
    obtain ⟨y, rfl⟩ := Instruction.exists_of_spells_shift spelled
    rfl
  | skip condition =>
    obtain rfl := spelled
    cases condition <;> rfl
  | _ =>
    obtain rfl := spelled
    rfl

/-! ## One step -/

/-- A step that executes no word keeps every part, but for the register that takes a key. -/
theorem kept_of_idle (idle : m.executed = none) (part : Component) :
    m.Keeps m.step part ∨ ∃ k, part = .register k ∧ m.awaiting = some k ∧
      m.step.fault = none ∧ m.step.machine.awaiting = none := by
  have left := m.leaves_step
  have timers := m.timers_step
  rw [timersFound] at timers
  rw [executed_eq_none_iff.mp idle] at left timers
  cases part with
  | register k =>
    -- of the steps that carry nothing out, only the one that takes a key writes a register
    have course := m.course
    rw [executed_eq_none_iff.mp idle] at course
    generalize m.step = outcome at course
    cases course with
    | stay => exact .inl rfl
    | @take x key _ _ suspended =>
      by_cases same : x = k
      · exact .inr ⟨k, rfl, same ▸ suspended, rfl, rfl⟩
      · exact .inl ((Registers.get_set _ _ _ _).trans (if_neg same))
  | index => exact .inl left.index
  | stack => exact .inl left.stack
  | timers => exact .inl timers
  | memory => exact .inl left.memory
  | display => exact .inl left.display

/-- What lies outside the footprint of a word is kept by the step that executes it. -/
theorem kept_of_executed (executed : m.executed = some d) {part : Component}
    (spared : part ∉ d.footprint) : m.Keeps m.step part := by
  obtain ⟨i, done, spelled⟩ := exists_of_executed executed
  have left := m.leaves_step
  have timers := m.timers_step
  rw [timersFound] at timers
  rw [done] at left timers
  cases part with
  | register k =>
    have course := m.course
    rw [done] at course
    generalize m.step = outcome at course
    cases course with
    | suspend => rfl
    | complete _ ran =>
      exact (reg_of_execute ran fun h => spared (mem_footprint_of_writes spelled h) :)
  | index => exact left.index.trans (indexAfter_of_spared spelled spared)
  | stack => exact stackAfter_of_spared (m := m.advance) spelled spared left.stack
  | timers => rwa [Option.elim_some, timersAfter_of_spared spelled spared] at timers
  | memory => exact left.memory.trans (memoryAfter_of_spared spelled spared)
  | display => exact left.display.trans (displayAfter_of_spared spelled spared)

/-- I is changed by three instructions only. -/
theorem toNat_index_step (m : Machine) :
    m.step.machine.index.toNat = m.executed.elim m.index.toNat m.indexBy := by
  rw [m.leaves_step.index]
  cases executed : m.executed with
  | none =>
    rw [executed_eq_none_iff.mp executed]
    rfl
  | some d =>
    obtain ⟨i, done, spelled⟩ := exists_of_executed executed
    rw [done]
    exact toNat_indexAfter spelled

/-- A step changes a part of a machine only where it does not fail, and either takes a key for the
    register that it changes, or executes a word that has the part in its footprint. -/
theorem footprint_of_step (m : Machine) :
    let after := m.step.machine
    (∀ part, m.Keeps m.step part ∨ m.step.fault = none ∧
      ((∃ k, part = .register k ∧ m.awaiting = some k ∧ after.awaiting = none) ∨
        ∃ d, m.executed = some d ∧ part ∈ d.footprint)) ∧
    (∀ d, m.executed = some d → d.SparesFlag → after.reg 0xF = m.reg 0xF) ∧
    after.index.toNat = m.executed.elim m.index.toNat m.indexBy := by
  refine ⟨?_, ?_, m.toNat_index_step⟩
  · intro part
    cases executed : m.executed with
    | none =>
      obtain kept | ⟨k, same, suspended, succeeds, running⟩ := kept_of_idle executed part
      · exact .inl kept
      · exact .inr ⟨succeeds, .inl ⟨k, same, suspended, running⟩⟩
    | some d =>
      by_cases listed : part ∈ d.footprint
      · exact .inr ⟨(executed_eq_some_iff.mp executed).1.2, .inr ⟨d, rfl, listed⟩⟩
      · exact .inl (kept_of_executed executed listed)
  · intro d executed spares
    exact kept_of_executed executed spares.not_mem

/-- Where I and VF are added up and the sum wraps, VF is not told. -/
theorem footprint_of_step_of_addIndex :
    let m := { create {} (.ofSeed 0) with
      memory := Memory.initial.overwrite 0x200 [0xFF, 0x1E]
      registers := Registers.zero.set 0xF 7
      index := 0xFFFF }
    m.step.machine.reg 0xF = 7 ∧ m.step.machine.index.toNat = 6 ∧
      m.step.machine.memory = m.memory := by
  intro m
  have fetch : m.memory.readWord 0x200 = .ok 0xFF1E :=
    Memory.readWord_overwrite _ 0x200 0xFF1E (by decide)
  have done : m.carriesOut = some (.addIndex 0xF) :=
    carriesOut_of_clear (m := m) rfl fetch (by decide) rfl
  obtain ⟨d, executed, spelled⟩ := executed_of_carriesOut done
  obtain rfl : d = ⟨0xF, 0xF, 0x1, 0xE⟩ := spelled
  obtain ⟨kept, flag, index⟩ := footprint_of_step m
  refine ⟨flag _ executed (.addIndex 0xF), ?_, ?_⟩
  · have sum : ∀ m : Machine, m.indexBy ⟨0xF, 0xF, 0x1, 0xE⟩ =
        (m.index.toNat + (m.reg 0xF).toNat) % 65536 := fun _ => rfl
    have last : m.index.toNat = 0xFFFF := rfl
    have seven : m.reg 0xF = 7 := rfl
    rw [index, executed, Option.elim_some, sum, last, seven]
    rfl
  · obtain same | ⟨-, ⟨k, other, -⟩ | ⟨d, executed', listed⟩⟩ := kept .memory
    · exact same
    · cases other
    · obtain rfl := Option.some.inj (executed.symm.trans executed')
      exact absurd listed (by decide)

end Machine

end Chip8
