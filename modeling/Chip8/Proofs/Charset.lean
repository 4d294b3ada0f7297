import Chip8.Proofs.Drawing
import Chip8.Proofs.Writes

/-!
# The character set

No write reaches the glyphs: a program is loaded behind them, and what would be
stored over them is refused. So wherever a glyph is asked for, its rows are there.

Results:

* `byteAt_after_of_lt`: the cells of the character set keep their bytes.
* `after_of_performed_nil`: what a machine keeps until it carries out an instruction.
* `glyphs_draw`: pointing I to a glyph and drawing five rows draws that glyph.
-/

namespace Chip8

/-- The rows of the glyph of a digit, from its top row down. -/
def Glyphs.glyph (digit : Nibble) : List UInt8 :=
  (charset.toList.drop (rows * digit.val)).take rows

theorem Glyphs.glyph_eq (digit : Nibble) :
    glyph digit = (List.range rows).map fun r => charset[rows * digit.val + r]?.getD 0 := by
  revert digit
  decide

namespace Machine

variable {m : Machine} {history between : List Action}

/-! ## The cells of the character set -/

theorem start_of_mem_written {w : Write} (h : w ∈ m.written history) : Glyphs.size ≤ w.start := by
  induction history generalizing m with
  | nil => cases h
  | cons a history ih =>
    rw [written, List.mem_append, Option.mem_toList] at h
    rcases h with now | later
    · exact (bounds_of_writes now).1
    · exact ih later

/-- No history reaches the character set: programs are loaded behind it, and stores spare it. -/
theorem byteAt_after_of_lt (m : Machine) (history : List Action) {address : Nat}
    (low : address < Glyphs.size) :
    (m.after history).memory.byteAt address = m.memory.byteAt address := by
  have untouched : Write.lastByte (m.written history) address = none := by
    rw [Write.lastByte, List.findSome?_eq_none_iff]
    intro w mem
    apply Write.byteAt?_eq_none_of_lt
    exact Nat.lt_of_lt_of_le low (start_of_mem_written (List.mem_reverse.mp mem))
  rw [byteAt_after, untouched]
  rfl

theorem byteAt_charset (config : Config) (chance : Generator) (history : List Action)
    {address : Nat} (low : address < Glyphs.size) :
    ((create config chance).after history).memory.byteAt address =
      Glyphs.charset[address]?.getD 0 := by
  rw [byteAt_after_of_lt _ _ low]
  exact Memory.byteAt_initial address

/-! ## Between two instructions -/

theorem step_of_not_carriesOut (running : m.awaiting = none) (idle : m.carriesOut = none) :
    ∃ counter keypad, m.step.machine = { m with counter := counter, keypad := keypad } := by
  have course := m.course
  rw [idle] at course
  generalize m.step = outcome at course
  cases course with
  | stay => exact ⟨_, _, rfl⟩
  | take silent suspended =>
    rw [running] at suspended
    cases suspended

/-- What a running machine keeps until it carries out an instruction. It stays running, since only
    an instruction suspends it. -/
theorem after_of_performed_nil (running : m.awaiting = none) (nothing : m.performed between = []) :
    ∃ memory counter keypad redraw, m.after between =
      { m with memory := memory, counter := counter, keypad := keypad, redraw := redraw } := by
  induction between generalizing m with
  | nil => exact ⟨_, _, _, _, rfl⟩
  | cons a between ih =>
    rw [performed_cons, List.append_eq_nil_iff] at nothing
    obtain ⟨now, later⟩ := nothing
    rw [after_cons]
    by_cases h : a = .step
    · subst h
      rw [if_pos rfl, Option.toList_eq_nil_iff] at now
      obtain ⟨counter, keypad, left⟩ := step_of_not_carriesOut running now
      rw [act_step, left] at later ⊢
      exact ih running later
    · obtain ⟨memory, keypad, redraw, left⟩ := act_of_ne_step h m
      rw [left] at later ⊢
      exact ih running later

/-! ## Drawing a glyph -/

/-- What was done to a machine since the step that pointed its I to a glyph leaves I there. -/
theorem after_of_loadGlyph {x : Nibble} (done : m.carriesOut = some (.loadGlyph x))
    (nothing : m.step.machine.performed between = []) :
    let m' := m.step.machine.after between
    m'.index = Glyphs.address (Fin.ofNat 16 (m.reg x).toNat) ∧ m'.registers = m.registers ∧
      m'.display = m.display ∧ m'.awaiting = none := by
  obtain ⟨after, ran, running, pointed⟩ := exists_of_carriesOut done rfl
  cases ran
  rw [pointed] at nothing
  obtain ⟨memory, counter, keypad, redraw, left⟩ :=
    after_of_performed_nil (by exact running) nothing
  rw [pointed, left]
  exact ⟨rfl, rfl, rfl, running⟩

/-- Drawing five rows where I points to a glyph that is in memory. -/
theorem step_draw_glyph {digit a b : Nibble} (running : m.awaiting = none)
    (fetch : m.memory.readWord m.counter = .ok (Nibbles.toWord ⟨0xD, a, b, 0x5⟩))
    (pointed : m.index = Glyphs.address digit)
    (held : ∀ address, address < Glyphs.size →
      m.memory.byteAt address = Glyphs.charset[address]?.getD 0) :
    m.step.fault = none ∧ ∀ p, m.step.machine.display.get p =
      if Sprite.Covers m.config.edge ((m.reg a).toNat % 64) ((m.reg b).toNat % 32)
        (Glyphs.glyph digit) p
      then (m.display.get p).invert else m.display.get p := by
  have inside : ∀ digit, Memory.accessFault (Glyphs.address digit) 5 = none := by decide
  have done : m.carriesOut = some (.draw a b 5) :=
    carriesOut_of_clear running fetch (Instruction.decode_encode (.draw a b 5))
      (pointed ▸ inside digit)
  have rows : m.spriteRows 5 = Glyphs.glyph digit := by
    rw [spriteRows_eq, Glyphs.glyph_eq, pointed, Glyphs.toNat_address]
    apply List.map_congr_left
    intro r among
    have low : r < 5 := List.mem_range.mp among
    have digit_lt := digit.isLt
    exact held _ (by simp only [Glyphs.rows, Glyphs.size]; omega)
  refine ⟨(of_carriesOut done).2.1, ?_⟩
  intro p
  have height : (m.spriteRows 5).length ≤ displayHeight :=
    length_rows_of_draws (draws_of_draw done)
  rw [display_step, done, Option.elim_some, displayAfter, Display.get_draw _ _ _ height, rows]
  rfl

/-- The character set is never altered. So where a running machine points I to the glyph of the low
    nibble of Vx and next draws five rows at column Va and row Vb, both succeed, and the pixels that
    the glyph covers there are inverted and no others. -/
theorem glyphs_draw (config : Config) (chance : Generator) (history : List Action) :
    let m := (create config chance).after history
    (∀ a, ∀ _ : a < 80, m.memory.byteAt a = Glyphs.charset[a]) ∧
    ∀ (x a b : Nibble) (between : List Action), m.awaiting = none →
      m.memory.readWord m.counter = .ok (Nibbles.toWord ⟨0xF, x, 0x2, 0x9⟩) →
      m.step.machine.performed between = [] →
      let m' := m.step.machine.after between
      m'.memory.readWord m'.counter = .ok (Nibbles.toWord ⟨0xD, a, b, 0x5⟩) →
      m.step.fault = none ∧ m'.step.fault = none ∧
      ∀ p, m'.step.machine.display.get p =
        if Sprite.Covers config.edge ((m.reg a).toNat % 64) ((m.reg b).toNat % 32)
          (Glyphs.glyph (Fin.ofNat 16 (m.reg x).toNat)) p
        then (m.display.get p).invert else m.display.get p := by
  intro m
  refine ⟨?_, ?_⟩
  · intro a low
    rw [byteAt_charset config chance history low, Vector.getElem?_eq_getElem low]
    rfl
  intro x a b between running first nothing m' second
  have done : m.carriesOut = some (.loadGlyph x) :=
    carriesOut_of_clear running first (Instruction.decode_encode (.loadGlyph x)) rfl
  obtain ⟨pointed, registers, display, running'⟩ := after_of_loadGlyph done nothing
  have reached : m' = (create config chance).after (history ++ .step :: between) := by
    rw [after_append, after_cons]
    rfl
  have edge : m'.config = config := by
    rw [reached, config_after]
    rfl
  have held : ∀ address, address < Glyphs.size →
      m'.memory.byteAt address = Glyphs.charset[address]?.getD 0 := by
    intro address low
    rw [reached, byteAt_charset config chance _ low]
  obtain ⟨succeeds, draws⟩ := step_draw_glyph (m := m') running' second pointed held
  have reg : m'.reg = m.reg := congrArg Registers.get registers
  rw [edge, reg, display] at draws
  exact ⟨(of_carriesOut done).2.1, succeeds, draws⟩

/-! ## The glyph of zero -/

theorem readWord_after_loadGlyph {x : Nibble} {word : UInt16} (event : KeyEvent)
    (running : m.awaiting = none)
    (first : m.memory.readWord m.counter = .ok (Nibbles.toWord ⟨0xF, x, 0x2, 0x9⟩))
    (second : m.memory.readWord (m.counter + 2) = .ok word) :
    let m' := m.step.machine.after [.send event]
    m'.memory.readWord m'.counter = .ok word := by
  have complete :=
    step_complete running first (Instruction.decode_encode (.loadGlyph x)) rfl running
  rw [complete]
  exact second

/-- A program draws the glyph of V0 in the upper left corner, with a key pressed meanwhile. -/
theorem glyphs_draw_zero :
    let m := started [0xF0, 0x29, 0xD0, 0x05]
    let m' := m.step.machine.after [.send (.press 3)]
    m.memory.byteAt 79 = 0x80 ∧ m.step.fault = none ∧ m'.step.fault = none ∧
      m'.step.machine.display.get ⟨0, 0⟩ = .white ∧
      m'.step.machine.display.get ⟨1, 1⟩ = .black := by
  have loaded : started [0xF0, 0x29, 0xD0, 0x05] = _ := started_eq (by decide)
  have first : (started [0xF0, 0x29, 0xD0, 0x05]).memory.readWord 0x200 =
      .ok (Nibbles.toWord ⟨0xF, 0, 0x2, 0x9⟩) :=
    readWord_started_at (k := 0) (by decide) rfl rfl rfl
  have second : (started [0xF0, 0x29, 0xD0, 0x05]).memory.readWord 0x202 =
      .ok (Nibbles.toWord ⟨0xD, 0, 0, 0x5⟩) :=
    readWord_started_at (k := 2) (by decide) rfl rfl rfl
  have running : (started [0xF0, 0x29, 0xD0, 0x05]).awaiting = none := by
    rw [loaded]
    rfl
  obtain ⟨charset, draws⟩ := glyphs_draw {} (.ofSeed 0) [.load [0xF0, 0x29, 0xD0, 0x05]]
  obtain ⟨points, succeeds, drawn⟩ := draws 0 0 0 [.send (.press 3)] running first rfl
    (readWord_after_loadGlyph (.press 3) running first second)
  have lastRow : Glyphs.charset[79] = 0x80 := by decide
  rw [← started, show (started [0xF0, 0x29, 0xD0, 0x05]).reg 0 = 0 by rw [loaded]; rfl,
    show (started [0xF0, 0x29, 0xD0, 0x05]).display = .blank by rw [loaded]; rfl] at drawn
  exact ⟨(charset 79 (by decide)).trans lastRow, points, succeeds,
    (drawn ⟨0, 0⟩).trans (by decide), (drawn ⟨1, 1⟩).trans (by decide)⟩

end Machine

end Chip8
