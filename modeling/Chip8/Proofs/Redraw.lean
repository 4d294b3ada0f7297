import Chip8.Proofs.Coverage
import Chip8.Proofs.Trace

/-!
# When to show the display again

Whoever shows the display need not compare it with what they have shown. It is enough
to ask now and then whether the display was drawn to since this was last asked, and to
show it again if it was. Two instructions draw to the display, and each of them says so,
also where no pixel comes out different.

Results:

* `redraw_after`: until it is asked for, the flag tells whether some step has drawn.
* `display_after_of_untouched`: without such a step the display stays as it is.
* `takeRedraw_after`: what one gets to know from time to time, throughout every history.
-/

namespace Chip8

/-- Whether an instruction draws to the display. -/
def Instruction.touchesDisplay : Instruction → Bool
  | .clearScreen => true
  | .draw _ _ _ => true
  | _ => false

namespace Machine

variable {m : Machine} {a : Action} {history since between : List Action}

/-! ## One step -/

/-- Whether the step of a machine draws to the display. -/
def touchesDisplay (m : Machine) : Bool := m.carriesOut.any Instruction.touchesDisplay

theorem touchesDisplay_iff (m : Machine) :
    m.touchesDisplay = true ↔
      m.carriesOut = some .clearScreen ∨ ∃ x y n, m.carriesOut = some (.draw x y n) := by
  rw [touchesDisplay]
  cases m.carriesOut with
  | none => simp
  | some i => cases i <;> simp [Instruction.touchesDisplay]

theorem redraw_step_eq (m : Machine) :
    m.step.machine.redraw = (m.redraw || m.touchesDisplay) := by
  rw [redraw_step, touchesDisplay]
  cases m.carriesOut with
  | none => simp
  | some i => cases i <;> simp [redrawAfter, Instruction.touchesDisplay]

theorem display_step_of_untouched (h : m.touchesDisplay = false) :
    m.step.machine.display = m.display := by
  rw [touchesDisplay] at h
  rw [display_step]
  cases done : m.carriesOut with
  | none => rfl
  | some i =>
    rw [done] at h
    cases i with
    | clearScreen | draw => cases h
    | _ => rfl

/-! ## Histories -/

/-- The flag is up once a step has drawn to the display, and stays up until it is asked for. -/
theorem redraw_after (m : Machine) (untaken : .takeRedraw ∉ since) :
    (m.after since).redraw = (m.redraw || (m.trace since).any touchesDisplay) := by
  induction since generalizing m with
  | nil => simp [after_nil, trace_nil]
  | cons a since ih =>
    rw [List.mem_cons, not_or] at untaken
    rw [after_cons, ih _ untaken.2, trace]
    cases a with
    | step => simp [act_step, redraw_step_eq, Bool.or_assoc]
    | takeRedraw => exact absurd rfl untaken.1
    | send event => rfl
    | load program =>
      rw [act_load]
      split <;> rfl

/-- Only instructions that draw or clear change the display. -/
theorem display_after_of_untouched (still : ∀ c ∈ m.trace history, c.touchesDisplay = false) :
    (m.after history).display = m.display := by
  induction history generalizing m with
  | nil => rfl
  | cons a history ih =>
    rw [trace, List.forall_mem_append] at still
    rw [after_cons, ih still.2]
    by_cases h : a = .step
    · subst h
      exact display_step_of_untouched (still.1 m (by simp))
    · obtain ⟨memory, keypad, redraw, left⟩ := act_of_ne_step h m
      rw [left]

/-- Nothing but a step raises the flag. -/
theorem redraw_after_of_no_step (lowered : m.redraw = false) (resting : .step ∉ between) :
    (m.after between).redraw = false := by
  induction between generalizing m with
  | nil => exact lowered
  | cons a between ih =>
    rw [List.mem_cons, not_or] at resting
    rw [after_cons]
    apply ih _ resting.2
    cases a with
    | step => exact absurd rfl resting.1
    | takeRedraw => rfl
    | send event => exact lowered
    | load program =>
      rw [act_load]
      split <;> exact lowered

/-- The flag is down in a fresh machine and whenever it was just asked for. -/
theorem redraw_of_called {start : Machine} {earlier : List Action} (fresh : start.redraw = false)
    (called : earlier = [] ∨ ∃ before, earlier = before ++ [.takeRedraw]) :
    (start.after earlier).redraw = false := by
  rcases called with rfl | ⟨before, rfl⟩
  · exact fresh
  · rw [after_concat]
    rfl

/-- Where `last` is a fresh machine or one that was just asked, and is not asked again until it has
    become `m`: the answer is then whether some step in between has drawn to the display. So it is
    yes if some pixel has changed, and it is no if it is asked for once more before the next
    step. -/
theorem takeRedraw_after (config : Config) (chance : Generator) {earlier since : List Action}
    (called : earlier = [] ∨ ∃ before, earlier = before ++ [.takeRedraw])
    (uncalled : .takeRedraw ∉ since) :
    let last := (create config chance).after earlier
    let m := (create config chance).after (earlier ++ since)
    (m.takeRedraw.1 = true ↔ ∃ c ∈ last.trace since,
      c.carriesOut = some .clearScreen ∨ ∃ x y n, c.carriesOut = some (.draw x y n)) ∧
    ((∃ p, m.display.get p ≠ last.display.get p) → m.takeRedraw.1 = true) ∧
    ∀ between, .step ∉ between → (m.takeRedraw.2.after between).takeRedraw.1 = false := by
  intro last m
  have reached : m = last.after since := after_append _ earlier since
  have lowered : last.redraw = false := redraw_of_called rfl called
  have answer : m.takeRedraw.1 = (last.trace since).any touchesDisplay := by
    show m.redraw = _
    rw [reached, redraw_after last uncalled, lowered, Bool.false_or]
  refine ⟨?_, ?_, ?_⟩
  · simp only [answer, List.any_eq_true, touchesDisplay_iff]
  · rintro ⟨p, changed⟩
    rw [answer, List.any_eq_true]
    by_contra untouched
    apply changed
    rw [reached, display_after_of_untouched]
    intro c among
    rw [Bool.eq_false_iff]
    exact fun touches => untouched ⟨c, among, touches⟩
  · intro between resting
    exact redraw_after_of_no_step rfl resting

/-! ## One row of a glyph -/

/-- The first byte of the character set, drawn in the upper left corner. -/
theorem get_display_of_draw_row {program : List UInt8} (fits : program.length ≤ maxProgramSize)
    (done : (started program).carriesOut = some (.draw 0 0 1)) :
    ((create {} (.ofSeed 0)).after [.load program, .step]).display.get ⟨0, 0⟩ = .white := by
  have row : (started program).memory.byteAt 0 = 0xF0 := by
    have inside : programOffset.toNat + program.length ≤ memorySize :=
      Nat.add_le_add_left fits programOffset.toNat
    rw [started_eq fits]
    show (Memory.initial.overwrite programOffset.toNat program).byteAt 0 = 0xF0
    rw [Memory.byteAt_overwrite _ _ _ _ inside, if_neg (by decide), Memory.byteAt_initial]
    decide
  have rows : (started program).spriteRows 1 = [0xF0] := by
    rw [← row, started_eq fits]
    rfl
  show (started program).step.machine.display.get ⟨0, 0⟩ = .white
  rw [display_step, done, Option.elim_some, displayAfter, rows,
    Display.get_draw _ _ _ (by decide), started_eq fits]
  show (if Sprite.Covers .wrap 0 0 [0xF0] ⟨0, 0⟩ then (Display.blank.get ⟨0, 0⟩).invert
    else Display.blank.get ⟨0, 0⟩) = .white
  decide

/-- A row is drawn, after which the display is to be shown again, but not a second time although a
    key is pressed. -/
theorem takeRedraw_after_drawing :
    let m := (create {} (.ofSeed 0)).after [.load [0xD0, 0x01], .step]
    m.display.get ⟨0, 0⟩ ≠ ((create {} (.ofSeed 0)).after []).display.get ⟨0, 0⟩ ∧
      m.takeRedraw.1 = true ∧ (m.takeRedraw.2.after [.send (.press 3)]).takeRedraw.1 = false := by
  have fetch : (started [0xD0, 0x01]).memory.readWord 0x200 = .ok 0xD001 :=
    readWord_started 0xD001
  have done : (started [0xD0, 0x01]).carriesOut = some (.draw 0 0 1) :=
    carriesOut_of_clear rfl fetch (by decide) rfl
  have white := get_display_of_draw_row (by decide) done
  obtain ⟨-, changes, again⟩ := takeRedraw_after {} (.ofSeed 0) (.inl rfl)
    (show .takeRedraw ∉ [Action.load [0xD0, 0x01], .step] by decide)
  rw [List.nil_append] at changes again
  generalize (create {} (.ofSeed 0)).after [.load [0xD0, 0x01], .step] = m
    at white changes again ⊢
  have differs : m.display.get ⟨0, 0⟩ ≠
      ((create {} (.ofSeed 0)).after []).display.get ⟨0, 0⟩ := by
    rw [white]
    decide
  exact ⟨differs, changes ⟨⟨0, 0⟩, differs⟩, again [.send (.press 3)] (by decide)⟩

end Machine

end Chip8
