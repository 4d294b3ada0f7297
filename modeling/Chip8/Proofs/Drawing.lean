import Chip8.Proofs.Coverage
import Chip8.Proofs.Trace
import Mathlib.Algebra.Ring.Parity
import Mathlib.Data.List.DropRight

/-!
# What the display shows

The display shows everything that was drawn since it was last cleared, one sprite
laid over the other: where an odd number of sprites cover a pixel, it is white. So
neither the order in which they were drawn matters, nor anything that was drawn an
even number of times.

Results:

* `shows_step`: a step adds what it draws to what the display shows, or clears both.
* `shows_after`: the display shows what was drawn since it was last cleared.
* `display_after`: what the display shows throughout every history.
-/

namespace Chip8

@[simp] theorem Color.invert_eq_white_iff {c : Color} : c.invert = .white ↔ ¬ c = .white := by
  cases c <;> decide

/-- A sprite that was drawn, and the pixel at which its upper left corner was. -/
structure Blit where
  corner : Pixel
  rows : List UInt8
deriving DecidableEq, Repr

/-- Whether a sprite that was drawn covers a pixel. -/
def Blit.Covers (edge : EdgeRule) (p : Pixel) (b : Blit) : Prop :=
  Sprite.Covers edge b.corner.x.val b.corner.y.val b.rows p

instance Blit.decidableCovers (edge : EdgeRule) (p : Pixel) : DecidablePred (Blit.Covers edge p) :=
  fun b => inferInstanceAs (Decidable (Sprite.Covers edge b.corner.x.val b.corner.y.val b.rows p))

/-- Whether the white pixels of a display are those that an odd number of sprites cover. -/
def Display.Shows (g : Display) (edge : EdgeRule) (blits : List Blit) : Prop :=
  ∀ p, g.get p = .white ↔ Odd (blits.countP (Blit.Covers edge p))

namespace Display

variable {g g' : Display} {edge : EdgeRule} {blits blits' : List Blit}

theorem shows_blank (edge : EdgeRule) : blank.Shows edge [] := by
  intro p
  rw [get_blank, List.countP_nil]
  decide

theorem Shows.draw {b : Blit} (h : g.Shows edge blits) (height : b.rows.length ≤ displayHeight) :
    (g.draw edge b.corner b.rows).1.Shows edge (blits ++ [b]) := by
  intro p
  rw [get_draw g edge b.corner height, List.countP_append, List.countP_singleton]
  by_cases covered : b.Covers edge p
  · rw [if_pos (show Sprite.Covers _ _ _ _ _ from covered), if_pos (decide_eq_true covered),
      Color.invert_eq_white_iff, Nat.odd_add_one, h p]
  · rw [if_neg (show ¬ Sprite.Covers _ _ _ _ _ from covered), if_neg (by simpa using covered),
      Nat.add_zero, h p]

theorem Shows.eq (h : g.Shows edge blits) (h' : g'.Shows edge blits')
    (same : ∀ p, Odd (blits'.countP (Blit.Covers edge p)) ↔
      Odd (blits.countP (Blit.Covers edge p))) : g' = g := by
  apply ext_get
  intro p
  have white : g'.get p = .white ↔ g.get p = .white := (h' p).trans ((same p).trans (h p).symm)
  cases was : g.get p <;> cases is : g'.get p <;> simp_all

end Display

namespace Machine

variable {m : Machine} {b : Blit} {past : List Machine}

/-! ## What is drawn -/

/-- What the step of a machine draws, if it draws something: the corner is given by two registers,
    and the rows are the bytes from I on. -/
def draws (m : Machine) : Option Blit :=
  match m.carriesOut with
  | some (.draw x y n) => some ⟨Sprite.origin (m.reg x) (m.reg y), m.spriteRows n⟩
  | _ => none

/-- What was drawn by these steps since the last of them that cleared the display. -/
def drawnBy (steps : List Machine) : List Blit :=
  (steps.rtakeWhile fun m => m.carriesOut ≠ some .clearScreen).filterMap draws

/-- What the steps of a history have drawn since the last of them that cleared the display. -/
def drawn (m : Machine) (history : List Action) : List Blit := drawnBy (m.trace history)

theorem length_rows_of_draws (h : m.draws = some b) : b.rows.length ≤ displayHeight := by
  rw [draws] at h
  split at h
  · next x y n done =>
    cases h
    exact m.length_spriteRows_le n
  · cases h

theorem drawnBy_concat (past : List Machine) (m : Machine) :
    drawnBy (past ++ [m]) =
      if m.carriesOut = some .clearScreen then [] else drawnBy past ++ m.draws.toList := by
  rw [drawnBy, List.rtakeWhile_concat]
  by_cases clears : m.carriesOut = some .clearScreen
  · rw [if_neg (by simpa using clears), if_pos clears, List.filterMap_nil]
  · rw [if_pos (by simpa using clears), if_neg clears, List.filterMap_append]
    cases drawn : m.draws <;> simp [drawn, drawnBy]

theorem display_step_eq (m : Machine) :
    m.step.machine.display =
      if m.carriesOut = some .clearScreen then .blank
      else m.draws.elim m.display fun b => (m.display.draw m.config.edge b.corner b.rows).1 := by
  rw [display_step, draws]
  cases m.carriesOut with
  | none => rfl
  | some i => cases i <;> rfl

/-! ## Histories -/

/-- A step that clears starts the count anew, and one that draws adds to it. -/
theorem shows_step (h : m.display.Shows m.config.edge (drawnBy past)) :
    m.step.machine.display.Shows m.config.edge (drawnBy (past ++ [m])) := by
  rw [drawnBy_concat, display_step_eq]
  by_cases clears : m.carriesOut = some .clearScreen
  · rw [if_pos clears, if_pos clears]
    exact Display.shows_blank _
  · rw [if_neg clears, if_neg clears]
    cases drawn : m.draws with
    | none => exact (List.append_nil (drawnBy past)).symm ▸ h
    | some b => exact h.draw (length_rows_of_draws drawn)

theorem shows_after (config : Config) (chance : Generator) (history : List Action) :
    ((create config chance).after history).display.Shows config.edge
      ((create config chance).drawn history) := by
  refine (history_induction (P := fun past m =>
    m.config = config ∧ m.display.Shows config.edge (drawnBy past)) ?_ ?_ ?_ history).2
  · exact ⟨rfl, Display.shows_blank _⟩
  · rintro past m ⟨rfl, shows⟩
    exact ⟨config_step m, shows_step shows⟩
  · intro past m a other ih
    obtain ⟨memory, keypad, redraw, left⟩ := act_of_ne_step other m
    rw [left]
    exact ih

/-- Throughout every history a pixel is white iff an odd number of the sprites drawn since the
    display was last cleared cover it. So the order in which they were drawn does not matter, and a
    sprite that is drawn twice might as well not have been drawn. -/
theorem display_after (config : Config) (chance : Generator) (history : List Action) :
    let m := (create config chance).after history
    let blits := (create config chance).drawn history
    (∀ p, m.display.get p = .white ↔ Odd (blits.countP (Blit.Covers config.edge p))) ∧
    ∀ (config' : Config) (chance' : Generator) (history' : List Action),
      config'.edge = config.edge →
      let m' := (create config' chance').after history'
      let blits' := (create config' chance').drawn history'
      (blits'.Perm blits → m'.display = m.display) ∧
      ∀ b, blits'.Perm (b :: b :: blits) → m'.display = m.display := by
  intro m blits
  have shows : m.display.Shows config.edge blits := shows_after config chance history
  refine ⟨shows, ?_⟩
  intro config' chance' history' sameEdge m' blits'
  have shows' : m'.display.Shows config.edge blits' :=
    sameEdge ▸ shows_after config' chance' history'
  constructor
  · intro reordered
    apply shows.eq shows'
    intro p
    rw [reordered.countP_eq]
  · intro b twice
    apply shows.eq shows'
    intro p
    rw [twice.countP_eq, List.countP_cons, List.countP_cons]
    split
    · rw [Nat.odd_add_one, Nat.odd_add_one, not_not]
    · rfl

/-! ## Two draws -/

/-- A draw goes on to the next instruction and leaves what another draw reads. -/
theorem machine_of_draw {x y n : Nibble} (done : m.carriesOut = some (.draw x y n)) :
    m.step.machine.awaiting = none ∧ m.step.machine.memory = m.memory ∧
      m.step.machine.index = m.index ∧ m.step.machine.counter = m.counter + 2 ∧
      m.step.machine.reg 0 = m.reg 0 := by
  obtain ⟨after, ran, running, left⟩ := exists_of_carriesOut done rfl
  obtain rfl := of_run_draw ran
  rw [left]
  refine ⟨running, rfl, rfl, rfl, ?_⟩
  exact (Registers.get_set _ _ _ _).trans (if_neg (by decide))

theorem draws_of_draw {x y n : Nibble} (done : m.carriesOut = some (.draw x y n)) :
    m.draws = some ⟨Sprite.origin (m.reg x) (m.reg y), m.spriteRows n⟩ := by
  rw [draws, done]

/-- The sprite at the beginning of the character set, in the upper left corner. -/
def firstRows (n : Nibble) : Blit :=
  ⟨Sprite.origin 0 0, (List.range' 0 n.val).map fun a => Glyphs.charset[a]?.getD 0⟩

section TwoDraws

variable {w w' : UInt16} {n n' : Nibble}
  (decoded : Instruction.decode w = some (.draw 0 0 n))
  (decoded' : Instruction.decode w' = some (.draw 0 0 n'))
include decoded decoded'

theorem drawnBy_two_draws (running : m.awaiting = none) (index : m.index = 0)
    (first : m.memory.readWord m.counter = .ok w)
    (second : m.memory.readWord (m.counter + 2) = .ok w') :
    drawnBy [m, m.step.machine] =
      [⟨Sprite.origin (m.reg 0) (m.reg 0), m.spriteRows n⟩,
        ⟨Sprite.origin (m.reg 0) (m.reg 0), m.spriteRows n'⟩] := by
  have clear : ∀ k : Nibble, Memory.accessFault 0 k.val = none := by decide
  have done : m.carriesOut = some (.draw 0 0 n) :=
    carriesOut_of_clear running first decoded (index ▸ clear n)
  obtain ⟨running', memory, index', counter, reg⟩ := machine_of_draw done
  have done' : m.step.machine.carriesOut = some (.draw 0 0 n') := by
    apply carriesOut_of_clear running' _ decoded'
    · rw [index', index]
      exact clear n'
    · rw [memory, counter, second]
  have rows : m.step.machine.spriteRows n' = m.spriteRows n' := by
    rw [spriteRows, memory, index', spriteRows]
  rw [show [m, m.step.machine] = [] ++ [m] ++ [m.step.machine] from rfl, drawnBy_concat,
    drawnBy_concat, draws_of_draw done, draws_of_draw done', done, done', reg, rows]
  rfl

theorem drawn_of_two_draws {program : List UInt8}
    (spelled : program = [Word.high w, Word.low w, Word.high w', Word.low w']) :
    (create {} (.ofSeed 0)).drawn [.load program, .step, .step] = [firstRows n, firstRows n'] := by
  subst spelled
  have inside : programOffset.toNat + [Word.high w, Word.low w, Word.high w', Word.low w'].length ≤
      memorySize := by
    show 512 + 4 ≤ memorySize
    decide
  have loaded := act_load_create {} (.ofSeed 0)
    (show [Word.high w, Word.low w, Word.high w', Word.low w'].length ≤ maxProgramSize by
      show 4 ≤ maxProgramSize
      decide)
  have first : Memory.readWord _ 0x200 = .ok w :=
    Memory.initial.readWord_overwrite_at (k := 0) inside rfl rfl rfl
  have second : Memory.readWord _ 0x202 = .ok w' :=
    Memory.initial.readWord_overwrite_at (k := 2) inside rfl rfl rfl
  have below : ∀ a < 16, (Memory.initial.overwrite programOffset.toNat
      [Word.high w, Word.low w, Word.high w', Word.low w']).byteAt a =
        Glyphs.charset[a]?.getD 0 := by
    intro a low
    rw [Memory.byteAt_overwrite _ _ _ _ inside, if_neg, Memory.byteAt_initial]
    show ¬ 512 ≤ a
    omega
  generalize Memory.initial.overwrite programOffset.toNat
    [Word.high w, Word.low w, Word.high w', Word.low w'] = memory at loaded first second below
  have rows : ∀ k : Nibble, (List.range' 0 k.val).map memory.byteAt =
      (List.range' 0 k.val).map fun a => Glyphs.charset[a]?.getD 0 := by
    intro k
    apply List.map_congr_left
    intro a mem
    exact below a (Nat.lt_trans (by simpa using mem) k.isLt)
  rw [drawn, trace_load_cons, loaded, trace_step_cons, trace_step_cons, trace_nil,
    drawnBy_two_draws decoded decoded' rfl rfl first second, firstRows, firstRows, ← rows n,
    ← rows n']
  rfl

end TwoDraws

/-- Two sprites show the same in either order, and one that is drawn twice shows nothing. -/
theorem display_after_two_draws :
    ((create {} (.ofSeed 0)).after [.load [0xD0, 0x01, 0xD0, 0x02], .step, .step]).display.get
      ⟨0, 1⟩ = .white ∧
    ((create {} (.ofSeed 0)).after [.load [0xD0, 0x02, 0xD0, 0x01], .step, .step]).display =
      ((create {} (.ofSeed 0)).after [.load [0xD0, 0x01, 0xD0, 0x02], .step, .step]).display ∧
    ((create {} (.ofSeed 0)).after [.load [0xD0, 0x01, 0xD0, 0x01], .step, .step]).display =
      ((create {} (.ofSeed 0)).after []).display := by
  have decoded : Instruction.decode 0xD001 = some (.draw 0 0 1) := by decide
  have decoded' : Instruction.decode 0xD002 = some (.draw 0 0 2) := by decide
  have drawn : (create {} (.ofSeed 0)).drawn [.load [0xD0, 0x01, 0xD0, 0x02], .step, .step] =
    [firstRows 1, firstRows 2] := drawn_of_two_draws decoded decoded' rfl
  have drawn' : (create {} (.ofSeed 0)).drawn [.load [0xD0, 0x02, 0xD0, 0x01], .step, .step] =
    [firstRows 2, firstRows 1] := drawn_of_two_draws decoded' decoded rfl
  have drawnTwice : (create {} (.ofSeed 0)).drawn [.load [0xD0, 0x01, 0xD0, 0x01], .step, .step] =
    [firstRows 1, firstRows 1] := drawn_of_two_draws decoded decoded rfl
  have first := display_after {} (.ofSeed 0) [.load [0xD0, 0x01, 0xD0, 0x02], .step, .step]
  have nothing := display_after {} (.ofSeed 0) []
  refine ⟨(first.1 ⟨0, 1⟩).mpr ?_, (first.2 {} (.ofSeed 0) _ rfl).1 ?_,
    (nothing.2 {} (.ofSeed 0) _ rfl).2 (firstRows 1) ?_⟩
  · rw [drawn]
    decide
  · rw [drawn', drawn]
    exact List.Perm.swap _ _ _
  · rw [drawnTwice]
    exact List.Perm.refl _

end Machine

end Chip8
