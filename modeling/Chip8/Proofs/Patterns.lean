import Chip8.Proofs.Bare
import Chip8.Proofs.Course
import Chip8.Proofs.Failure

/-!
# The instruction set as a table

An instruction set manual lists the words of each instruction by a pattern of nibbles,
some of which are fixed while others are operands. The table here has a row for each
pattern, with the instruction that its words are. No two patterns have a word in
common, so the order of the rows does not matter.

Results:

* `disjoint_rows`: no word has two patterns.
* `ofNibbles_of_covers`, `exists_row`: a word is an instruction iff it has a pattern, and
  then the one of that row.
* `decode_eq_some_iff_encode`: a word is an instruction iff it is the word of that instruction,
  but for the second register of a shift.
* `fault_unknown_iff`: a step reports an unknown instruction iff the word at the counter
  has no pattern, and names that word.
* `decodes_instruction_set`: how words and instructions belong together.
-/

namespace Chip8

/-- A pattern of instruction words: their class, and at each other place the nibble that has to
    stand there, or none where any may. -/
structure Pattern where
  kind : Nibble
  x : Option Nibble
  y : Option Nibble
  n : Option Nibble
deriving DecidableEq, Repr

namespace Pattern

/-- Whether a nibble may stand at a place of a pattern. -/
def admits : Option Nibble → Nibble → Bool
  | none, _ => true
  | some fixed, a => a == fixed

/-- Whether the nibbles of a word are of this pattern. -/
def covers (p : Pattern) (d : Nibbles) : Bool :=
  d.kind == p.kind && admits p.x d.x && admits p.y d.y && admits p.n d.n

/-- Whether two places ask for different nibbles. -/
def differ : Option Nibble → Option Nibble → Bool
  | some a, some b => a != b
  | _, _ => false

/-- Whether two patterns ask for different nibbles at some place. -/
def clashes (p q : Pattern) : Bool :=
  p.kind != q.kind || differ p.x q.x || differ p.y q.y || differ p.n q.n

theorem admits_iff {place : Option Nibble} {a : Nibble} :
    admits place a = true ↔ place.elim True (a = ·) := by
  cases place with
  | none => exact iff_of_true rfl trivial
  | some fixed => exact beq_iff_eq

theorem covers_iff {p : Pattern} {d : Nibbles} :
    p.covers d = true ↔ d.kind = p.kind ∧ p.x.elim True (d.x = ·) ∧ p.y.elim True (d.y = ·) ∧
      p.n.elim True (d.n = ·) := by
  simp only [covers, Bool.and_eq_true, beq_iff_eq, admits_iff, and_assoc]

theorem differ_eq_false {p q : Option Nibble} {a : Nibble} (left : p.elim True (a = ·))
    (right : q.elim True (a = ·)) : differ p q = false := by
  cases p with
  | none => rfl
  | some b =>
    cases q with
    | none => rfl
    | some c =>
      obtain rfl : a = b := left
      obtain rfl : a = c := right
      exact bne_self_eq_false a

theorem clashes_eq_false {p q : Pattern} {d : Nibbles} (left : p.covers d = true)
    (right : q.covers d = true) : p.clashes q = false := by
  obtain ⟨kind, x, y, n⟩ := covers_iff.mp left
  obtain ⟨kind', x', y', n'⟩ := covers_iff.mp right
  rw [clashes, differ_eq_false x x', differ_eq_false y y', differ_eq_false n n', ← kind, ← kind',
    bne_self_eq_false]
  rfl

end Pattern

namespace Instruction

/-- A row of the table: a pattern, and the instruction of the nibbles of that pattern. -/
structure Row where
  pattern : Pattern
  reading : Nibbles → Instruction

/-- The instruction set. -/
def rows : List Row := [
  ⟨⟨0x0, some 0x0, some 0xE, some 0x0⟩, fun _ => .clearScreen⟩,
  ⟨⟨0x0, some 0x0, some 0xE, some 0xE⟩, fun _ => .return⟩,
  ⟨⟨0x1, none, none, none⟩, fun d => .jump d.address⟩,
  ⟨⟨0x2, none, none, none⟩, fun d => .call d.address⟩,
  ⟨⟨0x3, none, none, none⟩, fun d => .skip (.equalValue d.x d.byte)⟩,
  ⟨⟨0x4, none, none, none⟩, fun d => .skip (.notEqualValue d.x d.byte)⟩,
  ⟨⟨0x5, none, none, some 0x0⟩, fun d => .skip (.equalRegister d.x d.y)⟩,
  ⟨⟨0x6, none, none, none⟩, fun d => .loadValue d.x d.byte⟩,
  ⟨⟨0x7, none, none, none⟩, fun d => .addValue d.x d.byte⟩,
  ⟨⟨0x8, none, none, some 0x0⟩, fun d => .combine .load d.x d.y⟩,
  ⟨⟨0x8, none, none, some 0x1⟩, fun d => .combine .or d.x d.y⟩,
  ⟨⟨0x8, none, none, some 0x2⟩, fun d => .combine .and d.x d.y⟩,
  ⟨⟨0x8, none, none, some 0x3⟩, fun d => .combine .xor d.x d.y⟩,
  ⟨⟨0x8, none, none, some 0x4⟩, fun d => .combine .add d.x d.y⟩,
  ⟨⟨0x8, none, none, some 0x5⟩, fun d => .combine .subtract d.x d.y⟩,
  ⟨⟨0x8, none, none, some 0x6⟩, fun d => .shift .right d.x⟩,
  ⟨⟨0x8, none, none, some 0x7⟩, fun d => .combine .subtractFrom d.x d.y⟩,
  ⟨⟨0x8, none, none, some 0xE⟩, fun d => .shift .left d.x⟩,
  ⟨⟨0x9, none, none, some 0x0⟩, fun d => .skip (.notEqualRegister d.x d.y)⟩,
  ⟨⟨0xA, none, none, none⟩, fun d => .loadIndex d.address⟩,
  ⟨⟨0xB, none, none, none⟩, fun d => .jumpOffset d.address⟩,
  ⟨⟨0xC, none, none, none⟩, fun d => .random d.x d.byte⟩,
  ⟨⟨0xD, none, none, none⟩, fun d => .draw d.x d.y d.n⟩,
  ⟨⟨0xE, none, some 0x9, some 0xE⟩, fun d => .skip (.keyDown d.x)⟩,
  ⟨⟨0xE, none, some 0xA, some 0x1⟩, fun d => .skip (.keyUp d.x)⟩,
  ⟨⟨0xF, none, some 0x0, some 0x7⟩, fun d => .loadDelay d.x⟩,
  ⟨⟨0xF, none, some 0x0, some 0xA⟩, fun d => .waitKey d.x⟩,
  ⟨⟨0xF, none, some 0x1, some 0x5⟩, fun d => .setDelay d.x⟩,
  ⟨⟨0xF, none, some 0x1, some 0x8⟩, fun d => .setSound d.x⟩,
  ⟨⟨0xF, none, some 0x1, some 0xE⟩, fun d => .addIndex d.x⟩,
  ⟨⟨0xF, none, some 0x2, some 0x9⟩, fun d => .loadGlyph d.x⟩,
  ⟨⟨0xF, none, some 0x3, some 0x3⟩, fun d => .storeDecimal d.x⟩,
  ⟨⟨0xF, none, some 0x5, some 0x5⟩, fun d => .storeRegisters d.x⟩,
  ⟨⟨0xF, none, some 0x6, some 0x5⟩, fun d => .loadRegisters d.x⟩]

variable {d : Nibbles} {i : Instruction} {r : Row}

/-! ## Rows and words -/

/-- No word is listed twice. -/
theorem disjoint_rows :
    rows.Pairwise fun r s => ∀ d, ¬ (r.pattern.covers d ∧ s.pattern.covers d) := by
  have clash : rows.Pairwise fun r s => r.pattern.clashes s.pattern = true := by decide
  apply clash.imp
  rintro r s clash d ⟨left, right⟩
  rw [Pattern.clashes_eq_false left right] at clash
  cases clash

theorem ofNibbles_of_covers (listed : r ∈ rows) (h : r.pattern.covers d) :
    ofNibbles d = some (r.reading d) := by
  obtain ⟨kind, x, y, n⟩ := d
  have fits := Pattern.covers_iff.mp h
  clear h
  revert r
  simp only [rows, List.forall_mem_cons]
  and_intros
  -- the fixed places of each pattern decide how the nibbles are read
  iterate 34
    · rintro ⟨⟨⟩, ⟨⟩, ⟨⟩, ⟨⟩⟩
      rfl
  · exact List.forall_mem_nil _

/-- Every spelling of an instruction is listed. -/
theorem exists_row (h : Spells d i) :
    ∃ r ∈ rows, r.pattern.covers d = true ∧ r.reading d = i := by
  have found : rows.any (fun r => r.pattern.covers d) = true := by
    cases i with
    | skip condition =>
      obtain rfl := h
      cases condition <;> rfl
    | combine operation x y =>
      obtain rfl := h
      cases operation <;> rfl
    | shift direction x =>
      obtain ⟨y, rfl⟩ := exists_of_spells_shift h
      cases direction <;> rfl
    | _ =>
      obtain rfl := h
      rfl
  obtain ⟨r, listed, covers⟩ := List.any_eq_true.mp found
  refine ⟨r, listed, covers, ?_⟩
  have read := ofNibbles_of_covers listed covers
  rw [ofNibbles_of_spells h] at read
  exact (Option.some.inj read).symm

theorem decode_eq_some_iff_row {w : UInt16} :
    decode w = some i ↔
      ∃ r ∈ rows, r.pattern.covers (.ofWord w) ∧ r.reading (.ofWord w) = i := by
  constructor
  · intro decoded
    exact exists_row (spells_of_decode decoded)
  · rintro ⟨r, listed, covers, rfl⟩
    exact ofNibbles_of_covers listed covers

/-- Shifts ignore the third nibble; any other instruction is spelled by one word only. -/
theorem decode_eq_some_iff_encode {w : UInt16} :
    decode w = some i ↔ w = i.encode ∨ ∃ direction x y,
      i = .shift direction x ∧ w = Nibbles.toWord ⟨0x8, x, y, direction.code⟩ := by
  constructor
  · intro decoded
    have spelled := spells_of_decode decoded
    cases i with
    | shift direction x =>
      obtain ⟨y, nibbles⟩ := exists_of_spells_shift spelled
      exact .inr ⟨direction, x, y, rfl, by rw [← nibbles, Nibbles.toWord_ofWord]⟩
    | _ =>
      refine .inl ?_
      rw [encode, ← spelled, Nibbles.toWord_ofWord]
  · rintro (rfl | ⟨direction, x, y, rfl, rfl⟩)
    · exact decode_encode i
    · rw [decode, Nibbles.ofWord_toWord]
      exact ofNibbles_of_spells ⟨rfl, rfl, rfl⟩

/-- Of the words of class 0 only 00E0 and 00EE are instructions. -/
theorem decode_of_kind_zero {w : UInt16} (kind : (Nibbles.ofWord w).kind = 0x0)
    (decoded : decode w = some i) : w = 0x00E0 ∨ w = 0x00EE := by
  have two : ∀ r ∈ rows, r.pattern.kind = 0x0 →
      r.pattern = ⟨0x0, some 0x0, some 0xE, some 0x0⟩ ∨
        r.pattern = ⟨0x0, some 0x0, some 0xE, some 0xE⟩ := by decide
  obtain ⟨r, listed, covers, -⟩ := decode_eq_some_iff_row.mp decoded
  have fits := Pattern.covers_iff.mp covers
  rw [← Nibbles.toWord_ofWord w]
  generalize Nibbles.ofWord w = d at kind fits
  obtain ⟨k, x, y, n⟩ := d
  obtain shape | shape := two r listed (fits.1.symm.trans kind)
  · rw [shape] at fits
    obtain ⟨⟨⟩, ⟨⟩, ⟨⟩, ⟨⟩⟩ := fits
    exact .inl rfl
  · rw [shape] at fits
    obtain ⟨⟨⟩, ⟨⟩, ⟨⟩, ⟨⟩⟩ := fits
    exact .inr rfl

/-! ## Words that are no instruction -/

theorem obstacle_ne_unknown {word : UInt16} (stack : CallStack) (index : UInt16)
    (spelled : Spells d i) : i.obstacle stack index ≠ some (.unknownInstruction word) := by
  intro obstacle
  cases wordFails_of_obstacle spelled obstacle with
  | unknown alien => exact alien i spelled

/-- No other part of a step reports an unknown instruction. -/
theorem fault_unknown_iff {m : Machine} {w v : UInt16} (running : m.awaiting = none)
    (fetch : m.memory.readWord m.counter = .ok w) :
    m.step.fault = some (.unknownInstruction v) ↔ decode w = none ∧ v = w := by
  cases decoded : decode w with
  | none =>
    rw [Machine.step_unknown running fetch decoded, Option.some.injEq,
      Fault.unknownInstruction.injEq, eq_comm]
    exact (and_iff_right rfl).symm
  | some i =>
    refine iff_of_false ?_ nofun
    cases obstacle : i.obstacle m.stack m.index with
    | none =>
      have done := Machine.carriesOut_of_clear running fetch decoded obstacle
      rw [(Machine.of_carriesOut done).2.1]
      nofun
    | some fault =>
      rw [Machine.step_obstructed running fetch decoded obstacle, ← obstacle]
      exact obstacle_ne_unknown _ _ (spells_of_decode decoded)

/-! ## The instruction set -/

/-- Every instruction is read back from its word, and a word is no other instruction's but for the
    nibble that a shift ignores. So the words that are instructions are those of the table, where no
    word has two rows; any other word is reported by the step that fetches it. All of this holds of
    the nibbles as they are masked out of a word and joined again. -/
theorem decodes_instruction_set :
    (∀ i, decode (encode i) = some i) ∧
    (∀ w i, decode w = some i ↔ w = encode i ∨ ∃ direction x y,
      i = .shift direction x ∧ w = Nibbles.toWord ⟨0x8, x, y, direction.code⟩) ∧
    (∀ w i, decode w = some i ↔
      ∃ r ∈ rows, r.pattern.covers (.ofWord w) ∧ r.reading (.ofWord w) = i) ∧
    (rows.Pairwise fun r s => ∀ d, ¬ (r.pattern.covers d ∧ s.pattern.covers d)) ∧
    (∀ (m : Machine) (w v : UInt16), m.awaiting = none → m.memory.readWord m.counter = .ok w →
      (m.step.fault = some (.unknownInstruction v) ↔ decode w = none ∧ v = w)) ∧
    (∀ w, (Nibbles.ofWord w).kind = 0x0 → w ≠ 0x00E0 → w ≠ 0x00EE → decode w = none) ∧
    (∀ w, Opcode.ofWord w = (Nibbles.ofWord w).bare ∧ (Opcode.ofWord w).word = .ok w ∧
      (Opcode.ofWord w).address = .ok (Word.ofAddress (Nibbles.ofWord w).address) ∧
      (Opcode.ofWord w).byte = (Nibbles.ofWord w).byte) ∧
    ∀ d : Nibbles, d.bare.word = .ok d.toWord ∧ Opcode.ofWord d.toWord = d.bare := by
  refine ⟨decode_encode, fun w i => decode_eq_some_iff_encode, fun w i => decode_eq_some_iff_row,
    disjoint_rows, fun m w v => fault_unknown_iff, ?_, ?_, ?_⟩
  · intro w kind notClear notReturn
    cases decoded : decode w with
    | none => rfl
    | some i => exact ((decode_of_kind_zero kind decoded).elim notClear notReturn).elim
  · intro w
    rw [Nibbles.ofWord_eq_bare, Nibbles.word_bare, Nibbles.toWord_ofWord]
    exact ⟨rfl, rfl, Nibbles.address_bare _, Nibbles.byte_bare _⟩
  · intro d
    rw [Nibbles.ofWord_eq_bare, Nibbles.ofWord_toWord]
    exact ⟨Nibbles.word_bare d, rfl⟩

/-- A shift with a second register, and the word next to 00E0 where a program starts. -/
theorem decodes_instruction_set_at_edges :
    decode 0x8F26 = some (.shift .right 0xF) ∧ decode 0x00E1 = none ∧
      (Machine.started [0x00, 0xE1]).step.fault = some (.unknownInstruction 0x00E1) := by
  obtain ⟨-, encoded, -, -, reported, zero, -⟩ := decodes_instruction_set
  have unknown : decode 0x00E1 = none := zero 0x00E1 (by decide) (by decide) (by decide)
  have fetch : (Machine.started [0x00, 0xE1]).memory.readWord 0x200 = .ok 0x00E1 :=
    Machine.readWord_started 0x00E1
  exact ⟨(encoded 0x8F26 _).mpr (.inr ⟨.right, 0xF, 0x2, rfl, by decide⟩), unknown,
    (reported _ 0x00E1 0x00E1 rfl fetch).mpr ⟨unknown, rfl⟩⟩

end Instruction

end Chip8
