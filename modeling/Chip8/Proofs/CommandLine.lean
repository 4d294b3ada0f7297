import Chip8.Headless.Report
import Chip8.Proofs.Bounded
import Mathlib.Data.List.FinRange

/-!
# What the command line reports

A command line that is understood names a program and a configuration. The process that
it starts loads the program into a fresh machine with that configuration, and what it
leaves, the exit code and the dump of the display, tells how the steps of that machine
ended.

Results:

* `asks_of_parse`: the options are what the arguments say.
* `render_eq`, `scan_render`: a dump shows every pixel, and the display can be read back.
* `report_of_ends`, `ends_of_report`: the process ends as stepping does.
* `report_accepted`: all of this, of one command line.
-/

namespace Chip8

/-! ## Reading a dump back -/

namespace Display

variable {g : Display}

/-- The display that a dump shows: each pixel has the colour that is marked at its place. -/
def scan (text : List Char) : Display :=
  ⟨Vector.ofFn fun i : Fin (displayWidth * displayHeight) =>
    (text[(displayWidth + 1) * (i.val / displayWidth) + i.val % displayWidth]?.bind
      Color.ofMark).getD background⟩

theorem get_scan (text : List Char) (x : Fin displayWidth) (y : Fin displayHeight) :
    (scan text).get ⟨x, y⟩ =
      (text[(displayWidth + 1) * y.val + x.val]?.bind Color.ofMark).getD background := by
  have row : (x.val + displayWidth * y.val) / displayWidth = y.val := by
    rw [Nat.add_mul_div_left _ _ (by decide), Nat.div_eq_of_lt x.isLt, Nat.zero_add]
  have column : (x.val + displayWidth * y.val) % displayWidth = x.val := by
    rw [Nat.add_mul_mod_self_left, Nat.mod_eq_of_lt x.isLt]
  simp only [get, scan, Pixel.index, Fin.getElem_fin, Vector.getElem_ofFn, row, column]

/-- Where all parts have the same length, the place of a part is a multiple of it. -/
theorem getElem?_flatMap_of_length {α β : Type} {f : α → List β} {width : Nat}
    (even : ∀ a, (f a).length = width) {parts : List α} {y x : Nat} {a : α}
    (part : parts[y]? = some a) (inside : x < width) :
    (parts.flatMap f)[width * y + x]? = (f a)[x]? := by
  induction parts generalizing y with
  | nil => cases part
  | cons first parts ih =>
    rw [List.flatMap_cons]
    cases y with
    | zero =>
      obtain rfl : first = a := Option.some.inj part
      rw [Nat.mul_zero, Nat.zero_add, List.getElem?_append_left (by rw [even]; exact inside)]
    | succ y =>
      have behind : width * (y + 1) + x - width = width * y + x := by
        rw [Nat.mul_succ]
        omega
      rw [List.getElem?_append_right (by rw [even, Nat.mul_succ]; omega), even, behind]
      exact ih part

theorem getElem?_line (g : Display) (x : Fin displayWidth) (y : Fin displayHeight) :
    (g.line y)[x.val]? = some (g.get ⟨x, y⟩).mark := by
  rw [line, List.getElem?_append_left (by simp), row, List.map_map, List.getElem?_map,
    List.getElem?_eq_getElem (by simp), List.getElem_finRange]
  rfl

theorem getElem?_render (g : Display) (x : Fin displayWidth) (y : Fin displayHeight) :
    g.render[(displayWidth + 1) * y.val + x.val]? = some (g.get ⟨x, y⟩).mark := by
  have part : (List.finRange displayHeight)[y.val]? = some y := by
    rw [List.getElem?_eq_getElem (by simp), List.getElem_finRange]
    rfl
  rw [render, getElem?_flatMap_of_length g.length_line part (Nat.lt_succ_of_lt x.isLt),
    getElem?_line]

/-- The display can be read back from its dump. -/
theorem scan_render (g : Display) : scan g.render = g := by
  apply ext_get
  rintro ⟨x, y⟩
  rw [get_scan, getElem?_render, Option.bind_some, Color.ofMark_mark, Option.getD_some]

theorem mark_eq (c : Color) : c.mark = if c = .white then '#' else ' ' := by cases c <;> rfl

/-- A dump has a line for each row, with a character for each pixel. -/
theorem render_eq (g : Display) : ∃ rows : Fin displayHeight → List Char,
    g.render = (List.ofFn rows).flatMap (· ++ ['\n']) ∧
    ∀ y, (rows y).length = displayWidth ∧
      ∀ x : Fin displayWidth, (rows y)[x.val]? =
        some (if g.get ⟨x, y⟩ = .white then '#' else ' ') := by
  refine ⟨fun y => (g.row y).map Color.mark, ?_, ?_⟩
  · rw [List.ofFn_eq_map, List.flatMap_map]
    rfl
  · intro y
    have long : ((g.row y).map Color.mark).length = displayWidth := by
      rw [List.length_map, length_row]
    refine ⟨long, ?_⟩
    intro x
    have shown := g.getElem?_line x y
    rw [line, List.getElem?_append_left (by rw [long]; exact x.isLt), mark_eq] at shown
    exact shown

end Display

namespace Headless

/-! ## What the arguments say -/

section Items

variable {α β : Type} {items : List Item} {s : Setting} {read : List Char → Option α}
  {default value : α}

/-- Whether a value is the one that the items give to an option, as `read` understands it, or
    else the default. -/
def Gives (items : List Item) (s : Setting) (read : List Char → Option α) (default value : α) :
    Prop :=
  (∀ text, Item.setting s text ∉ items) ∧ value = default ∨
  ∃ text, (∀ other, Item.setting s other ∈ items ↔ other = text) ∧
    read text.toList = some value

theorem mem_filterMap_value? {text : String} :
    text ∈ items.filterMap (Item.value? s) ↔ Item.setting s text ∈ items := by
  rw [List.mem_filterMap]
  constructor
  · rintro ⟨item, among, told⟩
    cases item with
    | setting t value =>
      obtain ⟨rfl, rfl⟩ := Option.ite_some_none_eq_some.mp told
      exact among
    | program path => cases told
    | dump => cases told
  · intro among
    exact ⟨_, among, if_pos rfl⟩

theorem bind_eq_ok {ε : Type} {x : Except ε α} {f : α → Except ε β} {b : β} :
    (x >>= f) = .ok b ↔ ∃ a, x = .ok a ∧ f a = .ok b := by
  cases x with
  | error e => exact ⟨nofun, nofun⟩
  | ok a => exact ⟨fun h => ⟨a, rfl, h⟩, fun ⟨_, h, h'⟩ => Except.ok.inj h ▸ h'⟩

theorem gives_of_valueAs (given : Options.valueAs items s read default = .ok value) :
    Gives items s read default value := by
  obtain ⟨found, once, given⟩ := bind_eq_ok.mp given
  have among : ∀ text, text ∈ items.filterMap (Item.value? s) ↔ Item.setting s text ∈ items :=
    fun _ => mem_filterMap_value?
  unfold Options.value at once
  split at once
  · next none_ =>
    cases once
    cases given
    rw [none_] at among
    exact .inl ⟨fun text h => List.not_mem_nil ((among text).mpr h), rfl⟩
  · next text one =>
    cases once
    rw [one] at among
    refine .inr ⟨text, fun other => (among other).symm.trans List.mem_singleton, ?_⟩
    dsimp only at given
    split at given
    · next a understood =>
      cases given
      exact understood
    · cases given
  · cases once

/-- A value that is understood in one way is understood in another way as well. -/
theorem Gives.map {read' : List Char → Option β} (f : α → β)
    (h : Gives items s read default value)
    (understood : ∀ text, read text = some value → read' text = some (f value)) :
    Gives items s read' (f default) (f value) := by
  rcases h with ⟨never, rfl⟩ | ⟨text, once, reads⟩
  · exact .inl ⟨never, rfl⟩
  · exact .inr ⟨text, once, understood _ reads⟩

/-- A value other than the default that has one name is asked for by that name. -/
theorem Gives.iff_of_name {a : α} {name : String} (h : Gives items s read default value)
    (other : default ≠ a) (names : ∀ text : String, read text.toList = some a ↔ text = name) :
    value = a ↔ Item.setting s name ∈ items := by
  rcases h with ⟨never, rfl⟩ | ⟨text, once, reads⟩
  · exact ⟨fun h => absurd h other, fun h => absurd h (never name)⟩
  · rw [once, ← Option.some.injEq, ← reads, names]
    exact eq_comm

end Items

theorem leftShiftFlag?_eq_some_iff (text : String) :
    Options.leftShiftFlag? text.toList = some .leastSignificant ↔ text = "lsb" := by
  rw [Options.leftShiftFlag?, String.ofList_toList]
  split <;> simp_all

theorem edge?_eq_some_iff (text : String) :
    Options.edge? text.toList = some .clip ↔ text = "clip" := by
  rw [Options.edge?, String.ofList_toList]
  split <;> simp_all

/-- Whether options are what the items of a command line ask for. -/
structure Asks (items : List Item) (options : Options) : Prop where
  program : ∀ path, .program path ∈ items ↔ path = options.program
  dump : options.dump = true ↔ .dump ∈ items
  maxSteps : Gives items .maxSteps (fun text => (Decimal.unsigned? text).map some) none
    options.maxSteps
  seed : Gives items .seed (fun text => (Decimal.unsigned? text).map some) none
    (options.config.seed.map UInt64.toNat)
  leftShiftFlag : options.config.leftShiftFlag = .leastSignificant ↔
    .setting .leftShiftFlag "lsb" ∈ items
  edge : options.config.edge = .clip ↔ .setting .edge "clip" ∈ items
  timerDivider : Gives items .timerDivider Decimal.signed? 1
    (options.config.timerDivider.toNat : Int)

/-! ### The options that are accepted -/

theorem mem_filterMap_path? {items : List Item} {path : String} :
    path ∈ items.filterMap Item.path? ↔ Item.program path ∈ items := by
  rw [List.mem_filterMap]
  constructor
  · rintro ⟨item, among, told⟩
    cases item with
    | program other =>
      cases told
      exact among
    | setting t value => cases told
    | dump => cases told
  · intro among
    exact ⟨_, among, rfl⟩

theorem mem_of_programOf {items : List Item} {program : String}
    (named : Options.programOf items = .ok program) (path : String) :
    .program path ∈ items ↔ path = program := by
  rw [← mem_filterMap_path?]
  unfold Options.programOf at named
  split at named
  · cases named
  · next only =>
    cases named
    rw [only, List.mem_singleton]
  · cases named

theorem mem_of_dumpOf {items : List Item} {dump : Bool} (asked : Options.dumpOf items = .ok dump) :
    dump = true ↔ .dump ∈ items := by
  unfold Options.dumpOf at asked
  split at asked
  · cases asked
  · cases asked
    exact decide_eq_true_iff

theorem unsigned?_of_unsignedBelow {bound n : Nat} {text : List Char}
    (h : Options.unsignedBelow bound text = some n) :
    Decimal.unsigned? text = some n ∧ n < bound := by
  obtain ⟨read, below⟩ := Option.filter_eq_some_iff.mp h
  exact ⟨read, of_decide_eq_true below⟩

theorem signed?_of_signedBelow {bound n : Nat} {text : List Char}
    (h : Options.signedBelow bound text = some n) :
    Decimal.signed? text = some (n : Int) ∧ n < bound := by
  obtain ⟨k, read, within_⟩ := Option.bind_eq_some_iff.mp h
  split at within_
  · next bounds =>
    cases within_
    rw [read, Int.toNat_of_nonneg bounds.1]
    exact ⟨rfl, by omega⟩
  · cases within_

theorem asks_of_ofItems {items : List Item} {options : Options}
    (accepted : Options.ofItems items = .ok options) : Asks items options := by
  obtain ⟨program, named, accepted⟩ := bind_eq_ok.mp accepted
  obtain ⟨speed, -, accepted⟩ := bind_eq_ok.mp accepted
  obtain ⟨maxSteps, limited, accepted⟩ := bind_eq_ok.mp accepted
  obtain ⟨seed, seeded, accepted⟩ := bind_eq_ok.mp accepted
  obtain ⟨flag, flagged, accepted⟩ := bind_eq_ok.mp accepted
  obtain ⟨edge, edged, accepted⟩ := bind_eq_ok.mp accepted
  obtain ⟨divider, divided, accepted⟩ := bind_eq_ok.mp accepted
  obtain ⟨dump, asked, accepted⟩ := bind_eq_ok.mp accepted
  cases accepted
  refine ⟨mem_of_programOf named, mem_of_dumpOf asked, ?_, ?_, ?_, ?_, ?_⟩
  · apply (gives_of_valueAs limited).map id
    intro text read
    obtain ⟨n, below, rfl⟩ := Option.map_eq_some_iff.mp read
    rw [(unsigned?_of_unsignedBelow below).1]
    rfl
  · apply (gives_of_valueAs seeded).map (Option.map UInt64.toNat)
    intro text read
    obtain ⟨n, below, rfl⟩ := Option.map_eq_some_iff.mp read
    obtain ⟨read, small⟩ := unsigned?_of_unsignedBelow below
    rw [read, Option.map_some, Option.map_some, UInt64.toNat_ofNat_of_lt' small]
  · exact (gives_of_valueAs flagged).iff_of_name (by decide) leftShiftFlag?_eq_some_iff
  · exact (gives_of_valueAs edged).iff_of_name (by decide) edge?_eq_some_iff
  · apply (gives_of_valueAs divided).map fun divider => (divider.toNat : Int)
    intro text read
    obtain ⟨n, below, rfl⟩ := Option.map_eq_some_iff.mp read
    obtain ⟨read, small⟩ := signed?_of_signedBelow below
    rw [read, UInt8.toNat_ofNat_of_lt' small]

/-- The options of a command line are what its arguments ask for. -/
theorem asks_of_parse {arguments : List String} {options : Options}
    (accepted : Options.parse arguments = .ok options) :
    ∃ items, Item.ofArguments arguments = .ok items ∧ Asks items options := by
  obtain ⟨items, read, accepted⟩ := bind_eq_ok.mp accepted
  exact ⟨items, read, asks_of_ofItems accepted⟩

/-! ## The process -/

section Process

variable {options : Options} {chance : Generator} {rom : List UInt8} {fuel k : Nat}
  {last : Machine} {fault : Option Fault} {r : Report}

/-- The machine that runs a program that was loaded as the options say. -/
def loaded (options : Options) (chance : Generator) (rom : List UInt8) : Machine :=
  (Machine.create options.config chance).act (.load rom)

theorem report_of_tooLarge (large : maxProgramSize < rom.length) (fuel : Nat) :
    report options chance (.contents rom) fuel =
      some (.ofLoadError options (.tooLarge rom.length)) := by
  have refused : launch options chance (.contents rom) = .error (.tooLarge rom.length) := by
    rw [launch, Machine.loadFile, Machine.run_load, if_neg (Nat.not_le_of_lt large)]
  rw [report, refused]

/-- The lines of a log that tells of a load. -/
def loadLines (size : Nat) : Array Entry :=
  (#[] : Array Entry) ++ SoundDevice.announcer.journal (loadEvents size)

theorem launch_of_fits (fits : rom.length ≤ maxProgramSize) :
    launch options chance (.contents rom) =
      .ok (.reached (loadLines rom.length) (loaded options chance rom) 0) := by
  rw [launch, Machine.loadFile, Machine.run_load, if_pos fits, loaded, Machine.act_load,
    if_pos fits]
  rfl

/-- Where the program fits, the process ends as stepping does. -/
theorem report_of_ends (fits : rom.length ≤ maxProgramSize)
    (h : (loaded options chance rom).Ends options.maxSteps k last fault) (enough : k < fuel) :
    report options chance (.contents rom) fuel =
      some (.ofEnding options
        (.conclusion (loadLines rom.length) (loaded options chance rom) k fault) (.of fault)) := by
  rw [report, launch_of_fits fits]
  show (Progress.run _ _ _).map _ = _
  rw [Progress.run_eq_of_ends _ h enough]
  rfl

/-- A report comes of a run that has ended, and says how. -/
theorem ends_of_report (fits : rom.length ≤ maxProgramSize)
    (ended : report options chance (.contents rom) fuel = some r) :
    ∃ k last fault, (loaded options chance rom).Ends options.maxSteps k last fault ∧
      r = .ofEnding options
        (.conclusion (loadLines rom.length) (loaded options chance rom) k fault) (.of fault) := by
  rw [report, launch_of_fits fits] at ended
  obtain ⟨left, ran, rfl⟩ := Option.map_eq_some_iff.mp ended
  obtain ⟨k, last, fault, h, rfl⟩ := Progress.ends_of_run ran
  exact ⟨k, last, fault, h, rfl⟩

theorem machine_conclusion {m : Machine} {limit : Option Nat} (opening : Array Entry)
    (h : m.Ends limit k last fault) : (Progress.conclusion opening m k fault).machine = last := by
  cases h <;> rfl

theorem exists_report_iff :
    (∃ fuel r, report options chance (.contents rom) fuel = some r) ↔
      maxProgramSize < rom.length ∨ ∃ k, (loaded options chance rom).EndsAt options.maxSteps k := by
  rcases Nat.lt_or_ge maxProgramSize rom.length with large | fits
  · exact ⟨fun _ => .inl large, fun _ => ⟨0, _, report_of_tooLarge large 0⟩⟩
  · constructor
    · rintro ⟨fuel, r, ended⟩
      obtain ⟨k, last, fault, h, -⟩ := ends_of_report fits ended
      exact .inr ⟨k, h.isLeast.1⟩
    · rintro (large | ⟨j, at_⟩)
      · exact absurd large (Nat.not_lt_of_le fits)
      · obtain ⟨k, last, fault, -, h⟩ := Machine.exists_ends_of_le at_
        exact ⟨k + 1, _, report_of_ends fits h (Nat.lt_succ_self k)⟩

/-- The exit code tells whether a step failed. -/
theorem code_ofEnding (options : Options) (p : Progress) (fault : Option Fault) :
    ((Report.ofEnding options p (.of fault)).code = 1 ↔ fault ≠ none) ∧
      ((Report.ofEnding options p (.of fault)).code = 0 ↔ fault = none) := by
  cases fault with
  | none => exact ⟨⟨nofun, fun h => absurd rfl h⟩, fun _ => rfl, fun _ => rfl⟩
  | some fault => exact ⟨⟨fun _ => nofun, fun _ => rfl⟩, nofun, nofun⟩

theorem code_report (ended : report options chance (.contents rom) fuel = some r) :
    let failed := maxProgramSize < rom.length ∨ ∃ k last fault,
      (loaded options chance rom).Ends options.maxSteps k last (some fault)
    (r.code = 1 ↔ failed) ∧ (r.code = 0 ↔ ¬ failed) := by
  intro failed
  rcases Nat.lt_or_ge maxProgramSize rom.length with large | fits
  · rw [report_of_tooLarge large] at ended
    cases ended
    exact ⟨⟨fun _ => .inl large, fun _ => rfl⟩, nofun, fun h => absurd (.inl large) h⟩
  · obtain ⟨k, last, fault, h, rfl⟩ := ends_of_report fits ended
    -- stepping ends in one way only, so that this fault is the one that is asked about
    have same : failed ↔ fault ≠ none := by
      constructor
      · rintro (large | ⟨k', last', fault', h'⟩)
        · exact absurd large (Nat.not_lt_of_le fits)
        · obtain ⟨-, -, rfl⟩ := h'.unique h
          exact Option.some_ne_none fault'
      · intro stopped
        obtain ⟨fault, rfl⟩ := Option.ne_none_iff_exists'.mp stopped
        exact .inr ⟨k, last, fault, h⟩
    rw [same, not_not]
    exact code_ofEnding _ _ _

/-- What is printed is the display that the steps left. -/
theorem stdout_report (ended : report options chance (.contents rom) fuel = some r) :
    (maxProgramSize < rom.length → r.stdout = []) ∧
    (rom.length ≤ maxProgramSize → ∃ k last fault,
      (loaded options chance rom).Ends options.maxSteps k last fault ∧
        r.stdout = if options.dump then last.display.render else []) := by
  constructor
  · intro large
    rw [report_of_tooLarge large] at ended
    cases ended
    rfl
  · intro fits
    obtain ⟨k, last, fault, h, rfl⟩ := ends_of_report fits ended
    refine ⟨k, last, fault, h, ?_⟩
    rw [← machine_conclusion (loadLines rom.length) h]
    rfl

end Process

/-- A process that a command line starts with a program in a file ends iff the program is too large
    or the steps of a fresh machine that has loaded it end. Its exit code is one if the program is
    too large or one of these steps failed, and otherwise zero. What it prints is the display that
    they left, if that is asked for and the program was loaded; and from what it prints the display
    can be read. -/
theorem report_accepted {arguments : List String} {options : Options}
    (accepted : Options.parse arguments = .ok options) (rom : List UInt8) (chance : Generator) :
    let m := (Machine.create options.config chance).act (.load rom)
    let failed := 3584 < rom.length ∨
      ∃ k last fault, m.Ends options.maxSteps k last (some fault)
    (∃ items, Item.ofArguments arguments = .ok items ∧ Asks items options) ∧
    ((∃ fuel r, report options chance (.contents rom) fuel = some r) ↔
      3584 < rom.length ∨ ∃ k, m.EndsAt options.maxSteps k) ∧
    (∀ fuel r, report options chance (.contents rom) fuel = some r →
      (r.code = 1 ↔ failed) ∧ (r.code = 0 ↔ ¬ failed) ∧
      (3584 < rom.length → r.stdout = []) ∧
      (rom.length ≤ 3584 → ∃ k last fault, m.Ends options.maxSteps k last fault ∧
        r.stdout = if options.dump then last.display.render else [])) ∧
    ∀ g : Display, Display.scan g.render = g ∧ ∃ rows : Fin 32 → List Char,
      g.render = (List.ofFn rows).flatMap (· ++ ['\n']) ∧
      ∀ y, (rows y).length = 64 ∧ ∀ x : Fin 64,
        (rows y)[x.val]? = some (if g.get ⟨x, y⟩ = .white then '#' else ' ') := by
  refine ⟨asks_of_parse accepted, exists_report_iff, ?_, fun g => ⟨g.scan_render, g.render_eq⟩⟩
  intro fuel r ended
  obtain ⟨one, zero⟩ := code_report ended
  exact ⟨one, zero, stdout_report ended⟩

theorem ends_of_unknown {m : Machine} {word : UInt16} (running : m.awaiting = none)
    (fetch : m.memory.readWord m.counter = .ok word) (unknown : Instruction.decode word = none) :
    m.Ends none 0 m.drained.advance (some (.unknownInstruction word)) := by
  have outcome := Machine.step_unknown running fetch unknown
  have failed : m.step.fault = some (.unknownInstruction word) := by rw [outcome]
  obtain ⟨first, active⟩ := Machine.isLeast_zero failed
  have ends := Machine.Ends.fail first active failed
  rw [Machine.watched_zero, outcome] at ends
  exact ends

/-- The first word of this program is no instruction, so that the display is printed as it was at
    first. -/
theorem report_accepted_of_unknown :
    let options : Options :=
      ⟨"p.ch8", 700, none, { leftShiftFlag := .leastSignificant }, true⟩
    Options.parse ["--dump", "--shl-carry=lsb", "p.ch8"] = .ok options ∧
    ∃ fuel r, report options (.ofSeed 0) (.contents [0x00, 0x00]) fuel = some r ∧
      r.code = 1 ∧ r.stdout = Display.blank.render := by
  intro options
  have accepted : Options.parse ["--dump", "--shl-carry=lsb", "p.ch8"] = .ok options := by
    decide +kernel
  obtain ⟨-, ends_, left, -⟩ := report_accepted accepted [0x00, 0x00] (.ofSeed 0)
  have fits : ([0x00, 0x00] : List UInt8).length ≤ 3584 := by decide
  have fetch : (loaded options (.ofSeed 0) [0x00, 0x00]).memory.readWord 0x200 = .ok 0x0000 :=
    Machine.readWord_act_load_create (k := 0) _ _ fits rfl rfl rfl
  have ends : (loaded options (.ofSeed 0) [0x00, 0x00]).Ends none 0
      (loaded options (.ofSeed 0) [0x00, 0x00]).drained.advance (some (.unknownInstruction 0)) :=
    ends_of_unknown rfl fetch (by decide)
  obtain ⟨fuel, r, ended⟩ := ends_.mpr (.inr ⟨0, ends.isLeast.1⟩)
  obtain ⟨one, -, -, printed⟩ := left fuel r ended
  obtain ⟨k, last, fault, h, printed⟩ := printed fits
  obtain ⟨-, rfl, -⟩ := ends.unique h
  exact ⟨accepted, fuel, r, ended, one.mpr (.inr ⟨_, _, _, ends⟩), printed⟩

end Headless

end Chip8
