import Chip8.Headless.Run
import Chip8.Proofs.Redraw
import Mathlib.Order.Bounds.Basic
import Mathlib.Order.Nat

/-!
# Bounded stepping

A headless run makes one step after the other and looks at the display after each.
When it ends, and with what, is told here by the machines that these steps lead to and
without the loop: it ends with the first machine that has reached the limit, that has
come to wait for a key, or whose step fails.

Results:

* `exists_ends_of_le`, `Ends.unique`: stepping ends no later than with any machine that
  gives reason to, and in one way.
* `run_eq_of_ends`, `ends_of_run`: a run ends just as stepping does.
* `stepsMade_le`: a run with a limit does not make more steps.
* `displayLines_conclusion`: which steps a run announces to have drawn.
* `Ends.add`: stepping can be interrupted and taken up again.
* `run_as_stepping`: all of this, of a run from its start.
-/

namespace Chip8

namespace Machine

variable {m last : Machine} {limit : Option Nat} {a b i j k : Nat} {fault : Option Fault}

/-! ## Stepping -/

/-- The machine after `k` steps, where someone looks at the display after each. -/
def watched (m : Machine) : Nat → Machine
  | 0 => m
  | k + 1 => (m.watched k).step.machine.takeRedraw.2

/-- Whether there is no reason to make a step after the first `k`: these were all that were
    allowed, or the last of them has left the machine waiting for a key. -/
def RestsAt (limit : Option Nat) (m : Machine) (k : Nat) : Prop :=
  limit = some k ∨ 1 ≤ k ∧ (m.watched k).awaiting ≠ none

/-- Whether nothing follows the first `k` steps, as there is no reason to make another or as it
    fails. -/
def EndsAt (limit : Option Nat) (m : Machine) (k : Nat) : Prop :=
  m.RestsAt limit k ∨ (m.watched k).step.fault ≠ none

/-- How stepping ends: after how many steps that succeed, with which machine, and with which fault
    if it was a failing step that put an end to it. -/
inductive Ends (limit : Option Nat) (m : Machine) : Nat → Machine → Option Fault → Prop
  | rest {k : Nat} (first : IsLeast {i | m.EndsAt limit i} k) (rests : m.RestsAt limit k) :
      Ends limit m k (m.watched k) none
  | fail {k : Nat} {fault : Fault} (first : IsLeast {i | m.EndsAt limit i} k)
      (active : ¬ m.RestsAt limit k) (failed : (m.watched k).step.fault = some fault) :
      Ends limit m k (m.watched k).step.machine (some fault)

@[simp] theorem watched_zero (m : Machine) : m.watched 0 = m := rfl

theorem awaiting_watched_succ (m : Machine) (k : Nat) :
    (m.watched (k + 1)).awaiting = (m.watched k).step.machine.awaiting := rfl

theorem watched_add (m : Machine) (a j : Nat) : m.watched (a + j) = (m.watched a).watched j := by
  induction j with
  | zero => rfl
  | succ j ih => rw [← Nat.add_assoc, watched, ih, watched]

theorem Ends.isLeast (h : m.Ends limit k last fault) : IsLeast {i | m.EndsAt limit i} k := by
  cases h <;> assumption

theorem ends_of_isLeast (first : IsLeast {i | m.EndsAt limit i} k) :
    ∃ last fault, m.Ends limit k last fault := by
  by_cases rests : m.RestsAt limit k
  · exact ⟨_, _, .rest first rests⟩
  · obtain ⟨fault, failed⟩ := Option.ne_none_iff_exists'.mp (first.1.resolve_left rests)
    exact ⟨_, _, .fail first rests failed⟩

open Classical in
/-- Where there is an end there is a first one. -/
theorem exists_ends_of_le (h : m.EndsAt limit j) :
    ∃ k last fault, k ≤ j ∧ m.Ends limit k last fault := by
  have first := Nat.isLeast_find ⟨j, h⟩
  obtain ⟨last, fault, ends⟩ := ends_of_isLeast first
  exact ⟨_, last, fault, first.2 h, ends⟩

/-- Stepping ends in one way only. -/
theorem Ends.unique {k' : Nat} {last' : Machine} {fault' : Option Fault}
    (h : m.Ends limit k last fault) (h' : m.Ends limit k' last' fault') :
    k' = k ∧ last' = last ∧ fault' = fault := by
  obtain rfl : k' = k := h'.isLeast.unique h.isLeast
  cases h with
  | rest first rests =>
    cases h' with
    | rest => exact ⟨rfl, rfl, rfl⟩
    | fail first' active => exact absurd rests active
  | fail first active failed =>
    cases h' with
    | rest first' rests => exact absurd rests active
    | fail first' active' failed' =>
      rw [failed] at failed'
      cases failed'
      exact ⟨rfl, rfl, rfl⟩

/-- Before the end, the steps succeed and the limit is not reached. -/
theorem Ends.before (h : m.Ends limit k last fault) (early : i < k) :
    (m.watched i).step.fault = none ∧ ∀ n, limit = some n → i < n := by
  have goesOn : ¬ m.EndsAt limit i := fun ends => absurd (h.isLeast.2 ends) (Nat.not_le_of_lt early)
  rw [EndsAt, not_or] at goesOn
  refine ⟨not_not.mp goesOn.2, ?_⟩
  intro n limited
  exact Nat.lt_of_lt_of_le early (h.isLeast.2 (.inl (.inl limited)))

theorem Ends.running (h : m.Ends limit k last fault) (begun : 1 ≤ i) (early : i < k) :
    (m.watched i).awaiting = none := by
  have goesOn : ¬ m.EndsAt limit i := fun ends => absurd (h.isLeast.2 ends) (Nat.not_le_of_lt early)
  by_contra waits
  exact goesOn (.inl (.inr ⟨begun, waits⟩))

/-- Where the step succeeds, one step is all that a limit of one allows. -/
theorem isLeast_one (succeeds : m.step.fault = none) :
    IsLeast {i | m.EndsAt (some 1) i} 1 := by
  refine ⟨.inl (.inl rfl), ?_⟩
  intro i ends
  apply Nat.one_le_iff_ne_zero.mpr
  rintro rfl
  rcases ends with (limited | ⟨begun, -⟩) | fails
  · cases limited
  · cases begun
  · exact fails succeeds

/-- Without a limit, a step that fails ends everything at once. -/
theorem isLeast_zero {fault : Fault} (failed : m.step.fault = some fault) :
    IsLeast {i | m.EndsAt none i} 0 ∧ ¬ m.RestsAt none 0 := by
  refine ⟨⟨.inr ?_, fun i _ => Nat.zero_le i⟩, ?_⟩
  · rw [watched_zero, failed]
    exact Option.some_ne_none _
  · rintro (limited | ⟨begun, -⟩)
    · cases limited
    · cases begun

/-! ## Interruptions -/

section Interruption

variable (going : a = 0 ∨ (m.watched a).awaiting = none)
include going

theorem restsAt_add : m.RestsAt (some (a + b)) (a + i) ↔ (m.watched a).RestsAt (some b) i := by
  rw [RestsAt, RestsAt, ← watched_add, Option.some.injEq, Option.some.injEq,
    Nat.add_right_inj]
  apply or_congr_right
  constructor
  · rintro ⟨begun, waits⟩
    refine ⟨?_, waits⟩
    rcases going with rfl | running
    · omega
    · by_contra first
      obtain rfl : i = 0 := by omega
      exact waits running
  · rintro ⟨begun, waits⟩
    exact ⟨by omega, waits⟩

theorem endsAt_add : m.EndsAt (some (a + b)) (a + i) ↔ (m.watched a).EndsAt (some b) i := by
  rw [EndsAt, EndsAt, restsAt_add going, watched_add]

/-- Stepping that has made all its steps can be taken up again, unless the last of them has left the
    machine waiting for a key. -/
theorem Ends.add (all : m.Ends (some a) a (m.watched a) none)
    (h : (m.watched a).Ends (some b) j last fault) :
    m.Ends (some (a + b)) (a + j) last fault := by
  have first : IsLeast {i | m.EndsAt (some (a + b)) i} (a + j) := by
    refine ⟨(endsAt_add going).mpr h.isLeast.1, ?_⟩
    intro i ends
    rcases Nat.lt_or_ge i a with early | late
    -- such an end would have come before all of the first steps were made
    · rcases ends with (limited | ⟨begun, waits⟩) | fails
      · cases limited
        omega
      · exact absurd (all.running begun early) waits
      · exact absurd (all.before early).1 fails
    · obtain ⟨i, rfl⟩ := Nat.exists_eq_add_of_le late
      exact Nat.add_le_add_left (h.isLeast.2 ((endsAt_add going).mp ends)) a
  cases h with
  | rest _ rests =>
    rw [← watched_add]
    exact .rest first ((restsAt_add going).mpr rests)
  | fail _ active failed =>
    rw [← watched_add] at failed ⊢
    exact .fail first (fun rests => active ((restsAt_add going).mp rests)) failed

end Interruption

/-! ## The steps that draw -/

/-- The numbers of the steps, of the first `k`, after which the display is found to be drawn to. -/
def drawings (m : Machine) (k : Nat) : List Nat :=
  ((List.range k).filter fun i => (m.watched i).step.machine.redraw).map (· + 1)

theorem drawings_succ (m : Machine) (k : Nat) :
    m.drawings (k + 1) =
      m.drawings k ++ if (m.watched k).step.machine.redraw then [k + 1] else [] := by
  rw [drawings, drawings, List.range_succ, List.filter_append, List.map_append, List.filter_cons,
    List.filter_nil]
  split <;> rfl

theorem drawings_add (m : Machine) (a j : Nat) :
    m.drawings (a + j) = m.drawings a ++ ((m.watched a).drawings j).map (a + ·) := by
  induction j with
  | zero => rw [drawings, drawings, Nat.add_zero]; exact (List.append_nil _).symm
  | succ j ih =>
    rw [← Nat.add_assoc, drawings_succ, ih, drawings_succ, watched_add, List.map_append,
      List.append_assoc]
    split <;> rfl

/-- After a first step the flag is down, whatever it was before. -/
theorem redraw_watched (lowered : m.redraw = false) (i : Nat) : (m.watched i).redraw = false := by
  cases i with
  | zero => exact lowered
  | succ i => rfl

theorem drawings_eq (lowered : m.redraw = false) (k : Nat) :
    m.drawings k = ((List.range k).filter fun i => (m.watched i).touchesDisplay).map (· + 1) := by
  have draws : ∀ i, (m.watched i).step.machine.redraw = (m.watched i).touchesDisplay := by
    intro i
    rw [redraw_step_eq, redraw_watched lowered, Bool.false_or]
  simp only [drawings, draws]

/-! ## Two programs -/

theorem carriesOut_of_two_clears :
    (started [0x00, 0xE0, 0x00, 0xE0]).carriesOut = some .clearScreen := by
  have fetch : (started [0x00, 0xE0, 0x00, 0xE0]).memory.readWord 0x200 = .ok 0x00E0 :=
    readWord_started_at (k := 0) (by decide) rfl rfl rfl
  exact carriesOut_of_clear rfl fetch (by decide) rfl

theorem fault_of_store : (started [0xF5, 0x55]).step.fault = some (.readOnly 0) := by
  have fetch : (started [0xF5, 0x55]).memory.readWord 0x200 = .ok 0xF555 :=
    readWord_started 0xF555
  rw [step_obstructed rfl fetch (i := .storeRegisters 5) (by decide) rfl]
  rfl

end Machine

/-! ## The lines of a run -/

namespace Headless

/-- The line that says after how many steps the display was drawn to. -/
def displayLine (steps : Nat) : Entry := ⟨.info, s!"Display updated after {steps} steps"⟩

/-- Whether a line says that the display was drawn to. -/
def tellsRedraw (e : Entry) : Bool :=
  e.level == .info && ("Display updated after ".toList.isPrefixOf e.message.toList)

theorem tellsRedraw_displayLine (steps : Nat) : tellsRedraw (displayLine steps) = true := by
  have text : (displayLine steps).message.toList =
      "Display updated after ".toList ++ ((toString steps).toList ++ " steps".toList) := by
    simp only [displayLine, String.toList_append, List.append_assoc]
    rfl
  rw [tellsRedraw, text, List.isPrefixOf_iff_prefix.mpr (List.prefix_append _ _)]
  rfl

/-- No event of a machine is mistaken for a look at the display. -/
theorem filter_tellsRedraw_journal (events : List Event) :
    (SoundDevice.announcer.journal events).filter tellsRedraw = [] := by
  rw [List.filter_eq_nil_iff]
  intro line among
  obtain ⟨event, -, tells⟩ := List.mem_flatMap.mp among
  cases event with
  | loaded size =>
    obtain rfl := List.mem_singleton.mp tells
    simp only [tellsRedraw, String.toList_append, List.append_assoc]
    exact Bool.false_ne_true
  | beep =>
    obtain rfl := List.mem_singleton.mp tells
    decide
  | _ =>
    obtain rfl := List.mem_singleton.mp tells
    exact Bool.false_ne_true

/-! ## Turns -/

/-- The lines of a turn whose step succeeds and is the one of this number. -/
def turnLines (m : Machine) (number : Nat) : List Entry :=
  SoundDevice.announcer.journal m.step.events ++
    if m.step.machine.redraw then [displayLine number] else []

/-- How a run ends that a step put an end to, if it failed with this fault. -/
def Ending.of : Option Fault → Ending
  | none => .finished
  | some fault => .stopped fault

namespace Progress

variable {m last : Machine} {limit : Option Nat} {k fuel : Nat} {fault : Option Fault}
  {opening : Array Entry} {p q : Progress} {ended ended' : Progress × Ending}

/-- The run of a machine that has made `k` steps, all of which succeeded. -/
def reached (opening : Array Entry) (m : Machine) (k : Nat) : Progress where
  machine := m.watched k
  steps := k
  journal := opening ++ (List.range k).flatMap fun i => turnLines (m.watched i) (i + 1)

/-- The run of a machine that has ended after `k` steps, or with a fault of the next one. -/
def conclusion (opening : Array Entry) (m : Machine) (k : Nat) : Option Fault → Progress
  | none => reached opening m k
  | some fault =>
    let p := (reached opening m k).follow (m.watched k).step
    p.log [p.stopLine fault]

theorem isAtLimit_reached_of_lt (below : ∀ n, limit = some n → k < n) :
    (reached opening m k).isAtLimit limit = false := by
  cases limit with
  | none => rfl
  | some n => exact decide_eq_false (Nat.not_le_of_lt (below n rfl))

theorem journal_reached_succ (opening : Array Entry) (m : Machine) (k : Nat) :
    (reached opening m (k + 1)).journal =
      (reached opening m k).journal ++ turnLines (m.watched k) (k + 1) := by
  apply Array.ext'
  simp only [reached, Array.toList_appendList, List.range_succ, List.flatMap_append,
    List.flatMap_singleton, List.append_assoc]

theorem count_follow_reached (opening : Array Entry) (m : Machine) (k : Nat) :
    ((reached opening m k).follow (m.watched k).step).count = reached opening m (k + 1) := by
  have journal : ((reached opening m k).follow (m.watched k).step).count.journal =
      (reached opening m (k + 1)).journal := by
    rw [journal_reached_succ]
    apply Array.ext'
    simp only [follow, count, log, turnLines, Array.toList_appendList, List.append_assoc]
    rfl
  exact congrArg (Progress.mk (m.watched (k + 1)) (k + 1)) journal

theorem turn_reached_of_limit (limited : limit = some k) :
    (reached opening m k).turn limit = (reached opening m k, some .finished) := by
  rw [turn, limited]
  exact if_pos (decide_eq_true (Nat.le_refl k))

theorem turn_reached (below : ∀ n, limit = some n → k < n)
    (succeeds : (m.watched k).step.fault = none) :
    (reached opening m k).turn limit =
      (reached opening m (k + 1),
        if (m.watched (k + 1)).awaiting.isSome then some .finished else none) := by
  rw [turn, isAtLimit_reached_of_lt below]
  show (reached opening m k).take (m.watched k).step = _
  rw [take, succeeds]
  exact congrArg (·, _) (count_follow_reached opening m k)

theorem turn_reached_of_fault {fault : Fault} (below : ∀ n, limit = some n → k < n)
    (failed : (m.watched k).step.fault = some fault) :
    (reached opening m k).turn limit =
      (conclusion opening m k (some fault), some (.stopped fault)) := by
  rw [turn, isAtLimit_reached_of_lt below]
  show (reached opening m k).take (m.watched k).step = _
  rw [take, failed]
  rfl

/-! ## The loop -/

theorem turn_reached_of_ends (h : m.Ends limit k last fault)
    (going : k = 0 ∨ (m.watched k).awaiting = none) :
    (reached opening m k).turn limit = (conclusion opening m k fault, some (.of fault)) := by
  cases h with
  | rest first rests =>
    rcases rests with limited | ⟨begun, waits⟩
    · exact turn_reached_of_limit limited
    · rcases going with start | running
      · omega
      · exact absurd running waits
  | fail first active failed =>
    apply turn_reached_of_fault _ failed
    intro n limited
    apply Nat.lt_of_le_of_ne (first.2 (.inl (.inl limited)))
    rintro rfl
    exact active (.inl limited)

/-- A run that has `left` steps to make makes a turn for each of them, and one more to find out that
    there are none left. The last turn is not needed where the last step begins to wait for a
    key. -/
theorem run_reached_of_ends (h : m.Ends limit k last fault) {i left : Nat} (rest : i + left = k)
    (going : i = 0 ∨ (m.watched i).awaiting = none) :
    (reached opening m i).run limit (left + 1) =
      some (conclusion opening m k fault, .of fault) := by
  induction left generalizing i with
  | zero =>
    obtain rfl : i = k := rest
    rw [run, turn_reached_of_ends h going]
  | succ left ih =>
    have early : i < k := by omega
    obtain ⟨succeeds, below⟩ := h.before early
    rw [run, turn_reached below succeeds]
    cases waits : (m.watched (i + 1)).awaiting with
    | none => exact ih (by omega) (.inr waits)
    | some x =>
      -- a wait ends everything, so that the step that began it was the last one
      have suspended : (m.watched (i + 1)).awaiting ≠ none := by
        rw [waits]
        exact Option.some_ne_none x
      obtain rfl : i + 1 = k := by
        by_contra more
        exact suspended (h.running (Nat.le_add_left 1 i) (by omega))
      cases h with
      | rest => rfl
      | fail first active => exact absurd (.inr ⟨Nat.le_add_left 1 i, suspended⟩) active

/-- A run ends as stepping does. -/
theorem run_eq_of_ends (opening : Array Entry) (h : m.Ends limit k last fault)
    (enough : k < fuel) :
    (reached opening m 0).run limit fuel = some (conclusion opening m k fault, .of fault) :=
  run_mono enough (run_reached_of_ends h (Nat.zero_add k) (.inl rfl))

/-- Without an end to stepping a run goes on and on. -/
theorem run_eq_none (endless : ∀ k, ¬ m.EndsAt limit k) (i : Nat) :
    (reached opening m i).run limit fuel = none := by
  induction fuel generalizing i with
  | zero => rfl
  | succ fuel ih =>
    have goesOn := endless i
    rw [Machine.EndsAt, not_or] at goesOn
    have below : ∀ n, limit = some n → i < n := fun n limited =>
      absurd (.inl (.inl limited)) (endless n)
    have running : (m.watched (i + 1)).awaiting = none := by
      by_contra waits
      exact endless (i + 1) (.inl (.inr ⟨Nat.le_add_left 1 i, waits⟩))
    rw [run, turn_reached below (not_not.mp goesOn.2), running]
    exact ih (i + 1)

/-- A run ends only if stepping ends, and with that end. -/
theorem ends_of_run (ran : (reached opening m 0).run limit fuel = some ended) :
    ∃ k last fault, m.Ends limit k last fault ∧
      ended = (conclusion opening m k fault, .of fault) := by
  by_cases ends : ∃ k, m.EndsAt limit k
  · obtain ⟨j, at_⟩ := ends
    obtain ⟨k, last, fault, -, h⟩ := Machine.exists_ends_of_le at_
    -- the fuel that suffices for both runs
    have same := run_mono (Nat.le_max_left fuel (k + 1)) ran
    rw [run_eq_of_ends opening h (Nat.le_max_right fuel (k + 1)), Option.some.injEq] at same
    exact ⟨k, last, fault, h, same.symm⟩
  · rw [run_eq_none (not_exists.mp ends)] at ran
    cases ran

theorem exists_run_iff (opening : Array Entry) :
    (∃ fuel ended, (reached opening m 0).run limit fuel = some ended) ↔
      ∃ k, m.EndsAt limit k := by
  constructor
  · rintro ⟨fuel, ended, ran⟩
    obtain ⟨k, last, fault, h, -⟩ := ends_of_run ran
    exact ⟨k, h.isLeast.1⟩
  · rintro ⟨j, at_⟩
    obtain ⟨k, last, fault, -, h⟩ := Machine.exists_ends_of_le at_
    exact ⟨k + 1, _, run_eq_of_ends opening h (Nat.lt_succ_self k)⟩

/-! ## What a run leaves -/

/-- What a run returns: the number of its steps, or the fault of the one that failed. -/
def answer (ended : Progress × Ending) : Except Fault Nat :=
  match ended.2 with
  | .finished => .ok ended.1.steps
  | .stopped fault => .error fault

/-- The lines that say that the display was drawn to. -/
def displayLines (p : Progress) : List Entry := p.journal.toList.filter tellsRedraw

theorem displayLines_log (p : Progress) (lines : List Entry) :
    (p.log lines).displayLines = p.displayLines ++ lines.filter tellsRedraw := by
  rw [displayLines, log, Array.toList_appendList, List.filter_append]
  rfl

theorem displayLines_reached (m : Machine) (k : Nat) :
    (reached #[] m k).displayLines = (m.drawings k).map displayLine := by
  induction k with
  | zero => rfl
  | succ k ih =>
    rw [displayLines] at ih ⊢
    rw [journal_reached_succ, Array.toList_appendList, List.filter_append, ih, turnLines,
      List.filter_append, filter_tellsRedraw_journal, List.nil_append, Machine.drawings_succ,
      List.map_append]
    split
    · exact congrArg _ (List.filter_cons_of_pos (tellsRedraw_displayLine (k + 1)))
    · rfl

/-- The step that fails announces nothing. -/
theorem displayLines_conclusion (m : Machine) (k : Nat) (fault : Option Fault) :
    (conclusion #[] m k fault).displayLines = (m.drawings k).map displayLine := by
  rw [← displayLines_reached]
  cases fault with
  | none => rfl
  | some fault =>
    rw [conclusion, displayLines_log]
    show ((reached #[] m k).log (SoundDevice.announcer.journal _)).displayLines ++ [] = _
    rw [displayLines_log, filter_tellsRedraw_journal, List.append_nil, List.append_nil]

/-! ## The number of steps -/

/-- The number of steps that are made in so many turns, the one that fails included. -/
def stepsMade (limit : Option Nat) : Nat → Progress → Nat
  | 0, _ => 0
  | fuel + 1, p =>
    if p.isAtLimit limit then 0
    else
      match p.turn limit with
      | (_, some _) => 1
      | (p, none) => p.stepsMade limit fuel + 1

/-- The limit counts the steps from the beginning of the run. -/
theorem stepsMade_le (n fuel : Nat) (p : Progress) :
    p.stepsMade (some n) fuel ≤ n - p.steps := by
  induction fuel generalizing p with
  | zero => exact Nat.zero_le _
  | succ fuel ih =>
    rw [stepsMade]
    split
    · exact Nat.zero_le _
    · next below =>
      have below : p.isAtLimit (some n) = false := Bool.eq_false_iff.mpr below
      have left : p.steps < n := by simpa [isAtLimit] using below
      split
      · omega
      · next q turned =>
        rw [turn, below] at turned
        have counted := steps_take turned
        have later := ih q
        omega

/-! ## Runs as stepping -/

/-- A run with a limit that made all its steps ended with the machine that they lead to. -/
theorem ends_of_answer {a : Nat} (ran : (reached #[] m 0).run (some a) fuel = some ended)
    (all : answer ended = .ok a) :
    m.Ends (some a) a (m.watched a) none ∧ ended = (reached #[] m a, .finished) := by
  obtain ⟨k, last, fault, h, rfl⟩ := ends_of_run ran
  cases h with
  | rest first rests =>
    cases all
    exact ⟨.rest first rests, rfl⟩
  | fail => cases all

/-- How a run ends that takes up again what another one has left. -/
theorem run_add {a b : Nat} {fuel : Nat} {p : Progress × Ending}
    (ran : (start m).run (some a) fuel = some p) (all : answer p = .ok a)
    (going : a = 0 ∨ p.1.machine.awaiting = none) :
    ∃ q r fuel', (start p.1.machine).run (some b) fuel' = some q ∧
      (start m).run (some (a + b)) fuel' = some r ∧
      answer r = (answer q).map (a + ·) ∧ r.1.machine = q.1.machine ∧
      ∃ s t : List Nat, p.1.displayLines = s.map displayLine ∧
        q.1.displayLines = t.map displayLine ∧
        r.1.displayLines = (s ++ t.map (a + ·)).map displayLine := by
  obtain ⟨whole, rfl⟩ := ends_of_answer ran all
  have going : a = 0 ∨ (m.watched a).awaiting = none := going
  obtain ⟨j, last, fault, le, h⟩ := Machine.exists_ends_of_le
    (show (m.watched a).EndsAt (some b) b from .inl (.inl rfl))
  have again := Machine.Ends.add going whole h
  refine ⟨_, _, a + j + 1, run_eq_of_ends #[] h (by omega),
    run_eq_of_ends #[] again (Nat.lt_succ_self _), ?_, ?_,
    m.drawings a, (m.watched a).drawings j, displayLines_reached m a,
    displayLines_conclusion _ _ _, ?_⟩
  · cases fault <;> rfl
  · cases fault with
    | none => exact m.watched_add a j
    | some fault => exact congrArg (·.step.machine) (m.watched_add a j)
  · rw [displayLines_conclusion, Machine.drawings_add]

/-- A run ends with the first machine that has reached the limit, that waits for a key after a step,
    or whose step fails, and a limit sees to it that there is one. In the last case it returns the
    fault, otherwise the number of steps, and it has said for each of them whether it drew to the
    display. So a run can be interrupted and taken up again. -/
theorem run_as_stepping (m : Machine) (limit : Option Nat) :
    ((∃ fuel ended, (start m).run limit fuel = some ended) ↔ ∃ k, m.EndsAt limit k) ∧
    (∀ n, limit = some n →
      (∃ k, k ≤ n ∧ m.EndsAt limit k) ∧ ∀ fuel, (start m).stepsMade limit fuel ≤ n) ∧
    (∀ k, IsLeast {i | m.EndsAt limit i} k → ∃ ended,
      (∀ fuel, k < fuel → (start m).run limit fuel = some ended) ∧
      (m.RestsAt limit k → answer ended = .ok k ∧ ended.1.machine = m.watched k) ∧
      (¬ m.RestsAt limit k → ∃ fault, (m.watched k).step.fault = some fault ∧
        answer ended = .error fault ∧ ended.1.machine = (m.watched k).step.machine) ∧
      (m.redraw = false → ended.1.displayLines =
        (((List.range k).filter fun i => (m.watched i).touchesDisplay).map (· + 1)).map
          displayLine)) ∧
    ∀ a b fuel p, (start m).run (some a) fuel = some p → answer p = .ok a →
      (a = 0 ∨ p.1.machine.awaiting = none) →
      ∃ q r fuel', (start p.1.machine).run (some b) fuel' = some q ∧
        (start m).run (some (a + b)) fuel' = some r ∧
        answer r = (answer q).map (a + ·) ∧ r.1.machine = q.1.machine ∧
        ∃ s t : List Nat, p.1.displayLines = s.map displayLine ∧
          q.1.displayLines = t.map displayLine ∧
          r.1.displayLines = (s ++ t.map (a + ·)).map displayLine := by
  refine ⟨exists_run_iff #[], ?_, ?_, ?_⟩
  · rintro n rfl
    exact ⟨⟨n, Nat.le_refl n, .inl (.inl rfl)⟩, fun fuel => stepsMade_le n fuel (start m)⟩
  · intro k first
    obtain ⟨last, fault, h⟩ := Machine.ends_of_isLeast first
    refine ⟨_, fun fuel enough => run_eq_of_ends #[] h enough, ?_, ?_, ?_⟩
    · intro rests
      cases h with
      | rest => exact ⟨rfl, rfl⟩
      | fail _ active => exact absurd rests active
    · intro active
      cases h with
      | rest _ rests => exact absurd rests active
      | fail _ _ failed => exact ⟨_, failed, rfl, rfl⟩
    · intro lowered
      rw [displayLines_conclusion, Machine.drawings_eq lowered]
  · intro a b fuel p ran all going
    exact run_add ran all going

/-- The first of two steps that clear the display is made by one run and the second by another one,
    while a program that stores registers over the character set stops its run at once. -/
theorem run_as_stepping_of_two_clears :
    let m := Machine.started [0x00, 0xE0, 0x00, 0xE0]
    let m' := Machine.started [0xF5, 0x55]
    (∃ k, k ≤ 1 ∧ m.EndsAt (some 1) k) ∧
    (∃ p q r fuel, (start m).run (some 1) 2 = some p ∧
      answer p = .ok 1 ∧ p.1.displayLines = [displayLine 1] ∧ p.1.machine.awaiting = none ∧
      (start p.1.machine).run (some 1) fuel = some q ∧ (start m).run (some 2) fuel = some r ∧
      answer r = (answer q).map (1 + ·) ∧ r.1.machine = q.1.machine) ∧
    ∃ p, (start m').run none 1 = some p ∧ answer p = .error (.readOnly 0) := by
  have clears := Machine.carriesOut_of_two_clears
  have lowered : (Machine.started [0x00, 0xE0, 0x00, 0xE0]).redraw = false := rfl
  have fails := Machine.fault_of_store
  -- what follows needs no more of the two machines than these facts
  generalize Machine.started [0x00, 0xE0, 0x00, 0xE0] = m at clears lowered ⊢
  generalize Machine.started [0xF5, 0x55] = m' at fails ⊢
  obtain ⟨-, succeeds, -⟩ := Machine.of_carriesOut clears
  obtain ⟨after, ran, running, left⟩ := Machine.exists_of_carriesOut clears rfl
  have draws : m.touchesDisplay = true := by
    rw [Machine.touchesDisplay, clears]
    rfl
  obtain ⟨-, limited, ends, resumed⟩ := run_as_stepping m (some 1)
  obtain ⟨p, ended, rests, -, lines⟩ := ends 1 (Machine.isLeast_one succeeds)
  obtain ⟨counted, machine⟩ := rests (.inl rfl)
  have going : p.1.machine.awaiting = none := by
    rw [machine, Machine.awaiting_watched_succ, Machine.watched_zero, left]
    exact running
  obtain ⟨q, r, fuel, again, whole, answers, same, -⟩ :=
    resumed 1 1 2 p (ended 2 (by decide)) counted (.inr going)
  have announced : p.1.displayLines = [displayLine 1] := by
    rw [lines lowered]
    simp [List.range_succ, draws]
  obtain ⟨first, active⟩ := Machine.isLeast_zero fails
  obtain ⟨-, -, ends, -⟩ := run_as_stepping m' none
  obtain ⟨p', ended', -, stops, -⟩ := ends 0 first
  obtain ⟨fault, failed, stopped, -⟩ := stops active
  rw [Machine.watched_zero, fails, Option.some.injEq] at failed
  rw [← failed] at stopped
  exact ⟨(limited 1 rfl).1, ⟨p, q, r, fuel, ended 2 (by decide), counted, announced, going, again,
    whole, answers, same⟩, p', ended' 1 (by decide), stopped⟩

end Progress

end Headless

end Chip8
