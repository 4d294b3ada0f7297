import Chip8.Proofs.Trace
import Mathlib.Data.List.Infix

/-!
# Calls and returns

A return goes back behind the latest call that no return has matched yet. While a
call is not matched, the address behind it stays where the call stored it, and so
does all that lies below; only the return that matches it brings the depth of the
call stack back to what it was.

Results:

* `stackMove`: an action stores the address behind a call, takes the address that a
  return goes to, or leaves the call stack alone.
* `isPrefix_after`: what is stored stays stored until the depth falls below it.
* `depth_add_returns`: the depth is the number of calls less the number of returns.
* `calls_and_returns_match`: the return that matches a call goes behind it.
-/

namespace Chip8

/-- Whether an instruction is a call. -/
def Instruction.isCall : Instruction → Bool
  | .call _ => true
  | _ => false

namespace Machine

variable {m : Machine} {a : Action} {kept : List UInt16}

/-! ## One action -/

/-- What an action does to the call stack. -/
inductive StackMove (m : Machine) : Action → Prop
  | call {target : Address} (done : m.carriesOut = some (.call target))
      (pushed : m.step.machine.stack.toList = m.stack.toList ++ [m.counter + 2]) :
      StackMove m .step
  | return (done : m.carriesOut = some .return)
      (popped : m.stack.toList = m.step.machine.stack.toList ++ [m.step.machine.counter]) :
      StackMove m .step
  | keep {a : Action} (same : (m.act a).stack = m.stack)
      (neither : a = .step → m.carriesOut ≠ some .return ∧
        (m.carriesOut.any Instruction.isCall) = false) :
      StackMove m a

theorem stackMove_step (m : Machine) : m.StackMove .step := by
  have left := m.stack_step
  cases done : m.carriesOut with
  | none =>
    rw [done] at left
    exact .keep left fun _ => by simp [done]
  | some i =>
    rw [done] at left
    cases i with
    | call target => exact .call done left
    | «return» => exact .return done left
    | _ => exact .keep left fun _ => by simp [done, Instruction.isCall]

/-- Of all actions only steps move the stack, and only by calls and returns. -/
theorem stackMove (m : Machine) (a : Action) : m.StackMove a := by
  by_cases h : a = .step
  · subst h
    exact m.stackMove_step
  · obtain ⟨memory, keypad, redraw, left⟩ := act_of_ne_step h m
    exact .keep (by rw [left]) fun step => absurd step h

/-- What is stored stays stored, but for a return that takes the last of it. -/
theorem isPrefix_act (h : kept <+: m.stack.toList) (a : Action) :
    kept <+: (m.act a).stack.toList ∨
      a = .step ∧ m.carriesOut = some .return ∧
        kept = (m.act a).stack.toList ++ [(m.act a).counter] := by
  cases m.stackMove a with
  | call done pushed =>
    left
    show kept <+: m.step.machine.stack.toList
    rw [pushed]
    exact h.trans (List.prefix_append _ _)
  | «return» done popped =>
    rw [popped, List.prefix_concat_iff] at h
    rcases h with whole | kept
    · exact .inr ⟨rfl, done, whole⟩
    · exact .inl kept
  | keep same neither =>
    left
    rw [same]
    exact h

/-! ## Histories -/

/-- What is on the call stack stays there until the depth falls below it. -/
theorem isPrefix_after (h : kept <+: m.stack.toList) {later : List Action}
    (above : ∀ soFar, soFar <+: later → (m.after soFar).stack.depth + 1 ≠ kept.length) :
    kept <+: (m.after later).stack.toList := by
  induction later using List.reverseRecOn with
  | nil => exact h
  | append_singleton later a ih =>
    have before := ih fun soFar initial => above soFar (initial.trans (List.prefix_append _ _))
    have now := above _ (List.prefix_refl _)
    rw [after_concat] at now ⊢
    rcases isPrefix_act before a with stays | ⟨-, -, taken⟩
    · exact stays
    · apply absurd _ now
      rw [taken, List.length_append, CallStack.length_toList]
      rfl

/-- The depth grows with the calls that a step carries out and shrinks with the returns. -/
theorem depth_step_add_returns (m : Machine) :
    m.step.machine.stack.depth + m.carriesOut.toList.count .return =
      m.stack.depth + m.carriesOut.toList.countP Instruction.isCall := by
  cases m.stackMove_step with
  | call done pushed =>
    rw [done, CallStack.depth_of_toList_concat pushed]
    rfl
  | «return» done popped =>
    rw [done, CallStack.depth_of_toList_concat popped]
    rfl
  | keep same neither =>
    obtain ⟨noReturn, noCall⟩ := neither rfl
    have returns : m.carriesOut.toList.count .return = 0 := by
      rw [List.count_eq_zero, Option.mem_toList]
      exact noReturn
    have calls : m.carriesOut.toList.countP Instruction.isCall = 0 := by
      cases done : m.carriesOut with
      | none => rfl
      | some i =>
        rw [done] at noCall
        exact List.countP_eq_zero.mpr (by simpa using noCall)
    rw [returns, calls]
    exact congrArg CallStack.depth same

/-- The depth is the number of calls less the number of returns. -/
theorem depth_add_returns (config : Config) (chance : Generator) (history : List Action) :
    ((create config chance).after history).stack.depth +
        ((create config chance).performed history).count .return =
      ((create config chance).performed history).countP Instruction.isCall := by
  rw [performed]
  refine history_induction (P := fun past m => m.stack.depth +
    (past.filterMap carriesOut).count .return =
      (past.filterMap carriesOut).countP Instruction.isCall) rfl ?_ ?_ history
  · intro past m ih
    have latest : [m].filterMap carriesOut = m.carriesOut.toList := by
      cases done : m.carriesOut <;> simp [done]
    have step := m.depth_step_add_returns
    rw [List.filterMap_append, List.count_append, List.countP_append, latest]
    omega
  · intro past m a other ih
    obtain ⟨memory, keypad, redraw, left⟩ := act_of_ne_step other m
    rw [left]
    exact ih

/-- A call enters a routine and leaves what its first instruction reads. -/
theorem machine_of_call {target : Address} (called : m.carriesOut = some (.call target)) :
    m.step.machine.awaiting = none ∧ m.step.machine.memory = m.memory ∧
      m.step.machine.counter = Word.ofAddress target ∧ m.step.machine.freshPress = none := by
  obtain ⟨after, ran, running, left⟩ := exists_of_carriesOut called rfl
  obtain ⟨stack, -, rfl⟩ := of_run_call ran
  rw [left]
  exact ⟨running, rfl, rfl, rfl⟩

/-- A routine whose first instruction is a return gives control back at once. -/
theorem returns_at_once {target : Address} (called : m.carriesOut = some (.call target))
    (fetch : m.memory.readWord (Word.ofAddress target) = .ok 0x00EE) :
    m.step.machine.stack.depth = m.stack.depth + 1 ∧
      m.step.machine.carriesOut = some .return ∧
      m.step.machine.step.machine.stack.depth = m.stack.depth := by
  have pushed := m.stack_step
  rw [called] at pushed
  have deeper := CallStack.depth_of_toList_concat pushed
  obtain ⟨running, memory, counter, -⟩ := machine_of_call called
  have returns : m.step.machine.carriesOut = some .return := by
    apply carriesOut_of_clear running _ (show Instruction.decode 0x00EE = some .return by decide)
    · rw [Instruction.obstacle, if_neg (deeper ▸ Nat.succ_ne_zero _)]
    · rw [memory, counter]
      exact fetch
  have popped := m.step.machine.stack_step
  rw [returns] at popped
  have higher := CallStack.depth_of_toList_concat popped
  exact ⟨deeper, returns, Nat.succ.inj (higher.symm.trans deeper)⟩

/-- Throughout every history the depth is the number of calls less the number of returns, and at
    most 16. A call puts the address behind it on top of what is on the stack, and all of that stays
    until the depth is first what it was before the call. What brings it back there is a return,
    which goes on behind the call. -/
theorem calls_and_returns_match (config : Config) (chance : Generator) (history : List Action) :
    let start := create config chance
    let m := start.after history
    let done := start.performed history
    m.stack.depth + done.count .return = done.countP Instruction.isCall ∧
    m.stack.depth ≤ 16 ∧
    ∀ target, m.carriesOut = some (.call target) →
      (m.counter + 2).toNat = m.counter.toNat + 2 ∧
      ∀ later : List Action,
        (∀ soFar, soFar <+: later → (m.step.machine.after soFar).stack.depth ≠ m.stack.depth) →
        let last := m.step.machine.after later
        m.stack.toList ++ [m.counter + 2] <+: last.stack.toList ∧
        ∀ a, (last.act a).stack.depth = m.stack.depth →
          a = .step ∧ last.carriesOut = some .return ∧
            (last.act a).counter = m.counter + 2 ∧
            (last.act a).stack.toList = m.stack.toList := by
  intro start m done
  refine ⟨depth_add_returns config chance history, m.stack.depth_le, ?_⟩
  intro target called
  refine ⟨toNat_counter_add_two called, ?_⟩
  intro later above last
  have stored : m.stack.toList ++ [m.counter + 2] <+: m.step.machine.stack.toList := by
    have left := m.stack_step
    rw [called] at left
    exact left ▸ List.prefix_refl _
  have kept : m.stack.toList ++ [m.counter + 2] <+: last.stack.toList := by
    apply isPrefix_after stored
    intro soFar initial
    rw [List.length_append, CallStack.length_toList]
    exact fun same => above soFar initial (Nat.succ.inj same)
  refine ⟨kept, ?_⟩
  intro a back
  rcases isPrefix_act kept a with stays | ⟨step, returned, taken⟩
  · have short := stays.length_le
    rw [List.length_append, CallStack.length_toList, CallStack.length_toList, back] at short
    exact absurd short (Nat.not_succ_le_self _)
  · obtain ⟨below, behind⟩ := List.append_inj' taken rfl
    exact ⟨step, returned, (List.singleton_inj.mp behind).symm, below.symm⟩

/-- A call of a routine that returns at once. -/
theorem calls_and_returns_match_called :
    let m := (create {} (.ofSeed 0)).after [.load [0x22, 0x04, 0x00, 0x00, 0x00, 0xEE]]
    m.carriesOut = some (.call 0x204) ∧ m.step.machine.stack.depth = 1 ∧
      m.step.machine.step.machine.stack.depth = 0 ∧
      m.step.machine.carriesOut = some .return ∧ m.step.machine.step.machine.counter = 0x202 := by
  intro m
  have memory : m.memory =
      Memory.initial.overwrite programOffset.toNat [0x22, 0x04, 0x00, 0x00, 0x00, 0xEE] := by
    rw [show m = _ from after_cons _ _ _, after_nil, act_load_create {} (.ofSeed 0) (by decide)]
  have first : m.memory.readWord 0x200 = .ok 0x2204 := by
    rw [memory]
    exact Memory.readWord_overwrite_at (k := 0) _ (by decide) rfl rfl rfl
  have second : m.memory.readWord (Word.ofAddress 0x204) = .ok 0x00EE := by
    rw [memory]
    exact Memory.readWord_overwrite_at (k := 4) _ (by decide) rfl rfl rfl
  have empty : m.stack.depth = 0 := rfl
  have counter : m.counter = 0x200 := rfl
  have called : m.carriesOut = some (.call 0x204) := carriesOut_of_clear rfl first (by decide) rfl
  obtain ⟨deeper, returns, back⟩ := returns_at_once called second
  obtain ⟨-, -, matched⟩ := calls_and_returns_match {} (.ofSeed 0)
    [.load [0x22, 0x04, 0x00, 0x00, 0x00, 0xEE]]
  obtain ⟨-, later⟩ := matched 0x204 called
  have above : ∀ soFar, soFar <+: [] →
      (m.step.machine.after soFar).stack.depth ≠ m.stack.depth := by
    intro soFar initial
    obtain rfl := List.prefix_nil.mp initial
    rw [after_nil, deeper]
    exact Nat.succ_ne_self _
  obtain ⟨-, brings⟩ := later [] above
  obtain ⟨-, -, behind, -⟩ := brings .step (by rw [after_nil, act_step, back])
  rw [after_nil, act_step] at behind
  rw [deeper, back, behind, empty, counter]
  exact ⟨called, rfl, rfl, returns, rfl⟩

end Machine

end Chip8
