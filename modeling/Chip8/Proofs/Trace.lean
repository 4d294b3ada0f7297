import Chip8.Machine.History
import Chip8.Proofs.Course
import Mathlib.Data.List.Induction

/-!
# The steps of a history

What holds throughout a history is often said of the steps that were made so far:
how many of them returned, which of them drew, when they last set a timer. The
trace of a history is the list of its steps, each given by the machine that made it.

Results:

* `history_induction`: what holds of a fresh machine, and is kept by every step and
  by everything else that can be done to a machine, holds throughout all histories.
* `act_of_ne_step`: all that is done to a machine between its steps leaves the
  parts that only programs change.
* `performed_cons`: what is carried out, from the first step of a history on.
* `exists_of_filter_trace`: a step of a history comes after a part of that history.
-/

namespace Chip8.Machine

/-- The machines that made the steps of a history, each as it was before its step. -/
def trace (m : Machine) : List Action → List Machine
  | [] => []
  | a :: history => (if a = .step then [m] else []) ++ (m.act a).trace history

/-- The instructions that the steps of a history carried out. -/
def performed (m : Machine) (history : List Action) : List Instruction :=
  (m.trace history).filterMap carriesOut

/-- The machines that made the ticking steps of a history, each as it was before its step. -/
def ticking (m : Machine) (history : List Action) : List Machine :=
  (m.trace history).filter (·.step.ticked)

variable {m c : Machine} {history : List Action} {a : Action}

theorem trace_nil (m : Machine) : m.trace [] = [] := rfl

theorem trace_load_cons (m : Machine) (program : List UInt8) (history : List Action) :
    m.trace (.load program :: history) = (m.act (.load program)).trace history := rfl

theorem trace_step_cons (m : Machine) (history : List Action) :
    m.trace (.step :: history) = m :: m.step.machine.trace history := rfl

theorem trace_append (m : Machine) (history later : List Action) :
    m.trace (history ++ later) = m.trace history ++ (m.after history).trace later := by
  induction history generalizing m with
  | nil => rfl
  | cons a history ih =>
    rw [List.cons_append, trace, trace, ih, List.append_assoc]
    rfl

theorem trace_step (m : Machine) (history : List Action) :
    m.trace (history ++ [.step]) = m.trace history ++ [m.after history] := trace_append m history _

theorem trace_of_ne_step (h : a ≠ .step) : m.trace (history ++ [a]) = m.trace history := by
  rw [trace_append, trace, if_neg h]
  exact List.append_nil _

theorem after_concat (m : Machine) (history : List Action) (a : Action) :
    m.after (history ++ [a]) = (m.after history).act a := after_append m history [a]

/-- What holds of the steps that a fresh machine has made, and of what they have led to, if one more
    step and any other action keep it. -/
theorem history_induction {start : Machine} {P : List Machine → Machine → Prop}
    (fresh : P [] start)
    (step : ∀ past m, P past m → P (past ++ [m]) m.step.machine)
    (other : ∀ past m a, a ≠ .step → P past m → P past (m.act a)) (history : List Action) :
    P (start.trace history) (start.after history) := by
  induction history using List.reverseRecOn with
  | nil => exact fresh
  | append_singleton history a ih =>
    rw [after_concat]
    by_cases h : a = .step
    · subst h
      rw [trace_step]
      exact step _ _ ih
    · rw [trace_of_ne_step h]
      exact other _ _ _ h ih

/-- From outside, only memory, the keypad and the redraw mark can be changed. -/
theorem act_of_ne_step (h : a ≠ .step) (m : Machine) :
    ∃ memory keypad redraw,
      m.act a = { m with memory := memory, keypad := keypad, redraw := redraw } := by
  cases a with
  | load program =>
    rw [act_load]
    split <;> exact ⟨_, _, _, rfl⟩
  | send event => exact ⟨_, _, _, rfl⟩
  | step => exact absurd rfl h
  | takeRedraw => exact ⟨_, _, _, rfl⟩

theorem performed_cons (m : Machine) (a : Action) (history : List Action) :
    m.performed (a :: history) =
      (if a = .step then m.carriesOut.toList else []) ++ (m.act a).performed history := by
  rw [performed, trace, List.filterMap_append]
  split
  · cases done : m.carriesOut <;> simp [done, performed]
  · rfl

theorem config_act (m : Machine) (a : Action) : (m.act a).config = m.config := by
  by_cases h : a = .step
  · subst h
    exact m.config_step
  · obtain ⟨memory, keypad, redraw, left⟩ := act_of_ne_step h m
    rw [left]

theorem config_after (m : Machine) (history : List Action) :
    (m.after history).config = m.config := by
  induction history generalizing m with
  | nil => rfl
  | cons a history ih => rw [after_cons, ih, config_act]

/-! ## The steps of one kind -/

section Kind

variable {kind : Machine → Bool} {j : Nat}

theorem filter_trace_concat (m : Machine) (history : List Action) (a : Action) :
    (m.trace (history ++ [a])).filter kind =
      (m.trace history).filter kind ++
        if a = .step ∧ kind (m.after history) then [m.after history] else [] := by
  by_cases h : a = .step
  · subst h
    rw [trace_step, List.filter_append, List.filter_cons, List.filter_nil]
    simp only [true_and]
  · rw [trace_of_ne_step h, if_neg (fun both => h both.1), List.append_nil]

/-- The `j`-th step of a kind, counted from zero, is made after a part of the history that has the
    steps of the kind before it. -/
theorem exists_of_filter_trace (h : ((m.trace history).filter kind)[j]? = some c) :
    ∃ earlier, m.after earlier = c ∧
      (m.trace earlier).filter kind = ((m.trace history).filter kind).take j := by
  induction history using List.reverseRecOn with
  | nil => cases h
  | append_singleton history a ih =>
    rw [filter_trace_concat] at h ⊢
    by_cases before : j < ((m.trace history).filter kind).length
    · rw [List.getElem?_append_left before] at h
      rw [List.take_append_of_le_length (Nat.le_of_lt before)]
      exact ih h
    · rw [List.getElem?_append_right (Nat.le_of_not_lt before)] at h
      split at h
      · rw [List.getElem?_singleton] at h
        obtain ⟨last, rfl⟩ := Option.ite_some_none_eq_some.mp h
        refine ⟨history, rfl, ?_⟩
        rw [List.take_append_of_le_length (by omega), List.take_of_length_le (by omega)]
      · cases h

end Kind

end Chip8.Machine
