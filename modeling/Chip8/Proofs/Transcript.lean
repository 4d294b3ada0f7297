import Chip8.CallStack
import Chip8.Command

/-!
# What a call stack answers

All that can be learned of a call stack is what it answers to calls. The transcript of
a list of calls is the list of their answers, also of those that fail: whoever makes
the calls may go on after a failure. A call stack has the transcripts of a list of at
most sixteen words, to which a push appends and from which a pop takes the last. So
nobody can learn what is left in the slots that are not in use, nor tell later that a
call has failed.

Results:

* `transcript_eq`: two states have the same transcripts if every call answers the same in
  related states and leaves related ones.
* `CallStack.agrees`: one call to a call stack and to the list of its addresses.
* `transcript_eq_words`: so it is for all calls, from any call stack.
* `transcript_as_words`: what a fresh call stack answers, and what cannot be learned.
-/

namespace Chip8

/-! ## Transcripts -/

section Transcript

variable {ι σ τ ε α : Type}

/-- The answers to calls, the first one first. A call that fails is answered by its failure, and the
    next one finds what it has left. -/
def transcript (perform : ι → EStateM ε σ α) (s : σ) : List ι → List (Except ε α)
  | [] => []
  | c :: calls =>
    match (perform c).run s with
    | .ok a next => .ok a :: transcript perform next calls
    | .error e left => .error e :: transcript perform left calls

/-- Two results with the same answer, which leave related states. -/
inductive Agree (R : σ → τ → Prop) : EStateM.Result ε σ α → EStateM.Result ε τ α → Prop
  | ok {s : σ} {t : τ} (a : α) (related : R s t) : Agree R (.ok a s) (.ok a t)
  | error {s : σ} {t : τ} (e : ε) (related : R s t) : Agree R (.error e s) (.error e t)

variable {perform : ι → EStateM ε σ α} {perform' : ι → EStateM ε τ α} {R : σ → τ → Prop}

/-- Two systems whose related states answer every call alike have the same transcripts. -/
theorem transcript_eq (agree : ∀ c s t, R s t → Agree R ((perform c).run s) ((perform' c).run t))
    {s : σ} {t : τ} (related : R s t) (calls : List ι) :
    transcript perform s calls = transcript perform' t calls := by
  induction calls generalizing s t with
  | nil => rfl
  | cons c calls ih =>
    have answered := agree c s t related
    rw [transcript, transcript]
    generalize (perform c).run s = result, (perform' c).run t = result' at answered
    cases answered with
    | ok a related => exact congrArg (Except.ok a :: ·) (ih related)
    | error e related => exact congrArg (Except.error e :: ·) (ih related)

end Transcript

/-! ## Calls to a stack -/

/-- A call to a stack. -/
inductive StackCall where
  | push (address : UInt16)
  | pop
  /-- Asks how many addresses are stored. -/
  | depth
  /-- Asks whether none is stored. -/
  | isEmpty
deriving DecidableEq, Repr

/-- What a call is answered, unless it fails. -/
inductive StackAnswer where
  | done
  | popped (address : UInt16)
  | number (n : Nat)
  | truth (b : Bool)
deriving DecidableEq, Repr

/-- Carries out a call. -/
def CallStack.perform : StackCall → EStateM Fault CallStack StackAnswer
  | .push address => do
    push address
    return .done
  | .pop => return .popped (← pop)
  | .depth => return .number (← get).depth
  | .isEmpty => return .truth (← get).isEmpty

/-- A list of at most sixteen words. -/
@[ext] structure Words where
  list : List UInt16
  length_le : list.length ≤ 16

namespace Words

variable {l : Words} {address : UInt16}

/-- The list without words. -/
def empty : Words := ⟨[], Nat.zero_le _⟩

/-- Appends a word, unless there are sixteen. -/
def push (address : UInt16) : EStateM Fault Words Unit := do
  let l ← get
  if room : l.list.length < 16 then
    set (Words.mk (l.list ++ [address]) (by rw [List.length_append]; exact room))
  else throw .stackOverflow

/-- Removes the last word and tells it, unless there is none. -/
def pop : EStateM Fault Words UInt16 := do
  let l ← get
  match l.list.getLast? with
  | some address =>
    have := l.length_le
    set (Words.mk l.list.dropLast (by rw [List.length_dropLast]; omega))
    return address
  | none => throw .stackUnderflow

/-- Carries out a call. -/
def perform : StackCall → EStateM Fault Words StackAnswer
  | .push address => do
    push address
    return .done
  | .pop => return .popped (← pop)
  | .depth => return .number (← get).list.length
  | .isEmpty => return .truth (← get).list.isEmpty

theorem run_push_of_lt (room : l.list.length < 16) (address : UInt16) :
    ∃ next, (push address).run l = .ok () next ∧ next.list = l.list ++ [address] := by
  simp only [push, EStateM.run_bind, EStateM.run_get, dif_pos room]
  exact ⟨_, rfl, rfl⟩

theorem run_push_of_full (full : l.list.length = 16) (address : UInt16) :
    (push address).run l = .error .stackOverflow l := by
  have full : ¬ l.list.length < 16 := by omega
  simp only [push, EStateM.run_bind, EStateM.run_get, dif_neg full]
  rfl

theorem run_pop_of_concat {rest : List UInt16} (last : l.list = rest ++ [address]) :
    ∃ next, pop.run l = .ok address next ∧ next.list = rest := by
  obtain ⟨list, length_le⟩ := l
  subst last
  simp only [pop, EStateM.run_bind, EStateM.run_get, List.getLast?_concat, List.dropLast_concat]
  exact ⟨_, rfl, rfl⟩

theorem run_pop_of_nil (empty : l.list = []) : pop.run l = .error .stackUnderflow l := by
  simp only [pop, EStateM.run_bind, EStateM.run_get, empty]
  rfl

end Words

namespace CallStack

variable {s t : CallStack} {l : Words}

/-- The words that are in use. -/
def words (s : CallStack) : Words := ⟨s.toList, s.length_toList ▸ s.depth_le⟩

/-- The words that are in use are those of the list. -/
def Holds (s : CallStack) (l : Words) : Prop := s.toList = l.list

/-- Each call is answered as by the list, and keeps the list in step. -/
theorem agrees (c : StackCall) (holds : s.Holds l) :
    Agree Holds ((perform c).run s) ((Words.perform c).run l) := by
  have holds : s.toList = l.list := holds
  have depth : s.depth = l.list.length := holds ▸ s.length_toList.symm
  cases c with
  | push address =>
    rw [perform, Words.perform, EStateM.run_bind, EStateM.run_bind]
    rcases Nat.lt_or_eq_of_le s.depth_le with room | full
    · obtain ⟨next, ran, pushed⟩ := run_push_of_lt room address
      obtain ⟨next', ran', pushed'⟩ := Words.run_push_of_lt (depth ▸ room) address
      have holds' : next.toList = next'.list := by rw [pushed, pushed', holds]
      rw [ran, ran']
      exact Agree.ok StackAnswer.done holds'
    · rw [run_push_of_full full, Words.run_push_of_full (depth ▸ full)]
      exact Agree.error Fault.stackOverflow holds
  | pop =>
    rw [perform, Words.perform, EStateM.run_bind, EStateM.run_bind]
    rcases Nat.eq_zero_or_pos s.depth with empty | filled
    · have empty' : l.list = [] := List.length_eq_zero_iff.mp (depth ▸ empty)
      rw [run_pop_of_empty empty, Words.run_pop_of_nil empty']
      exact Agree.error Fault.stackUnderflow holds
    · obtain ⟨address, next, ran, popped⟩ := run_pop_of_pos filled
      obtain ⟨next', ran', rest⟩ := Words.run_pop_of_concat (holds ▸ popped)
      rw [ran, ran']
      exact Agree.ok (StackAnswer.popped address) rest.symm
  | depth =>
    rw [perform, Words.perform, run_get_bind, run_get_bind, depth]
    exact Agree.ok (StackAnswer.number l.list.length) holds
  | isEmpty =>
    have same : s.isEmpty = l.list.isEmpty := by
      rw [Bool.eq_iff_iff, isEmpty_iff, holds, List.isEmpty_iff]
    rw [perform, Words.perform, run_get_bind, run_get_bind, same]
    exact Agree.ok (StackAnswer.truth l.list.isEmpty) holds

theorem transcript_eq_words (s : CallStack) (calls : List StackCall) :
    transcript perform s calls = transcript Words.perform s.words calls :=
  transcript_eq (R := Holds) (fun c _ _ => agrees c) (show s.Holds s.words from rfl) calls

/-! ## What cannot be learned -/

theorem eq_of_run_perform_error {c : StackCall} {fault : Fault} {left : CallStack}
    (fails : (perform c).run s = .error fault left) : left = s := by
  cases c with
  | push address =>
    rw [perform, EStateM.run_bind] at fails
    rcases Nat.lt_or_eq_of_le s.depth_le with room | full
    · obtain ⟨next, ran, -⟩ := run_push_of_lt room address
      rw [ran] at fails
      cases fails
    · rw [run_push_of_full full] at fails
      cases fails
      rfl
  | pop =>
    rw [perform, EStateM.run_bind] at fails
    rcases Nat.eq_zero_or_pos s.depth with empty | filled
    · rw [run_pop_of_empty empty] at fails
      cases fails
      rfl
    · obtain ⟨address, next, ran, -⟩ := run_pop_of_pos filled
      rw [ran] at fails
      cases fails
  | depth => cases fails
  | isEmpty => cases fails

/-- The slots that are in use determine the stored addresses. -/
theorem words_eq_of_slots (depth : s.depth = t.depth)
    (used : ∀ i < s.depth, s.slots[i]? = t.slots[i]?) : s.words = t.words := by
  apply Words.ext
  show s.slots.toList.take s.depth = t.slots.toList.take t.depth
  apply List.ext_getElem?
  intro i
  rw [← depth, List.getElem?_take, List.getElem?_take]
  by_cases among : i < s.depth
  · rw [if_pos among, if_pos among, Vector.getElem?_toList, Vector.getElem?_toList, used i among]
  · rw [if_neg among, if_neg among]

/-- A fresh call stack answers all calls as a list of at most sixteen words does that is empty at
    first. No call that fails, and nothing in a slot that is not in use, makes a difference to any
    later answer. A push that fails reports that there is room for sixteen. -/
theorem transcript_as_words (calls : List StackCall) :
    transcript perform .empty calls = transcript Words.perform .empty calls ∧
    (∀ (s : CallStack) (c : StackCall) (fault : Fault) (left : CallStack),
      (perform c).run s = .error fault left →
        transcript perform left calls = transcript perform s calls) ∧
    (∀ s t : CallStack, s.depth = t.depth → (∀ i < s.depth, s.slots[i]? = t.slots[i]?) →
      transcript perform s calls = transcript perform t calls) ∧
    Fault.stackOverflow.message = "stack overflow: more than 16 nested subroutine calls" := by
  refine ⟨transcript_eq_words .empty calls, ?_, ?_, rfl⟩
  · intro s c fault left fails
    rw [eq_of_run_perform_error fails]
  · intro s t depth used
    rw [transcript_eq_words, transcript_eq_words, words_eq_of_slots depth used]

/-- A stack from which everything was popped, which still has a word in its first slot. -/
def emptied : CallStack := ⟨empty.slots.set 0 0x202, 0, Nat.zero_le _⟩

/-- A pop that fails, a word that replaces the old one, and two questions. -/
theorem transcript_as_words_of_emptied :
    let calls := [.push 0x34A, .pop, .pop, .depth, .isEmpty]
    (∀ i < emptied.depth, emptied.slots[i]? = empty.slots[i]?) ∧
      transcript perform emptied calls = transcript perform empty calls ∧
      (∃ left, (perform .pop).run emptied = .error .stackUnderflow left ∧
        transcript perform left calls = transcript perform emptied calls) ∧
      transcript perform empty calls = [.ok .done, .ok (.popped 0x34A), .error .stackUnderflow,
        .ok (.number 0), .ok (.truth true)] := by
  intro calls
  have used : ∀ i < emptied.depth, emptied.slots[i]? = empty.slots[i]? := nofun
  have fails : (perform .pop).run emptied = .error .stackUnderflow emptied := rfl
  obtain ⟨same, failed, unused, -⟩ := transcript_as_words calls
  refine ⟨used, unused emptied empty rfl used, ⟨emptied, fails, failed _ _ _ _ fails⟩, ?_⟩
  rw [same]
  rfl

end CallStack

end Chip8
