import Chip8.Proofs.KeyWait

/-!
# Polls

A keypad that is polled applies all events that are pending, and reports the first
fresh press among them. A `Reporter` is a keypad that keeps this report until it is
polled again or someone takes the report; it goes through the events one by one, and
changes the keys and the report in place.

Results:

* `drain_eq_some_iff`, `drain_eq_none_iff`: which press is reported, and when none is.
* `Reporter.poll_eq`: a report does not depend on what was reported before.
* `Reporter.polls_compose`: two polls, of which the second finds the events that were sent
  after the first, do what one poll does that finds all events.
-/

namespace Chip8

/-! ## What a drain reports -/

namespace HeldKeys

variable {held : HeldKeys} {es : List KeyEvent} {n : Nat} {key : Nibble}

theorem exists_firstFreshPress (fresh : held.FreshPressAt es n key) :
    ∃ n key, held.FirstFreshPress es n key := by
  induction n using Nat.strong_induction_on generalizing key with
  | _ n ih =>
    by_cases earlier : ∃ n' < n, ∃ key', held.FreshPressAt es n' key'
    · obtain ⟨n', lt, key', fresh'⟩ := earlier
      exact ih n' lt fresh'
    · exact ⟨n, key, fresh, fun n' lt key' fresh' => earlier ⟨n', lt, key', fresh'⟩⟩

theorem drain_eq_none_iff :
    (held.drain es).2 = none ↔ ∀ n key, ¬ held.FreshPressAt es n key := by
  constructor
  · intro quiet n key fresh
    obtain ⟨n', key', first⟩ := exists_firstFreshPress fresh
    rw [drain_of_firstFreshPress first] at quiet
    cases quiet
  · exact drain_of_no_freshPress

theorem drain_eq_some_iff :
    (held.drain es).2 = some key ↔ ∃ n, held.FirstFreshPress es n key := by
  constructor
  · intro reported
    have loud : ¬ ∀ n key, ¬ held.FreshPressAt es n key := by
      rw [← drain_eq_none_iff, reported]
      exact Option.some_ne_none key
    simp only [not_forall, not_not] at loud
    obtain ⟨n, key', fresh⟩ := loud
    obtain ⟨n', key'', first⟩ := exists_firstFreshPress fresh
    rw [drain_of_firstFreshPress first] at reported
    cases reported
    exact ⟨n', first⟩
  · rintro ⟨n, first⟩
    exact drain_of_firstFreshPress first

end HeldKeys

/-! ## A keypad that keeps its report -/

/-- A keypad that keeps the first fresh press of its last poll, unless someone has taken it. -/
structure Reporter extends Keypad where
  fresh : Option Nibble
deriving DecidableEq

namespace Reporter

/-- Applies an event. A press that finds its key up is kept unless another is. -/
def apply (r : Reporter) : KeyEvent → Reporter
  | .press key =>
    { r with
      held := r.held.apply (.press key)
      fresh := if !r.held.isDown key && r.fresh.isNone then some key else r.fresh }
  | .release key => { r with held := r.held.apply (.release key) }
  | .releaseAll => { r with held := .allUp }

/-- Forgets the report, and applies all pending events in order. -/
def poll (r : Reporter) : Reporter :=
  r.pending.foldl apply { r with pending := [], fresh := none }

theorem apply_eq (r : Reporter) (e : KeyEvent) :
    r.apply e =
      { r with held := r.held.apply e, fresh := r.fresh.or (r.held.freshPress e) } := by
  cases e with
  | press key =>
    rw [apply, HeldKeys.freshPress]
    cases r.held.isDown key <;> cases r.fresh <;> rfl
  | release key => rw [apply, HeldKeys.freshPress, Option.or_none]
  | releaseAll => rw [apply, HeldKeys.freshPress, Option.or_none, HeldKeys.apply]

theorem foldl_apply (r : Reporter) (es : List KeyEvent) :
    es.foldl apply r =
      { r with held := (r.held.drain es).1, fresh := r.fresh.or (r.held.drain es).2 } := by
  induction es generalizing r with
  | nil => rw [List.foldl_nil, HeldKeys.drain, Option.or_none]
  | cons e es ih => rw [List.foldl_cons, ih, apply_eq, HeldKeys.drain, Option.or_assoc]

/-- A poll of a keypad, whatever it keeps from the last one. -/
theorem poll_eq (r : Reporter) : r.poll = ⟨r.toKeypad.poll.1, r.toKeypad.poll.2⟩ := by
  rw [poll, foldl_apply, Option.none_or, Keypad.poll]

/-- One poll leaves the keys that two polls leave of which the first finds some of the events and
    the second the others, and it reports what the first reports, or else what the second reports. A
    press is reported iff it is the first that finds its key up, whatever happens to the key later.
    Nothing is reported without events, whatever is kept from the poll before. -/
theorem polls_compose (held : HeldKeys) (kept kept' : Option Nibble)
    (first second : List KeyEvent) :
    let once := poll ⟨⟨held, first ++ second⟩, kept⟩
    let before := poll ⟨⟨held, first⟩, kept⟩
    let behind := poll ⟨⟨before.held, second⟩, kept'⟩
    once.held = behind.held ∧
    once.fresh = before.fresh.or behind.fresh ∧
    (∀ key, before.fresh = some key ↔ ∃ n, held.FirstFreshPress first n key) ∧
    (before.fresh = none ↔ ∀ n key, ¬ held.FreshPressAt first n key) ∧
    (poll ⟨⟨held, []⟩, kept⟩).fresh = none ∧
    (⟨held, first⟩ : Keypad).poll = (before.toKeypad, before.fresh) := by
  intro once before behind
  have polled : before = ⟨⟨(held.drain first).1, []⟩, (held.drain first).2⟩ := poll_eq _
  have polled' : behind =
      ⟨⟨(before.held.drain second).1, []⟩, (before.held.drain second).2⟩ := poll_eq _
  have composed : once = ⟨behind.toKeypad, before.fresh.or behind.fresh⟩ := by
    rw [polled', polled]
    show poll _ = _
    rw [poll_eq, Keypad.poll, HeldKeys.drain_append]
  refine ⟨?_, ?_, ?_, ?_, ?_, ?_⟩
  · rw [composed]
  · rw [composed]
  · intro key
    rw [polled]
    exact HeldKeys.drain_eq_some_iff
  · rw [polled]
    exact HeldKeys.drain_eq_none_iff
  · rw [poll_eq]
    rfl
  · rw [polled]
    rfl

/-- A key that is pressed and released in one poll is reported, and is up when it is pressed again.
    -/
example :
    let r := poll ⟨⟨.allUp, [.press 3, .release 3, .press 7]⟩, none⟩
    r.fresh = some 3 ∧ (poll ⟨⟨r.held, [.press 7, .press 3]⟩, r.fresh⟩).fresh = some 3 := by decide

end Reporter

end Chip8
