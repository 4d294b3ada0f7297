import Chip8.Machine.History
import Chip8.Proofs.Course
import Chip8.Session
import Mathlib.Data.List.Induction

/-!
# Those who hold the keypad

Any number of holders send key events to one machine, while it steps, is loaded, and
is looked at. Nothing that happens in between can lose an event, apply it twice, or
let it overtake another: the keys after a step are those that all events sent so far
leave, in the order in which they were sent. An event that is sent while a step
drains the keypad counts as sent before the step if the drain still finds it.

Results:

* `call_eq`: a call is refused for want of a key before anything is sent.
* `settled_act`: what one move does to the keys, once all pending events are applied.
* `settled_after`: so it is after any number of moves.
* `isDown_foldl_iff`: a key is down iff it was pressed and not released since.
* `keys_follow_events`: the keys after a step, the calls that are refused, and the
  order in which the events of each holder apply.
-/

namespace Chip8

/-! ## Calls -/

/-- A call by which someone sends a key event. -/
inductive Call where
  | press (key : Nat)
  | release (key : Nat)
  | releaseAll
deriving DecidableEq, Repr

namespace Call

variable {c : Call} {key : Nat}

/-- The number by which a call names a key. -/
def key? : Call → Option Nat
  | .press key => some key
  | .release key => some key
  | .releaseAll => none

/-- The event that a call sends, unless it names no key. -/
def event : Call → Except KeyError KeyEvent
  | .press key => (keyOf key).map .press
  | .release key => (keyOf key).map .release
  | .releaseAll => .ok .releaseAll

theorem event_of_invalid (named : key ∈ c.key?) (invalid : keyCount ≤ key) :
    c.event = .error (.invalidKey key) := by
  have refused : keyOf key = .error (.invalidKey key) := dif_neg (Nat.not_lt.mpr invalid)
  cases c with
  | press | release =>
    cases named
    rw [event, refused]
    rfl
  | releaseAll => cases named

theorem exists_event (valid : ∀ key ∈ c.key?, key < keyCount) : ∃ e, c.event = .ok e := by
  cases c with
  | press key | release key =>
    rw [event, keyOf, dif_pos (valid key rfl)]
    exact ⟨_, rfl⟩
  | releaseAll => exact ⟨_, rfl⟩

end Call

/-- Something that happens to a machine, or is done by a holder of its keypad. -/
inductive Move (ι : Type) where
  | call (holder : ι) (c : Call)
  | load (program : List UInt8)
  | step
  | takeRedraw
  | readDisplay
  | drop

namespace Session

variable {s : Session} {c : Call} {key : Nat}

/-- Carries out a call. -/
def call (s : Session) : Call → Except KeyError Session
  | .press key => s.press key
  | .release key => s.release key
  | .releaseAll => s.releaseAll

/-- The key is looked at before anything is sent. -/
theorem call_eq (s : Session) (c : Call) : s.call c = c.event.bind s.send := by
  cases c with
  | press key | release key =>
    simp only [call, press, release, Call.event]
    cases keyOf key <;> rfl
  | releaseAll => rfl

theorem call_of_dropped (dropped : s.machine = none) (valid : ∀ key ∈ c.key?, key < keyCount) :
    s.call c = .error .disconnected := by
  obtain ⟨e, sends⟩ := Call.exists_event valid
  rw [call_eq, sends]
  show s.send e = _
  rw [send, dropped]

/-- The session after a move. A call that is refused leaves it as it was. -/
def act {ι : Type} (s : Session) : Move ι → Session
  | .call _ c =>
    match s.call c with
    | .ok sent => sent
    | .error _ => s
  | .load program => ⟨s.machine.map (·.act (.load program))⟩
  | .step => ⟨s.machine.map (·.act .step)⟩
  | .takeRedraw => ⟨s.machine.map (·.act .takeRedraw)⟩
  | .readDisplay => s
  | .drop => s.drop

/-- The session after all moves, the first one first. -/
def after {ι : Type} (s : Session) (moves : List (Move ι)) : Session := moves.foldl act s

theorem after_concat {ι : Type} (s : Session) (moves : List (Move ι)) (a : Move ι) :
    s.after (moves ++ [a]) = (s.after moves).act a := by
  rw [after, List.foldl_append]
  rfl

/-- The keypad of the machine, until the machine is dropped. -/
def keypad? (s : Session) : Option Keypad := s.machine.map Machine.keypad

end Session

/-! ## What is sent -/

namespace Move

variable {ι : Type}

/-- The event that a move sends, with its holder. -/
def sent? : Move ι → Option (ι × KeyEvent)
  | .call holder c => c.event.toOption.map fun e => (holder, e)
  | _ => none

/-- The events that are sent in a list of moves, each with its holder, in the order in which they
    are sent. -/
def sent (moves : List (Move ι)) : List (ι × KeyEvent) := moves.filterMap sent?

/-- The events that are sent, whoever sends them. -/
def events (moves : List (Move ι)) : List KeyEvent := (sent moves).map Prod.snd

/-- The call of a holder, if a move is one. -/
def callOf? [DecidableEq ι] (holder : ι) : Move ι → Option Call
  | .call h c => if h = holder then some c else none
  | _ => none

/-- The calls of a holder, in the order of their own. -/
def callsOf [DecidableEq ι] (holder : ι) (moves : List (Move ι)) : List Call :=
  moves.filterMap (callOf? holder)

theorem events_cons (a : Move ι) (moves : List (Move ι)) :
    events (a :: moves) = (a.sent?.map Prod.snd).toList ++ events moves := by
  rw [events, sent, List.filterMap_cons]
  cases a.sent? <;> rfl

/-- The events of a holder are sent in the order of the holder's calls. -/
theorem sent_filter [DecidableEq ι] (holder : ι) (moves : List (Move ι)) :
    ((sent moves).filter (·.1 = holder)).map Prod.snd =
      (callsOf holder moves).filterMap (·.event.toOption) := by
  induction moves with
  | nil => rfl
  | cons a moves ih =>
    rw [sent, callsOf] at ih ⊢
    cases a with
    | call h c =>
      by_cases own : h = holder
      · cases sends : c.event <;> simp [sent?, callOf?, own, sends, Except.toOption, ih]
      · cases sends : c.event <;> simp [sent?, callOf?, own, sends, Except.toOption, ih]
    | _ => exact ih

end Move

/-! ## The keys that are down -/

namespace HeldKeys

variable {key : Nibble} {events : List KeyEvent} {e : KeyEvent}

/-- Whether a key was pressed, and nothing that came later released it. -/
def LeftDown (key : Nibble) (events : List KeyEvent) : Prop :=
  ∃ earlier later, events = earlier ++ .press key :: later ∧
    .release key ∉ later ∧ .releaseAll ∉ later

theorem leftDown_concat : LeftDown key (events ++ [e]) ↔
    e = .press key ∨ e ≠ .release key ∧ e ≠ .releaseAll ∧ LeftDown key events := by
  constructor
  · rintro ⟨earlier, later, split, released, cleared⟩
    rcases List.eq_nil_or_concat later with rfl | ⟨later, last, rfl⟩
    · exact .inl (List.singleton_inj.mp (List.append_inj' split rfl).2)
    · rw [List.concat_eq_append] at split released cleared
      rw [← List.cons_append, ← List.append_assoc] at split
      obtain ⟨rfl, lasts⟩ := List.append_inj' split rfl
      obtain rfl := List.singleton_inj.mp lasts
      rw [List.mem_append, List.mem_singleton, not_or] at released cleared
      exact .inr ⟨Ne.symm released.2, Ne.symm cleared.2, earlier, later, rfl, released.1, cleared.1⟩
  · rintro (rfl | ⟨released, cleared, earlier, later, rfl, released', cleared'⟩)
    · exact ⟨events, [], rfl, nofun, nofun⟩
    · refine ⟨earlier, later ++ [e], ?_, ?_, ?_⟩
      · rw [List.append_assoc, List.cons_append]
      · rw [List.mem_append, List.mem_singleton, not_or]
        exact ⟨released', Ne.symm released⟩
      · rw [List.mem_append, List.mem_singleton, not_or]
        exact ⟨cleared', Ne.symm cleared⟩

/-- Only the events about a key, or about all, decide whether it is down, and of these the last. -/
theorem isDown_foldl_iff (events : List KeyEvent) (key : Nibble) :
    (events.foldl apply allUp).isDown key = true ↔ LeftDown key events := by
  induction events using List.reverseRecOn with
  | nil =>
    have up : allUp.isDown key = false := Vector.getElem_replicate _
    rw [List.foldl_nil, up]
    refine ⟨nofun, ?_⟩
    rintro ⟨earlier, later, split, -⟩
    exact absurd split.symm (by simp)
  | append_singleton events e ih =>
    rw [List.foldl_append, List.foldl_cons, List.foldl_nil, isDown_apply, leftDown_concat, ← ih]
    cases e <;> simp

end HeldKeys

/-! ## The keys that are settled -/

/-- The keys once all pending events are applied. -/
def Keypad.settled (k : Keypad) : HeldKeys := k.pending.foldl HeldKeys.apply k.held

theorem Keypad.settled_send (k : Keypad) (e : KeyEvent) :
    (k.send e).settled = k.settled.apply e := by
  rw [settled, send, List.foldl_append]
  rfl

namespace Session

variable {ι : Type} {s : Session} {moves : List (Move ι)}

/-- A move applies to the settled keys what it sends. Other moves leave them alone, also a step,
    which only applies what was pending. -/
theorem settled_act (m : Machine) {a : Move ι} (kept : a ≠ .drop) :
    ∃ m', (Session.mk (some m)).act a = ⟨some m'⟩ ∧ m'.keypad.settled =
      (a.sent?.map Prod.snd).toList.foldl HeldKeys.apply m.keypad.settled := by
  cases a with
  | call holder c =>
    rw [act, call_eq, Move.sent?]
    cases c.event with
    | error refusal => exact ⟨m, rfl, rfl⟩
    | ok e => exact ⟨m.send e, rfl, Keypad.settled_send _ _⟩
  | load program =>
    refine ⟨m.act (.load program), rfl, ?_⟩
    rw [Machine.act_load]
    split <;> rfl
  | step =>
    refine ⟨m.step.machine, rfl, ?_⟩
    rw [m.keypad_step]
    rfl
  | takeRedraw => exact ⟨m.takeRedraw.2, rfl, rfl⟩
  | readDisplay => exact ⟨m, rfl, rfl⟩
  | drop => exact absurd rfl kept

/-- The settled keys do not depend on when the machine steps. -/
theorem settled_after (m : Machine) (kept : .drop ∉ moves) :
    ∃ m', (Session.mk (some m)).after moves = ⟨some m'⟩ ∧
      m'.keypad.settled = (Move.events moves).foldl HeldKeys.apply m.keypad.settled := by
  induction moves generalizing m with
  | nil => exact ⟨m, rfl, rfl⟩
  | cons a moves ih =>
    rw [List.mem_cons, not_or] at kept
    obtain ⟨next, acted, settled⟩ := settled_act m (Ne.symm kept.1)
    obtain ⟨last, reached, settled'⟩ := ih next kept.2
    refine ⟨last, ?_, ?_⟩
    · rw [after, List.foldl_cons, acted]
      exact reached
    · rw [settled', settled, Move.events_cons, List.foldl_append]

theorem keypad?_after_step (m : Machine) (kept : .drop ∉ moves) :
    ((Session.mk (some m)).after (moves ++ [.step])).keypad? =
      some ⟨(Move.events moves).foldl HeldKeys.apply m.keypad.settled, []⟩ := by
  obtain ⟨last, reached, settled⟩ := settled_after m kept
  rw [after_concat, reached]
  show some last.step.machine.keypad = _
  rw [last.keypad_step, ← settled]
  rfl

/-! ## A dropped machine -/

theorem act_of_dropped (a : Move ι) : (Session.mk none).act a = ⟨none⟩ := by
  cases a with
  | call holder c =>
    rw [act, call_eq]
    cases c.event <;> rfl
  | _ => rfl

theorem after_of_dropped (moves : List (Move ι)) : (Session.mk none).after moves = ⟨none⟩ := by
  induction moves with
  | nil => rfl
  | cons a moves ih => rw [after, List.foldl_cons, act_of_dropped, ← after, ih]

theorem machine_after_of_drop (s : Session) (dropped : .drop ∈ moves) :
    (s.after moves).machine = none := by
  obtain ⟨before, later, rfl⟩ := List.append_of_mem dropped
  rw [after, List.foldl_append, List.foldl_cons]
  exact congrArg Session.machine (after_of_dropped later)

/-! ## The moves of all holders -/

/-- Whatever the holders of the keypad of a fresh machine do, and whatever is done to the machine in
    between: the keys after a step are those that the events leave that were sent before it, however
    these were spread over earlier steps, and none of them is pending; so a key is down iff it was
    pressed and not released since. The events of each holder are sent in the order of the holder's
    calls. A call is refused if it names no key, which leaves
    everything as it was, and any other call is refused iff the machine was dropped. -/
theorem keys_follow_events [DecidableEq ι] (config : Config) (chance : Generator)
    (moves : List (Move ι)) :
    let s := (start config chance).after moves
    let stepped := (start config chance).after (moves ++ [.step])
    (.drop ∉ moves →
      stepped.keypad? = some ⟨(Move.events moves).foldl HeldKeys.apply .allUp, []⟩ ∧
      (∀ k ∈ stepped.keypad?, ∀ key, k.held.isDown key = true ↔
        ∃ earlier later, Move.events moves = earlier ++ .press key :: later ∧
          .release key ∉ later ∧ .releaseAll ∉ later) ∧
      (∀ (config' : Config) (chance' : Generator) (moves' : List (Move ι)), .drop ∉ moves' →
        Move.events moves' = Move.events moves →
        ((start config' chance').after (moves' ++ [.step])).keypad? = stepped.keypad?) ∧
      ∀ c : Call, (∀ key ∈ c.key?, key < keyCount) → ∃ sent, s.call c = .ok sent) ∧
    (∀ holder, ((Move.sent moves).filter (·.1 = holder)).map Prod.snd =
      (Move.callsOf holder moves).filterMap (·.event.toOption)) ∧
    (∀ (c : Call) (key : Nat), key ∈ c.key? → keyCount ≤ key →
      s.call c = .error (.invalidKey key) ∧ ∀ holder : ι, s.act (.call holder c) = s) ∧
    (.drop ∈ moves → ∀ c : Call, (∀ key ∈ c.key?, key < keyCount) →
      s.call c = .error .disconnected) := by
  intro s stepped
  refine ⟨?_, ?_, ?_, ?_⟩
  · intro kept
    have keys : stepped.keypad? = some ⟨(Move.events moves).foldl HeldKeys.apply .allUp, []⟩ :=
      keypad?_after_step (Machine.create config chance) kept
    refine ⟨keys, ?_, ?_, ?_⟩
    · intro k found key
      rw [keys] at found
      cases found
      exact HeldKeys.isDown_foldl_iff (Move.events moves) key
    · intro config' chance' moves' kept' same
      rw [keys, ← same]
      exact keypad?_after_step (Machine.create config' chance') kept'
    · intro c valid
      obtain ⟨m, reached, -⟩ := settled_after (Machine.create config chance) kept
      have reached : s = ⟨some m⟩ := reached
      obtain ⟨e, sends⟩ := Call.exists_event valid
      rw [call_eq, sends, reached]
      exact ⟨_, rfl⟩
  · intro holder
    exact Move.sent_filter holder moves
  · intro c key named invalid
    have refused : s.call c = .error (.invalidKey key) := by
      rw [call_eq, Call.event_of_invalid named invalid]
      rfl
    refine ⟨refused, ?_⟩
    intro holder
    rw [act, refused]
  · intro dropped c valid
    exact call_of_dropped (machine_after_of_drop _ dropped) valid

/-- Two holders, one of whom names a key that does not exist, around a step that fails for want of
    an instruction. -/
def movesOfTwo : List (Move Bool) :=
  [.call true (.press 1), .step, .call false (.press 16), .call false (.press 2),
    .load [0x12, 0x00], .readDisplay, .call true (.release 1)]

/-- Of the two keys that exist one was released again; the machine knows nothing of the third, and
    is gone once it was dropped. -/
theorem keys_follow_events_of_two :
    ((start {} (.ofSeed 0)).after (movesOfTwo ++ [.step])).keypad? =
      some ⟨HeldKeys.allUp.apply (.press 2), []⟩ ∧
    ((start {} (.ofSeed 0)).after movesOfTwo).call (.press 16) = .error (.invalidKey 16) ∧
    ((start {} (.ofSeed 0)).after (movesOfTwo ++ [.drop])).call (.press 3) =
      .error .disconnected := by
  have kept : .drop ∉ movesOfTwo := by simp [movesOfTwo]
  have keys : (Move.events movesOfTwo).foldl HeldKeys.apply .allUp =
      HeldKeys.allUp.apply (.press 2) := by decide
  obtain ⟨live, -, refused, -⟩ := keys_follow_events {} (.ofSeed 0) movesOfTwo
  obtain ⟨-, -, -, dropped⟩ := keys_follow_events {} (.ofSeed 0) (movesOfTwo ++ [.drop])
  refine ⟨(live kept).1.trans (by rw [keys]), (refused (.press 16) 16 rfl (by decide)).1,
    dropped (by simp) (.press 3) ?_⟩
  intro key named
  cases named
  decide

end Session

end Chip8
