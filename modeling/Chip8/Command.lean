/-!
# Commands

What changes a state in place and may fail on the way is an `EStateM` command.
A failure takes nothing back: it leaves the state as the command had made it by
then. That a failure changes nothing is thus a theorem about a command and not
a consequence of its type.

Results:

* `run_get_bind`: a command may begin by reading the state.
* `run_zoom`, `run_ofExcept`: what a command to a part of the state, and a check
  without a state, leave.
-/

namespace Chip8

/-- A command to one part of a state. What it does to the part stays done, also if it fails. -/
def zoom {ε σ τ α : Type} (view : σ → τ) (update : σ → τ → σ) (command : EStateM ε τ α) :
    EStateM ε σ α := fun s =>
  match command.run (view s) with
  | .ok a part => .ok a (update s part)
  | .error e part => .error e (update s part)

theorem run_get_bind {ε σ α : Type} (command : σ → EStateM ε σ α) (s : σ) :
    (get >>= command).run s = (command s).run s := rfl

/-- What a command to a part leaves is put into the whole, whether it succeeded or not. -/
theorem run_zoom {ε σ τ α : Type} (view : σ → τ) (update : σ → τ → σ) (command : EStateM ε τ α)
    (s : σ) :
    (zoom view update command).run s =
      match command.run (view s) with
      | .ok a part => .ok a (update s part)
      | .error e part => .error e (update s part) := rfl

theorem run_ofExcept {ε σ α : Type} (result : Except ε α) (s : σ) :
    (ofExcept result : EStateM ε σ α).run s =
      match result with
      | .ok a => .ok a s
      | .error e => .error e s := by
  cases result <;> rfl

end Chip8
