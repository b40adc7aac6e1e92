/-
# Operations that may be refused

An operation reads and changes a state, and ends with a result or a fault. A
refused operation leaves the state as far as it got, unless it stands in a
bracket that says what is to become of it.
-/

import PlanNetwork.Fault

namespace PlanNetwork

/-- An operation on a state `σ` that gives an `α` or is refused. -/
abbrev Attempt (σ α : Type) : Type := EStateM Fault σ α

namespace Attempt

variable {σ τ α : Type}

/-- Read something off the state, which may be refused. -/
def read (view : σ → Except Fault α) : Attempt σ α := fun s =>
  match view s with
  | .ok a => .ok a s
  | .error fault => .error fault s

/-- A value, or the fault it failed with. -/
def ofExcept (result : Except Fault α) : Attempt σ α := read fun _ => result

/-- Prepare the state for an operation, and put it in order afterwards: in one
way if the operation succeeds, in another if it is refused. -/
def bracket (prepare conclude undo : σ → σ) (op : Attempt σ α) : Attempt σ α := fun s =>
  match op (prepare s) with
  | .ok a s' => .ok a (conclude s')
  | .error fault s' => .error fault (undo s')

/-- Run an operation on a part of the state. -/
def focus (get : σ → τ) (set : τ → σ → σ) (op : Attempt τ α) : Attempt σ α := fun s =>
  match op (get s) with
  | .ok a t => .ok a (set t s)
  | .error fault t => .error fault (set t s)

/-- Run an operation for every item in turn. -/
def each {β : Type} (op : β → Attempt σ Unit) : List β → Attempt σ Unit
  | [] => pure ()
  | item :: rest => do
    op item
    each op rest

end Attempt

end PlanNetwork
