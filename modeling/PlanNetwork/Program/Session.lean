/-
# Loops and fragments

Both are built from a body that the caller provides: any run of operations on
the program. The body may keep notes of its own beside the program, and what
it notes is kept even if the body is refused.

A loop offers its body a number of times. Before each run a decision is made
between running the body and leaving the loop, and leaving is an episode of
its own with nothing in it. The decisions are numbered by the runs still on
offer.

A fragment is built with a plan and user constraints of its own. The plan and
the user constraints of the program are set aside meanwhile and come back in
any case.
-/

import PlanNetwork.Program.Assembly

namespace PlanNetwork

/-- An operation on a program by a caller who keeps notes. -/
abbrev Session (ν α : Type) : Type := Attempt (Program × ν) α

namespace Session

variable {ν α : Type}

/-- An operation that leaves the notes alone. -/
def build (op : Build α) : Session ν α := op.focus Prod.fst fun p s => (p, s.2)

/-- Decide between a run of a loop and leaving it, with `left` runs on offer. -/
def offerRun (runUtility stopUtility : Number) (left : Nat) (run : Component) :
    Build EpisodeId := do
  let stop ← Build.addEpisode {}
  let labels := (← get).config.loop
  let spec : ChoiceSpec :=
    { domain := [labels.run, labels.stop]
      id := some (labels.stem ++ toString left)
      utilities := some [runUtility, stopUtility] }
  Build.decide spec [run, .episode stop] {}

/-- Offer some runs of a body, at least one. -/
def loop (body : Session ν Component) (runUtility stopUtility : Number) :
    Nat → Session ν EpisodeId
  | 0 => throw .loopEmpty
  | 1 => do
    let run ← body
    build (offerRun runUtility stopUtility 1 run)
  | left + 2 => do
    let once ← body
    let rest ← loop body runUtility stopUtility (left + 1)
    build do
      let run ← Build.sequence [once, .episode rest] {}
      offerRun runUtility stopUtility (left + 2) (.episode run)

/-- The program that the body of a fragment starts with. -/
def setAside (p : Program) : Program := { p with plan := none, userConstraints := ∅ }

/-- The program after the body of a fragment, given the one from before. -/
def takeBack (before after : Program) : Program :=
  { after with plan := before.plan, userConstraints := before.userConstraints, traversal := none }

/-- Build a fragment. -/
def subplan (body : Session ν EpisodeId) : Session ν Subplan := fun (p, notes) =>
  match body (setAside p, notes) with
  | .ok plan (q, notes) => .ok ⟨plan, q.userConstraints⟩ (takeBack p q, notes)
  | .error fault (q, notes) => .error fault (takeBack p q, notes)

end Session

end PlanNetwork
