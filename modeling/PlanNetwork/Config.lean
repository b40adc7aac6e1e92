/-
# Configuration of a program
-/

import PlanNetwork.Composition.Options

namespace PlanNetwork

/-- How the decisions of a loop are called. -/
structure LoopLabels where
  /-- What stands in front of the number of runs left. -/
  stem : String := "loop-choice-"
  /-- The value that runs the body. -/
  run : String := "RUN"
  /-- The value that leaves the loop. -/
  stop : String := "STOP"
deriving DecidableEq

/-- How far the probabilities of a choice may be from summing to one, unless
said otherwise: a hundred-thousandth. -/
def defaultTolerance : Number := .ofDecimal false 1 (-5)

/-- The settings of a program. -/
structure Config where
  /-- The name of the program. -/
  programName : String := "run()"
  /-- Where the events at the ends of a sequence come from. -/
  mode : SequenceMode := .shared
  /-- Whether the episodes of a sequence follow each other without a gap. -/
  noWait : Bool := false
  /-- How the decisions of a loop are called. -/
  loop : LoopLabels := {}
  /-- How far the probabilities of a choice may be from summing to one. -/
  tolerance : Number := defaultTolerance
deriving DecidableEq

namespace Config

/-- Nothing, if the tolerance is positive and the loop values differ. -/
def validate (c : Config) : Except Fault Unit :=
  if !Number.zero.lt c.tolerance then .error (.toleranceInvalid c.tolerance)
  else if c.loop.run = c.loop.stop then .error .labelsEqual
  else .ok ()

theorem validate_eq_ok_iff {c : Config} :
    c.validate = .ok () ↔ Number.zero.lt c.tolerance = true ∧ c.loop.run ≠ c.loop.stop := by
  unfold validate
  cases Number.zero.lt c.tolerance <;> by_cases same : c.loop.run = c.loop.stop <;> simp [same]

/-- Whether two configurations are equal, the tolerances as numbers. -/
def same (a b : Config) : Bool :=
  a.programName == b.programName && a.mode == b.mode && a.noWait == b.noWait &&
    a.loop == b.loop && a.tolerance.equals b.tolerance

end Config

end PlanNetwork
