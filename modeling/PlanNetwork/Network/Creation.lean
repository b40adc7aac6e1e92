/-
# Making elements

Each operation checks what it is given before it spends a serial number. An
episode is the exception: its identity comes first, then its duration, and
both are undone together if the duration cannot be had.
-/

import PlanNetwork.Duration.Resolve
import PlanNetwork.Network.Edit

namespace PlanNetwork

namespace Edit

/-! ## Events and state variables -/

/-- A new event with the identity. -/
def addEventAs (identity : Identity) : Edit EventId := pushEvent ⟨identity, .always, none⟩

/-- A new event. -/
def addEvent : Edit EventId := do
  addEventAs (← allocate "Event")

/-- The given event, or a new one. -/
def eventOrNew : Option EventId → Edit EventId
  | some id => pure id
  | none => addEvent

/-- A new choice event. -/
def addChoice (spec : ChoiceSpec) : Edit EventId := do
  let kind ← Attempt.read fun n => spec.validate n.tolerance
  let identity ← allocateAs "Choice" spec.id spec.name
  pushEvent ⟨identity, .always, some (spec.toChoice identity kind)⟩

/-- Nothing, if the bounds of an interval are in order. -/
def checkDomain : StateDomain → Except Fault Unit
  | .finite _ => .ok ()
  | .interval lower upper =>
    if lower.le upper then .ok () else .error (.intervalReversed lower upper)

/-- A new state variable. -/
def addQuantity (name : String) (domain : StateDomain) : Edit VariableId := do
  Attempt.ofExcept (checkDomain domain)
  let identity ← allocate "StateVariable"
  pushQuantity ⟨identity.withName name, domain⟩

/-! ## Temporal constraints -/

/-- A new constraint that applies under the support, which is not empty. -/
def linkUnder (start finish : EventId) (bounds : Bounds) (support : Support) :
    Edit TemporalId := do
  let guard ← Attempt.ofExcept (Network.refuseClash (Guard.always.set support))
  let identity ← allocate "TemporalConstraint"
  pushTemporal ⟨identity, guard, start, finish, bounds⟩

/-- A new constraint that applies where both its events exist. -/
def link (start finish : EventId) (bounds : Bounds) : Edit TemporalId := do
  let support ← Attempt.read (·.endpointSupport start finish)
  linkUnder start finish bounds support

/-- A new constraint with bounds as specified, where both its events exist. -/
def addTemporal (start finish : EventId) (spec : DurationSpec) : Edit TemporalId := do
  let bounds ← Attempt.ofExcept spec.resolve
  link start finish bounds

/-- A new constraint for the duration of an episode between two events. -/
def addDuration (start finish : EventId) (spec : DurationSpec) : Edit TemporalId := do
  let bounds ← Attempt.ofExcept spec.resolve
  let both ← Attempt.read (·.endpointSupport start finish)
  let last ← Attempt.read (·.support (.event finish))
  let support ← Attempt.ofExcept (Network.refuseClash (both.tryAnd last))
  linkUnder start finish bounds support

/-! ## State and chance constraints -/

/-- Nothing, if all variables are there and none comes twice. -/
def checkScope (n : Network) (passed : List VariableId) : List VariableId → Except Fault Unit
  | [] => .ok ()
  | id :: rest => do
    let _ ← n.quantity id
    if passed.contains id then throw .scopeRepeats
    checkScope n (id :: passed) rest

/-- Nothing, if each variable has the value at its position. -/
def checkValues (n : Network) : List (VariableId × StateValue) → Except Fault Unit
  | [] => .ok ()
  | (id, value) :: rest => do
    let quantity ← n.quantity id
    unless quantity.domain.contains value do
      throw (.outsideVariable value quantity.identity.name)
    checkValues n rest

/-- A new state constraint, checked already. -/
def addStateConstraint (scope : List VariableId) (condition : StateCondition) :
    Edit StateConstraintId := do
  let identity ← allocate "StateConstraint"
  pushState ⟨identity, .always, scope, condition⟩

/-- A new constraint that fixes the value of each variable. -/
def addAssignmentConstraint (scope : List VariableId) (values : List StateValue) :
    Edit StateConstraintId := do
  Attempt.read (checkScope · [] scope)
  if scope.length ≠ values.length then throw .valuesMismatch
  Attempt.read (checkValues · (scope.zip values))
  addStateConstraint scope (.assignment values)

/-- A new constraint on the weighted sum of the variables. -/
def addLinearConstraint (scope : List VariableId) (coefficients : List Number)
    (relation : Relation) (bound : Number) : Edit StateConstraintId := do
  Attempt.read (checkScope · [] scope)
  if scope.length ≠ coefficients.length then throw .coefficientsMismatch
  addStateConstraint scope (.linear coefficients relation bound)

/-- Nothing, if all constraints of a list are there. -/
def checkConstraints (n : Network) : List ConstraintId → Except Fault Unit
  | [] => .ok ()
  | id :: rest => do
    n.checkConstraint id
    checkConstraints n rest

/-- A new bound on the risk of violating any of the constraints. -/
def addChance (constraints : List ConstraintId) (risk : Number) : Edit ChanceId := do
  unless Number.zero.le risk && risk.le .one do throw (.riskInvalid risk)
  Attempt.read (checkConstraints · constraints)
  let identity ← allocate "ChanceConstraint"
  pushChance ⟨identity, risk, constraints⟩

/-! ## Episodes -/

/-- An episode before it has a duration constraint. -/
structure EpisodeDraft where
  /-- Its identity. -/
  identity : Identity
  /-- The event at its start. -/
  start : EventId
  /-- The event at its end. -/
  finish : EventId
  /-- How long it may take. -/
  duration : DurationSpec
  /-- What is done. -/
  action : String
  /-- How it is built. -/
  composition : Composition
  /-- The internal constraints. -/
  constraints : OrdSet TemporalId
  /-- Whether nothing can be executed behind it. -/
  terminal : Bool

/-- The episode of a draft, with nothing said about states. -/
def EpisodeDraft.toEpisode (draft : EpisodeDraft) (duration : TemporalId) : Episode where
  identity := draft.identity
  guard := .always
  start := draft.start
  finish := draft.finish
  duration := duration
  action := draft.action
  startConditions := ∅
  finishConditions := ∅
  startEffects := ∅
  finishEffects := ∅
  constraints := draft.constraints
  atStart := ∅
  atFinish := ∅
  during := ∅
  terminal := draft.terminal
  composition := draft.composition

/-- A new episode with its duration constraint; `finishing` completes it. -/
def addDraft (draft : EpisodeDraft) (finishing : Episode → Episode) : Edit EpisodeId := do
  let _ ← Attempt.read (·.event draft.start)
  let _ ← Attempt.read (·.event draft.finish)
  let duration ← addDuration draft.start draft.finish draft.duration
  pushEpisode (finishing (draft.toEpisode duration))

/-- Nothing, if all variables are there and have the values they are given. -/
def checkEntries (n : Network) : List (VariableId × StateValue) → Except Fault Unit
  | [] => .ok ()
  | (id, value) :: rest => do
    let quantity ← n.quantity id
    unless quantity.domain.contains value do
      throw (.assignmentInvalid quantity.identity.name value)
    checkEntries n rest

/-- Nothing, if an assignment can be made. -/
def checkAssignment (assignment : Assignment) (n : Network) : Except Fault Unit :=
  checkEntries n assignment.entries

/-- The episode with what the specification says about states. -/
def withStates (spec : EpisodeSpec) (episode : Episode) : Episode :=
  { episode with
    startConditions := spec.startConditions
    finishConditions := spec.finishConditions
    startEffects := spec.startEffects
    finishEffects := spec.finishEffects
    atStart := .ofList (spec.atStart ++ spec.overall)
    atFinish := .ofList (spec.atFinish ++ spec.overall)
    during := .ofList (spec.during ++ spec.overall) }

/-- A new primitive episode, between new events where none are given. -/
def addEpisode (spec : EpisodeSpec) : Edit EpisodeId := do
  Attempt.read (checkAssignment spec.startConditions)
  Attempt.read (checkAssignment spec.finishConditions)
  Attempt.read (checkAssignment spec.startEffects)
  Attempt.read (checkAssignment spec.finishEffects)
  Attempt.read (checkConstraints ·
    ((spec.atStart ++ spec.atFinish ++ spec.during ++ spec.overall).map .state))
  atomically do
    let start ← eventOrNew spec.start
    let finish ← eventOrNew spec.finish
    let identity ← allocateAs "Episode" spec.id spec.name
    let draft : EpisodeDraft :=
      { identity, start, finish,
        duration := spec.duration.getD .unconstrained
        action := spec.action.getD ""
        composition := .primitive
        constraints := ∅
        terminal := spec.terminal }
    addDraft draft (withStates spec)

end Edit

end PlanNetwork
