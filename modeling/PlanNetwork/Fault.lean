/-
# What can go wrong

Every reason for which an operation is refused, with the values that its
message names. The categories are what a caller would branch on.
-/

import PlanNetwork.Duration.Basic
import PlanNetwork.Handle
import PlanNetwork.State.Value
import PlanNetwork.Support.Basic

namespace PlanNetwork

/-- Why an operation was refused. -/
inductive Fault where
  /-- A choice without a kind. -/
  | choiceKindMissing
  /-- A duration without one of its bounds. -/
  | boundsMissing (kind : DurationKind)
  /-- A probabilistic duration without a distribution. -/
  | distributionMissing
  /-- An observation without a kind. -/
  | observationKindMissing
  /-- A program that has no plan yet. -/
  | planMissing
  /-- A plain event where a choice is needed. -/
  | notAChoice (event : String)
  /-- A value that the choice does not have. -/
  | outsideChoice (value label : String)
  /-- A choice without values. -/
  | choiceEmpty
  /-- A choice with a value listed twice. -/
  | choiceRepeats (value : String)
  /-- Not one utility per value. -/
  | utilitiesMismatch
  /-- Not one probability per value, or a sum away from one. -/
  | probabilitiesMismatch
  /-- An interval of values whose bounds are not in order. -/
  | intervalReversed (lower upper : Number)
  /-- A duration whose bounds are not in order. -/
  | boundsReversed (lower upper : Number)
  /-- A distribution with parameters out of range. -/
  | distributionInvalid (distribution : Distribution)
  /-- A text that is no relation. -/
  | relationUnknown (text : String)
  /-- A state constraint that lists a variable twice. -/
  | scopeRepeats
  /-- Not one value per variable. -/
  | valuesMismatch
  /-- Not one coefficient per variable. -/
  | coefficientsMismatch
  /-- A state constraint with a value that the variable does not have. -/
  | outsideVariable (value : StateValue) (quantity : String)
  /-- An assignment of a value that the variable does not have. -/
  | assignmentInvalid (quantity : String) (value : StateValue)
  /-- A decision of a kind that is not decided. -/
  | decisionObserved (kind : Controllability)
  /-- An observation of a kind that is not observed. -/
  | observationDecided (kind : Controllability)
  /-- A constraint from an event to itself that cannot be dropped. -/
  | selfLoop (constraint : String) (lower upper : Number)
  /-- Two constraints on the same events that exclude each other. -/
  | boundsDisjoint (first second : String)
  /-- A loop without runs. -/
  | loopEmpty
  /-- A risk that is no probability. -/
  | riskInvalid (risk : Number)
  /-- A sequence of no episodes. -/
  | sequenceEmpty
  /-- A parallel composition of no episodes. -/
  | parallelEmpty
  /-- An episode to be followed by another, though it ends the execution. -/
  | terminalInSequence (episode : String)
  /-- An episode beside others, though it ends the execution. -/
  | terminalInParallel (episode : String)
  /-- Not one episode per value of the choice. -/
  | branchMismatch (label : String) (values episodes : Nat)
  /-- A composition of no components. -/
  | nothingToCompose
  /-- A user constraint that a component brings in a second time. -/
  | constraintAbsorbed (constraint : String)
  /-- A user constraint registered a second time. -/
  | constraintRegistered (constraint : String)
  /-- A chance constraint registered a second time. -/
  | chanceRegistered (constraint : String)
  /-- A primitive episode met twice in the plan. -/
  | episodeTwice (episode : String)
  /-- A temporal constraint met twice in the plan. -/
  | constraintTwice (constraint : String)
  /-- A handle of no element. -/
  | unknown (kind : ElementKind) (index : Nat)
  /-- An id that names another episode. -/
  | idTaken (id : String)
  /-- An id that names no episode. -/
  | idUnknown (id : String)
  /-- A name that was given to nothing. -/
  | unresolved (name : String)
  /-- Two supports with nothing in common. -/
  | inconsistent (clash : Clash)
  /-- A tolerance that is not positive. -/
  | toleranceInvalid (tolerance : Number)
  /-- Loop decisions whose two values are the same. -/
  | labelsEqual
  /-- A configuration that cannot be read. -/
  | configUnreadable

namespace Fault

/-- The kinds of faults. -/
inductive Category where
  /-- Something needed was not given. -/
  | missingArgument
  /-- A malformed value, or parts that do not fit together. -/
  | invalidType
  /-- A value out of range. -/
  | invalidValue
  /-- Episodes that cannot be composed as asked. -/
  | composition
  /-- An element added or met twice. -/
  | duplicateElement
  /-- An unknown handle or id, or an id in use. -/
  | id
  /-- Supports that exclude each other. -/
  | inconsistentSupport
  /-- A configuration that cannot be read or used. -/
  | config
deriving DecidableEq

/-- The category of a fault. -/
def category : Fault → Category
  | choiceKindMissing | boundsMissing _ | distributionMissing | observationKindMissing
  | planMissing => .missingArgument
  | notAChoice _ | outsideChoice .. | choiceEmpty | choiceRepeats _ | utilitiesMismatch
  | probabilitiesMismatch | intervalReversed .. | boundsReversed .. | distributionInvalid _
  | relationUnknown _ | scopeRepeats | valuesMismatch | coefficientsMismatch
  | outsideVariable .. | assignmentInvalid .. | decisionObserved _ | observationDecided _
  | selfLoop .. | boundsDisjoint .. => .invalidType
  | loopEmpty | riskInvalid _ => .invalidValue
  | sequenceEmpty | parallelEmpty | terminalInSequence _ | terminalInParallel _
  | branchMismatch .. | nothingToCompose => .composition
  | constraintAbsorbed _ | constraintRegistered _ | chanceRegistered _ | episodeTwice _
  | constraintTwice _ => .duplicateElement
  | unknown .. | idTaken _ | idUnknown _ | unresolved _ => .id
  | inconsistent _ => .inconsistentSupport
  | toleranceInvalid _ | labelsEqual | configUnreadable => .config

/-- What the message of a category begins with. -/
def Category.heading : Category → String
  | .missingArgument => "Missing argument: "
  | .invalidType => "Invalid type: "
  | .invalidValue => "Invalid value: "
  | .composition => "Composition error: "
  | .duplicateElement => "Duplicate element: "
  | .id => "Id error: "
  | .inconsistentSupport => "Empty intersection of supports: "
  | .config => "Configuration error: "

/-- Two bounds in brackets. -/
def bracketed (lower upper : Number) : String := "[" ++ lower.text ++ ", " ++ upper.text ++ "]"

/-- What the message says behind its heading. -/
def detail : Fault → String
  | choiceKindMissing => "choices must specify a type"
  | boundsMissing kind => kind.text ++ " constraints must have lb and ub specified"
  | distributionMissing => "probabilistic constraints must have a distribution"
  | observationKindMissing => "observation choice type"
  | planMissing => "program has no plan episode"
  | notAChoice event => "event '" ++ event ++ "' is not a choice"
  | outsideChoice value label => "'" ++ value ++ "' is not in the domain of choice " ++ label
  | choiceEmpty => "choice domain must not be empty"
  | choiceRepeats value => "choice domain lists '" ++ value ++ "' more than once"
  | utilitiesMismatch => "utilities are not consistent with choice domain"
  | probabilitiesMismatch =>
    "probabilities are not consistent with choice domain or do not sum to one"
  | intervalReversed lower upper =>
    "continuous domains must be [lb, ub] with lb <= ub, got " ++ bracketed lower upper
  | boundsReversed lower upper =>
    "temporal constraints must have lb <= ub, got " ++ bracketed lower upper
  | distributionInvalid distribution =>
    "invalid " ++ distribution.text ++ " distribution: gaussian needs variance >= 0, " ++
      "uniform and unknown_bounded need lb <= ub"
  | relationUnknown text => "relation '" ++ text ++ "' must be one of <, <=, =, >, >="
  | scopeRepeats => "state constraint scope must list distinct variables"
  | valuesMismatch => "scope and values must have the same length"
  | coefficientsMismatch => "scope and coefficients must have the same length"
  | outsideVariable value name =>
    "'" ++ value.text ++ "' is not in the domain of state variable " ++ name
  | assignmentInvalid name value => "invalid assignment " ++ name ++ "=" ++ value.text
  | decisionObserved kind => "decisions are controllable, got " ++ kind.text
  | observationDecided kind =>
    "observations are uncontrollable or probabilistic, got " ++ kind.text
  | selfLoop id lower upper =>
    "self-loop constraint " ++ id ++ " with bounds " ++ bracketed lower upper
  | boundsDisjoint first second =>
    "constraints " ++ first ++ " and " ++ second ++ " have disjoint bounds"
  | loopEmpty => "a loop needs at least one repetition"
  | riskInvalid risk => "chance constraint risk must be a valid probability, got " ++ risk.text
  | sequenceEmpty => "a sequence needs at least one episode"
  | parallelEmpty => "a parallel composition needs at least one episode"
  | terminalInSequence id =>
    "cannot execute terminal episode '" ++ id ++ "' in sequence with others"
  | terminalInParallel id =>
    "cannot execute terminal episode '" ++ id ++ "' in parallel with others"
  | branchMismatch label values episodes =>
    "choice " ++ label ++ " has " ++ toString values ++ " values but " ++ toString episodes ++
      " episodes were given"
  | nothingToCompose => "no episodes to compose"
  | constraintAbsorbed id => "temporal constraint " ++ id ++ " is already part of the program"
  | constraintRegistered id => "temporal constraint " ++ id ++ " already added"
  | chanceRegistered id => "chance constraint " ++ id ++ " already added"
  | episodeTwice id => "primitive episode " ++ id ++ " appears twice in the plan"
  | constraintTwice id => "temporal constraint " ++ id ++ " appears twice in the plan"
  | unknown kind index => "no " ++ kind.noun ++ " " ++ kind.mark ++ "#" ++ toString index
  | idTaken id => "id '" ++ id ++ "' already names a different episode"
  | idUnknown id => "no episode with id '" ++ id ++ "'"
  | unresolved name => "unresolved reference " ++ name
  | inconsistent clash => clash.left.text ++ " AND " ++ clash.right.text
  | toleranceInvalid tolerance =>
    "probability_tolerance must be positive, got " ++ tolerance.text
  | labelsEqual => "loop_choice run_label and stop_label must differ"
  | configUnreadable => "the document cannot be read"

/-- The full message. -/
def message (f : Fault) : String := f.category.heading ++ f.detail

/-- The supports that exclude each other, where that is the fault. -/
def clash? : Fault → Option Clash
  | inconsistent clash => some clash
  | _ => none

end Fault

end PlanNetwork
