/-
# The written forms of values

How each kind of value is written as a tree and read back. Reading checks the
form only; whether the parts fit together is checked where the value is used.
-/

import PlanNetwork.Program.Summary
import PlanNetwork.Wire.Decode

namespace PlanNetwork

/-- The words for some values, with the values. -/
def wordsFor {α : Type} (text : α → String) (values : List α) : List (String × α) :=
  values.map fun value => (text value, value)

/-- A value, or nothing, as a tree. -/
def Tree.ofOption {α : Type} (write : α → Tree) : Option α → Tree
  | some value => write value
  | none => .null

/-! ## Words -/

/-- The word for who selects. -/
def Controllability.toTree (c : Controllability) : Tree := .text c.text

/-- Who selects, from the word for it. -/
def Controllability.ofTree : Tree → Option Controllability :=
  Tree.asWord (wordsFor Controllability.text [.controllable, .uncontrollable, .probabilistic])

/-- The word for who fixes a duration. -/
def DurationKind.toTree (k : DurationKind) : Tree := .text k.text

/-- Who fixes a duration, from the word for it. -/
def DurationKind.ofTree : Tree → Option DurationKind :=
  Tree.asWord (wordsFor DurationKind.text [.controllable, .bounded, .probabilistic])

/-- The sign of a relation. -/
def Relation.toTree (r : Relation) : Tree := .text r.text

/-- A relation, from its sign. -/
def Relation.ofTree : Tree → Option Relation := Tree.asWord (wordsFor Relation.text Relation.all)

/-! ## State values and domains -/

/-- A state value is written as what it is. -/
def StateValue.toTree : StateValue → Tree
  | .bool b => .bool b
  | .number x => .number x
  | .symbol s => .text s

/-- A truth value, a number or a text is a state value. -/
def StateValue.ofTree (tree : Tree) : Option StateValue :=
  match tree.settled with
  | some (.bool b) => some (.bool b)
  | some (.whole n) => some (.number (.ofDecimal false n 0))
  | some (.number x) => some (.number x)
  | some (.text s) => some (.symbol s)
  | _ => none

/-- A domain is a record of its type and its values. -/
def StateDomain.toTree (d : StateDomain) : Tree :=
  let values := match d with
    | .finite values => values.map StateValue.toTree
    | .interval lower upper => [.number lower, .number upper]
  .record [("type", .text d.text), ("domain", .list values)]

/-- The two bounds of an interval. -/
def StateDomain.intervalOf (tree : Tree) : Option StateDomain :=
  match tree.asList Tree.asNumber with
  | some [lower, upper] => some (.interval lower upper)
  | _ => none

/-- The values of a domain whose type is known. -/
def StateDomain.ofValues (isFinite : Bool) (values : Tree) : Option StateDomain :=
  if isFinite then (values.asList StateValue.ofTree).map .finite else intervalOf values

/-- A domain, from its type and its values. Values that come before the type
are settled before it is known what is wanted of them. -/
def StateDomain.ofTree (tree : Tree) : Option StateDomain := do
  let fields ← tree.asRecord ["type", "domain"]
  let words := [("finite-discrete", true), ("continuous", false)]
  let isFinite ← Record.required fields "type" fun type =>
    match tree with
    | .array _ => type.asText.bind fun word => words.lookup word
    | _ => type.asWord words
  let values ← Record.required fields "domain" some
  match fields.find? fun (name, _) => name == "type" || name == "domain" with
  | some ("domain", _) => ofValues isFinite (← values.settled)
  | _ => ofValues isFinite values

/-! ## Durations -/

/-- A distribution is a record of its type and its parameters. -/
def Distribution.toTree (d : Distribution) : Tree :=
  let parameters : List (String × Tree) := match d with
    | .gaussian mean variance => [("mean", .number mean), ("variance", .number variance)]
    | .uniform lower upper => [("lb", .number lower), ("ub", .number upper)]
    | .unknown lower upper => [("lb", .number lower), ("ub", .number upper)]
  .record (("type", .text d.text) :: parameters)

/-- The names of the parameters of a type, and the distribution with two
given ones. -/
def Distribution.shape? (type : String) :
    Option (String × String × (Number → Number → Distribution)) :=
  match type with
  | "gaussian" => some ("mean", "variance", .gaussian)
  | "uniform" => some ("lb", "ub", .uniform)
  | "unknown_bounded" => some ("lb", "ub", .unknown)
  | _ => none

/-- The name that a settled key stands for. A key may also be the place of a
parameter; a place that there is none at is a name that is not known. -/
def Distribution.fieldName (first second : String) : Tree → Option String
  | .text name => some name
  | .whole 0 => some first
  | .whole 1 => some second
  | .whole _ => some ""
  | _ => none

/-- A distribution of a type, from its parameters by name. -/
def Distribution.ofFields (type : String) (fields : List (Tree × Tree)) : Option Distribution := do
  let (first, second, make) ← shape? type
  let fields ← fields.mapM fun (key, value) => (fieldName first second key).map (·, value)
  let x ← Record.required fields first Tree.asNumber
  let y ← Record.required fields second Tree.asNumber
  return make x y

/-- A distribution of a type, from its parameters in order. -/
def Distribution.ofItems (type : String) (items : List Tree) : Option Distribution := do
  let (_, _, make) ← shape? type
  match items with
  | [x, y] => return make (← x.asNumber) (← y.asNumber)
  | _ => none

/-- Whether a field gives the type of a distribution. -/
def Distribution.isTypeField (field : Tree × Tree) : Bool :=
  match field.1.settled with
  | some (.text name) => name == "type"
  | _ => false

/-- A distribution, from its type and its parameters, which are all settled
before the type is looked at. -/
def Distribution.ofTree (tree : Tree) : Option Distribution :=
  match tree with
  | .tagged (.own _) _ => none
  | tree =>
    match tree.untagged with
    | .map fields => do
      let (types, parameters) := fields.partition isTypeField
      match types with
      | [(_, type)] => ofFields (← type.asText) (← Tree.settledFields parameters)
      | _ => none
    | .array (type :: items) | .list (type :: items) => do
      ofItems (← type.asText) (← Tree.settledItems items)
    | _ => none

/-- A field, if there is something to write. -/
def fieldIfSome {α : Type} (name : String) (write : α → Tree) : Option α → List (String × Tree)
  | some value => [(name, write value)]
  | none => []

/-- A specification is a record from which missing parts are left out. -/
def DurationSpec.toTree (spec : DurationSpec) : Tree :=
  .record ([("ctype", spec.kind.toTree)] ++ fieldIfSome "lb" .number spec.lower ++
    fieldIfSome "ub" .number spec.upper ++
    fieldIfSome "distribution" Distribution.toTree spec.distribution)

/-- A specification, in which all parts may be missing. -/
def DurationSpec.ofTree (tree : Tree) : Option DurationSpec := do
  let fields ← tree.asRecord ["ctype", "lb", "ub", "distribution"]
  let kind ← Record.withDefault fields "ctype" .controllable DurationKind.ofTree
  let lower ← Record.optional fields "lb" Tree.asNumber
  let upper ← Record.optional fields "ub" Tree.asNumber
  let distribution ← Record.optional fields "distribution" Distribution.ofTree
  return { kind, lower, upper, distribution }

/-! ## Choices and identities -/

/-- A list of numbers as a tree. -/
def Tree.ofNumbers (xs : List Number) : Tree := .list (xs.map .number)

/-- A specification is a record in which missing parts are written as nothing. -/
def ChoiceSpec.toTree (spec : ChoiceSpec) : Tree :=
  .record [("id", .ofOption .text spec.id), ("name", .ofOption .text spec.name),
    ("domain", .list (spec.domain.map .text)),
    ("ctype", .ofOption Controllability.toTree spec.kind),
    ("utility", .ofOption .ofNumbers spec.utilities),
    ("probability", .ofOption .ofNumbers spec.probabilities)]

/-- A specification, in which all but the domain may be missing. -/
def ChoiceSpec.ofTree (tree : Tree) : Option ChoiceSpec := do
  let fields ← tree.asRecord ["id", "name", "domain", "ctype", "utility", "probability"]
  let id ← Record.optional fields "id" Tree.asText
  let name ← Record.optional fields "name" Tree.asText
  let domain ← Record.required fields "domain" (Tree.asList Tree.asText)
  let kind ← Record.optional fields "ctype" Controllability.ofTree
  let utilities ← Record.optional fields "utility" (Tree.asList Tree.asNumber)
  let probabilities ← Record.optional fields "probability" (Tree.asList Tree.asNumber)
  return { id, name, domain, kind, utilities, probabilities }

/-- An identity is a record. -/
def Identity.toTree (i : Identity) : Tree :=
  .record [("serial", .whole i.serial), ("id", .text i.id), ("name", .text i.name)]

/-- An identity, with all its parts. -/
def Identity.ofTree (tree : Tree) : Option Identity := do
  let fields ← tree.asRecord ["serial", "id", "name"]
  let serial ← Record.required fields "serial" Tree.asCount
  let id ← Record.required fields "id" Tree.asText
  let name ← Record.required fields "name" Tree.asText
  return { serial, id, name }

/-! ## Summaries -/

/-- The counts of a summary with the names they are written under. -/
def Summary.counts (s : Summary) : List (String × Nat) :=
  [("episodes", s.episodes), ("primitive_episodes", s.primitives), ("events", s.events),
    ("choices", s.choices), ("decisions", s.decisions), ("observations", s.observations),
    ("temporal_constraints", s.constraints), ("user_temporal_constraints", s.userConstraints),
    ("state_constraints", s.states), ("chance_constraints", s.chances),
    ("state_variables", s.quantities)]

/-- A summary is a record of its counts behind the name. -/
def Summary.toTree (s : Summary) : Tree :=
  .record (("name", .text s.name) :: s.counts.map fun (name, count) => (name, .whole count))

/-- A summary, with all its counts. -/
def Summary.ofTree (tree : Tree) : Option Summary := do
  let fields ← tree.asRecord
    ["name", "episodes", "primitive_episodes", "events", "choices", "decisions", "observations",
      "temporal_constraints", "user_temporal_constraints", "state_constraints",
      "chance_constraints", "state_variables"]
  let count (name : String) : Option Nat := Record.required fields name Tree.asCount
  let name ← Record.required fields "name" Tree.asText
  let episodes ← count "episodes"
  let primitives ← count "primitive_episodes"
  let events ← count "events"
  let choices ← count "choices"
  let decisions ← count "decisions"
  let observations ← count "observations"
  let constraints ← count "temporal_constraints"
  let userConstraints ← count "user_temporal_constraints"
  let states ← count "state_constraints"
  let chances ← count "chance_constraints"
  let quantities ← count "state_variables"
  return { name, episodes, primitives, events, choices, decisions, observations, constraints,
           userConstraints, states, chances, quantities }

end PlanNetwork
