/-
# How choices lead to choices

Choices with the same support form a cluster, and the least conditioned
cluster can be faced at once. Giving a choice a value activates a cluster if
that one literal is what separates a conjunction of the choice's support from
one of the cluster's.
-/

import PlanNetwork.Program.Traversal
import PlanNetwork.Support.Cluster

namespace PlanNetwork

/-- A value of a choice, assigned or ruled out. -/
structure Step where
  /-- The value. -/
  value : String
  /-- Whether it is ruled out. -/
  negated : Bool
deriving DecidableEq

namespace Step

/-- Values in order, assignments before exclusions. -/
instance : Ord Step := ⟨compareLex (compareOn Step.value) (compareOn Step.negated)⟩

instance : Std.TransOrd Step :=
  inferInstanceAs (Std.TransCmp (compareLex (compareOn Step.value) (compareOn Step.negated)))

/-- What a literal does to its choice. -/
def ofLiteral (a : Literal) : Step := ⟨a.value, a.negated⟩

end Step

/-- For each choice and each step on it, the choices that it activates. -/
abbrev Activation := OrdMap EventId (OrdMap Step (List EventId))

/-- The choices of a program and how they depend on each other. -/
structure Hierarchy where
  /-- The choices by their supports, least conditioned first. -/
  clusters : List (Cluster EventId)
  /-- Which steps activate which choices. -/
  activation : Activation
  /-- The temporal constraints of the program with their supports. -/
  constraints : List (TemporalId × Support)

namespace Hierarchy

/-- The one literal by which `inner` exceeds `outer`, if it is about `subject`. -/
def separating? (subject : ChoiceVariable) (outer inner : Conjunction) : Option Literal :=
  if outer.isProperSubset inner then
    match (inner.difference outer).toList with
    | [literal] => if literal.choice.same subject then some literal else none
    | _ => none
  else none

/-- The literal about `subject` that leads from the support of its choice to
the support of a cluster; the first one, if several do. -/
def activating? (subject : ChoiceVariable) (choice cluster : Support) : Option Literal :=
  choice.toList.findSome? fun outer => cluster.toList.findSome? (separating? subject outer)

/-- A choice with its variable and its support. -/
structure Entry where
  /-- The choice event. -/
  event : EventId
  /-- Its variable. -/
  subject : ChoiceVariable
  /-- Its support. -/
  support : Support

/-- Note that a choice activates a cluster, if it does. -/
def noteActivation (cluster : Cluster EventId) (found : Activation) (entry : Entry) : Activation :=
  if cluster.members.contains entry.event then found
  else
    match activating? entry.subject entry.support cluster.support with
    | none => found
    | some literal =>
      let steps := (found.get? entry.event).getD ∅
      found.insert entry.event (steps.insert (.ofLiteral literal) cluster.members)

/-- All activations among some choices. The first cluster needs none. -/
def activationOf (clusters : List (Cluster EventId)) (entries : List Entry) : Activation :=
  (clusters.drop 1).foldl (fun found cluster => entries.foldl (noteActivation cluster) found) ∅

/-- A choice event with what is to be known of it. -/
def entryOf (n : Network) (id : EventId) : Except Fault Entry := do
  let choice ← n.choice id
  let support ← n.support (.event id)
  return ⟨id, choice.subject, support⟩

/-- A temporal constraint with its support. -/
def constraintOf (n : Network) (id : TemporalId) : Except Fault (TemporalId × Support) :=
  (n.support (.temporal id)).map fun support => (id, support)

/-- The hierarchy of some choices, with some constraints. -/
def ofNetwork (n : Network) (choices : OrdSet EventId) (constraints : OrdSet TemporalId) :
    Except Fault Hierarchy := do
  let entries ← choices.toList.mapM (entryOf n)
  let clusters := Cluster.group (entries.map fun e => (e.event, e.support))
  let constraints ← constraints.toList.mapM (constraintOf n)
  return ⟨clusters, activationOf clusters entries, constraints⟩

/-- The choices that can be faced at once. -/
def initial (h : Hierarchy) : List EventId :=
  match h.clusters with
  | [] => []
  | first :: _ => first.members

/-- The choices that a literal about a choice activates. -/
def activated (h : Hierarchy) (choice : EventId) (literal : Literal) : List EventId :=
  (((h.activation.get? choice).bind (·.get? (.ofLiteral literal))).getD [])

/-- The constraints whose supports the given literals entail. -/
def activeConstraints (h : Hierarchy) (given : Conjunction) : List TemporalId :=
  (h.constraints.filter (·.2.isActive given)).map (·.1)

end Hierarchy

/-- The hierarchy of the choices of the program. -/
def Build.hierarchy : Build Hierarchy := do
  let choices ← Build.choices
  let constraints ← Build.constraints
  Attempt.read fun p => Hierarchy.ofNetwork p.network choices constraints

end PlanNetwork
