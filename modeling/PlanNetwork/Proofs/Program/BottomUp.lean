/-
# Composition trees

A composition tree is built from its leaves up. The calls that do it, in their
order, are all there is to it: a call refers to the episodes it composes by their
handles, and these are the numbers of the calls that made them. Different orders
can build the same tree. Some episodes may never be composed, so in general it is
a forest that is built.

A path leads from the root of a tree to one of its nodes. Where it goes into a
branch it picks up the value that selects the branch.
-/

import PlanNetwork.Program.Assembly
import PlanNetwork.Proofs.Composition.Branching

namespace PlanNetwork

/-- A call that makes one node of a tree. -/
inductive Node where
  /-- A primitive episode. -/
  | leaf (spec : EpisodeSpec)
  /-- Episodes one after the other. -/
  | sequence (children : List EpisodeId) (options : CompositionOptions)
  /-- Episodes side by side. -/
  | parallel (children : List EpisodeId) (options : CompositionOptions)
  /-- One of the episodes, by a new decision. -/
  | decide (spec : ChoiceSpec) (children : List EpisodeId) (options : CompositionOptions)
  /-- One of the episodes, by a new observation. -/
  | observe (spec : ChoiceSpec) (children : List EpisodeId) (options : CompositionOptions)

namespace Node

/-- The episodes that the call composes. -/
def children : Node → List EpisodeId
  | leaf _ => []
  | sequence children _ | parallel children _ | decide _ children _ | observe _ children _ =>
    children

/-- The values of the choice that the call makes, if it makes one. -/
def domain? : Node → Option (List String)
  | leaf _ | sequence .. | parallel .. => none
  | decide spec .. | observe spec .. => some spec.domain

/-- The id that the call asks for, if it does. -/
def id? : Node → Option String
  | leaf spec => spec.id
  | sequence .. | parallel .. | decide .. | observe .. => none

/-- The id that the caller gives, to a primitive episode or to a composite. -/
def given? : Node → Option String
  | leaf spec => spec.id
  | sequence _ options | parallel _ options | decide _ _ options | observe _ _ options => options.id

/-- The call. -/
def call : Node → Build EpisodeId
  | leaf spec => Build.addEpisode spec
  | sequence children options => Build.sequence (children.map .episode) options
  | parallel children options => Build.parallel (children.map .episode) options
  | decide spec children options => Build.decide spec (children.map .episode) options
  | observe spec children options => Build.observe spec (children.map .episode) options

/-- The call is as it should be: leaves are between new events and others can
follow them, composites have something inside, no event or id of a composite is
given, a choice has one value for each branch, and durations can be had. -/
def Plain : Node → Prop
  | leaf spec => spec.Plain
  | sequence children options | parallel children options => children ≠ [] ∧ options.Plain
  | decide spec children options =>
    (spec.kind = none ∨ spec.kind = some .controllable) ∧ spec.Plain ∧
      spec.domain.length = children.length ∧ options.Plain
  | observe spec children options =>
    (∃ kind, spec.kind = some kind ∧ kind ≠ .controllable) ∧ spec.Plain ∧
      spec.domain.length = children.length ∧ options.Plain

/-- The caller gives no events, and others can follow a primitive episode. -/
def Unanchored : Node → Prop
  | leaf spec => spec.Unanchored
  | sequence _ options | parallel _ options | decide _ _ options | observe _ _ options =>
    options.Unanchored

theorem Plain.given?_eq {node : Node} (plain : node.Plain) : node.given? = node.id? := by
  cases node with
  | leaf => rfl
  | sequence | parallel => exact plain.2.id
  | decide | observe => exact plain.2.2.2.id

end Node

/-- Make some nodes in turn, and return their handles. -/
def Build.all : List Node → Build (List EpisodeId)
  | [] => pure []
  | node :: rest => do
    let id ← node.call
    return id :: (← Build.all rest)

/-- The nodes are made from the leaves up and form trees. -/
structure BottomUp (nodes : List Node) : Prop where
  /-- Every call is as it should be. -/
  plain : ∀ node ∈ nodes, node.Plain
  /-- What is composed is there already. -/
  older : ∀ i (node : Node), nodes[i]? = some node → ∀ child ∈ node.children, child.index < i
  /-- Nothing is composed twice. -/
  once : (nodes.flatMap Node.children).Nodup
  /-- No id is asked for twice. -/
  distinct : (nodes.filterMap Node.id?).Nodup
  /-- No id is asked for that could be given to another episode by default. -/
  apart : ∀ id ∈ nodes.filterMap Node.id?, ∀ serial, id ≠ Identity.defaultId "Episode" serial

/-- What is composed is there already, and nothing is composed twice. -/
structure Treelike (nodes : List Node) : Prop where
  /-- What is composed is there already. -/
  older : ∀ i (node : Node), nodes[i]? = some node → ∀ child ∈ node.children, child.index < i
  /-- Nothing is composed twice. -/
  once : (nodes.flatMap Node.children).Nodup

theorem BottomUp.treelike {nodes : List Node} (bottomUp : BottomUp nodes) : Treelike nodes :=
  ⟨bottomUp.older, bottomUp.once⟩

/-- The episode has been made and not been composed. -/
def IsRoot (nodes : List Node) (id : EpisodeId) : Prop :=
  id.index < nodes.length ∧ id ∉ nodes.flatMap Node.children

namespace Network

/-- The choice by which a composite selects its branch. -/
def Decides (n : Network) (id : EpisodeId) (subject : ChoiceVariable) : Prop :=
  ∃ e c, n.episode id = .ok e ∧ n.choice e.start = .ok c ∧ c.subject = subject

/-- A path from a root down to an episode, with the values that select it. -/
inductive Path (n : Network) (nodes : List Node) (root : EpisodeId) :
    EpisodeId → List Literal → Prop where
  /-- The path that stays where it is. -/
  | root : Path n nodes root root []
  /-- Into one of the episodes that are all executed. -/
  | series {id child : EpisodeId} {literals : List Literal} {node : Node}
      (path : Path n nodes root id literals) (made : nodes[id.index]? = some node)
      (all : node.domain? = none) (inside : child ∈ node.children) :
      Path n nodes root child literals
  /-- Into the branch that a value selects. -/
  | branch {id child : EpisodeId} {literals : List Literal} {node : Node} {domain : List String}
      {value : String} {subject : ChoiceVariable} (path : Path n nodes root id literals)
      (made : nodes[id.index]? = some node) (one : node.domain? = some domain)
      (decides : n.Decides id subject) (inside : (value, child) ∈ domain.zip node.children) :
      Path n nodes root child (literals ++ [.is subject value])

end Network

end PlanNetwork
