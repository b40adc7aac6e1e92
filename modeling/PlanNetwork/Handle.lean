/-
# Handles

The elements of a network are numbered kind by kind, in the order in which
they were made. A handle is such a number together with the kind it counts, so
the handle of an event cannot be taken for that of an episode.
-/

namespace PlanNetwork

/-- The kinds of elements. -/
inductive ElementKind where
  /-- Instants, choices among them. -/
  | event
  /-- Activities between two events. -/
  | episode
  /-- Bounds on the time between two events. -/
  | temporal
  /-- Conditions on state variables. -/
  | state
  /-- Bounds on the risk of violating other constraints. -/
  | chance
  /-- State variables. -/
  | quantity
deriving DecidableEq

namespace ElementKind

/-- The word in front of the number of a handle. -/
def mark : ElementKind → String
  | .event => "event"
  | .episode => "episode"
  | .temporal => "temporal"
  | .state => "state"
  | .chance => "chance"
  | .quantity => "variable"

/-- The kind in a sentence. -/
def noun : ElementKind → String
  | .event => "event"
  | .episode => "episode"
  | .temporal => "temporal constraint"
  | .state => "state constraint"
  | .chance => "chance constraint"
  | .quantity => "state variable"

end ElementKind

/-- The number of an element among those of its kind. -/
structure Handle (kind : ElementKind) where
  /-- How many elements of the kind are older. -/
  index : Nat
deriving DecidableEq

namespace Handle

variable {kind : ElementKind}

instance : Inhabited (Handle kind) := ⟨⟨0⟩⟩

/-- Handles are ordered by age. -/
instance : Ord (Handle kind) := ⟨compareOn index⟩

instance : Std.TransOrd (Handle kind) := inferInstanceAs (Std.TransCmp (compareOn Handle.index))

/-- The handle in a message. -/
def text (h : Handle kind) : String := kind.mark ++ "#" ++ toString h.index

end Handle

/-- The handle of an event. -/
abbrev EventId := Handle .event

/-- The handle of an episode. -/
abbrev EpisodeId := Handle .episode

/-- The handle of a temporal constraint. -/
abbrev TemporalId := Handle .temporal

/-- The handle of a state constraint. -/
abbrev StateConstraintId := Handle .state

/-- The handle of a chance constraint. -/
abbrev ChanceId := Handle .chance

/-- The handle of a state variable. -/
abbrev VariableId := Handle .quantity

/-- An element that has a guard. -/
inductive Guarded where
  /-- An event. -/
  | event (id : EventId)
  /-- An episode. -/
  | episode (id : EpisodeId)
  /-- A temporal constraint. -/
  | temporal (id : TemporalId)
  /-- A state constraint. -/
  | state (id : StateConstraintId)
deriving DecidableEq

/-- What a chance constraint ranges over. -/
inductive ConstraintId where
  /-- A temporal constraint. -/
  | temporal (id : TemporalId)
  /-- A state constraint. -/
  | state (id : StateConstraintId)
  /-- Another chance constraint. -/
  | chance (id : ChanceId)
deriving DecidableEq

end PlanNetwork
