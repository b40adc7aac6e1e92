/-
# What a composition can be told
-/

import PlanNetwork.Network.Revision

namespace PlanNetwork

/-- Where the events at the ends of a sequence come from. -/
inductive SequenceMode where
  /-- They are those of the first and the last episode. -/
  | shared
  /-- They are new, and linked to those of the first and the last episode. -/
  | boundary
deriving DecidableEq

/-- The word for it in data. -/
def SequenceMode.text : SequenceMode → String
  | .shared => "optimized"
  | .boundary => "boundary_events"

/-- What a caller says about a composition. -/
structure CompositionOptions where
  /-- The event at the start, if one is given. -/
  start : Option EventId := none
  /-- The event at the end, if one is given. -/
  finish : Option EventId := none
  /-- Whether the episodes of a sequence follow each other without a gap. -/
  noWait : Option Bool := none
  /-- Where the events at the ends of a sequence come from. -/
  mode : Option SequenceMode := none
  /-- The id of the composite, if not the default. -/
  id : Option String := none
  /-- The name of the composite, if not the default. -/
  name : Option String := none
  /-- What is done, in words. -/
  action : Option String := none
  /-- The duration of the composite, if it is constrained. -/
  duration : Option DurationSpec := none

namespace CompositionOptions

/-- Fill in what was not said. -/
def inherit (o : CompositionOptions) (noWait : Bool) (mode : SequenceMode) : CompositionOptions :=
  { o with noWait := some (o.noWait.getD noWait), mode := some (o.mode.getD mode) }

/-- The greatest gap between the episodes of a sequence. -/
def gap (o : CompositionOptions) : Number := if o.noWait.getD false then .zero else .infinity

end CompositionOptions

namespace Edit

/-- A new composite episode. -/
def addComposite (options : CompositionOptions) (start finish : EventId)
    (composition : Composition) (constraints : List TemporalId) (terminal : Bool) :
    Edit EpisodeId := do
  let identity ← allocateAs "Episode" options.id options.name
  let draft : EpisodeDraft :=
    { identity, start, finish, composition, terminal
      duration := options.duration.getD .unconstrained
      action := options.action.getD ""
      constraints := .ofList constraints }
  addDraft draft id

end Edit

end PlanNetwork
