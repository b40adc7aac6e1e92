/-
# Changing episodes

An episode can get another duration, more temporal constraints, and more state
constraints. A state constraint that holds between start and end of an episode
holds at the start, at the end and between in every episode inside it.
-/

import PlanNetwork.Network.Creation
import PlanNetwork.Network.Unfolding

namespace PlanNetwork

namespace Edit

/-- Give an episode another duration, between its own events. -/
def setDuration (id : EpisodeId) (spec : DurationSpec) : Edit TemporalId := do
  let episode ← Attempt.read (·.episode id)
  let duration ← addDuration episode.start episode.finish spec
  modify (·.modifyEpisode id ({ · with duration }))
  return duration

/-- Add an internal constraint to an episode. -/
def attachTemporal (id : EpisodeId) (constraint : TemporalId) : Edit Unit := do
  let _ ← Attempt.read (·.temporal constraint)
  let _ ← Attempt.read (·.episode id)
  modify (·.modifyEpisode id fun e => { e with constraints := e.constraints.insert constraint })

/-! ## State constraints -/

/-- When a state constraint holds in an episode. -/
inductive Span where
  /-- At the start. -/
  | start
  /-- At the end. -/
  | finish
  /-- Between start and end. -/
  | during
  /-- All the time. -/
  | overall
deriving DecidableEq

/-- The episode with a state constraint for the span. -/
def withState (span : Span) (constraint : StateConstraintId) (e : Episode) : Episode :=
  match span with
  | .start => { e with atStart := e.atStart.insert constraint }
  | .finish => { e with atFinish := e.atFinish.insert constraint }
  | .during => { e with during := e.during.insert constraint }
  | .overall =>
    { e with
      atStart := e.atStart.insert constraint
      atFinish := e.atFinish.insert constraint
      during := e.during.insert constraint }

/-- The network with a state constraint attached to each of the episodes, all
the time. -/
def attachOverall (constraint : StateConstraintId) (n : Network) (episodes : List EpisodeId) :
    Network :=
  episodes.foldl (fun n id => n.modifyEpisode id (withState .overall constraint)) n

/-- Add a state constraint to an episode. One that holds between start and end
goes into all episodes inside it as well. -/
def attachState (span : Span) (id : EpisodeId) (constraint : StateConstraintId) : Edit Unit := do
  let _ ← Attempt.read (·.state constraint)
  let _ ← Attempt.read (·.episode id)
  modify fun n =>
    let n' := n.modifyEpisode id (withState span constraint)
    match span with
    | .start | .finish => n'
    | .during | .overall => attachOverall constraint n' (n.unfolding id).tail

/-! ## Removing and refreshing temporal constraints -/

/-- The episodes whose duration is the constraint. -/
def episodesLasting (n : Network) (constraint : TemporalId) : List EpisodeId :=
  ((List.range n.episodes.size).filter fun i =>
    n.episodes[i]?.any (·.duration == constraint)).map Handle.mk

/-- New unconstrained durations for some episodes. -/
def replacementDurations : List EpisodeId → Edit (List (EpisodeId × TemporalId))
  | [] => pure []
  | id :: rest => do
    let episode ← Attempt.read (·.episode id)
    let duration ← addDuration episode.start episode.finish .unconstrained
    return (id, duration) :: (← replacementDurations rest)

/-- Take a constraint away from every episode. Episodes that it was the
duration of become unconstrained; the new durations are there before any
episode is changed. -/
def detachTemporal (constraint : TemporalId) : Edit Unit := do
  let lasting ← Attempt.read fun n => .ok (episodesLasting n constraint)
  let replacements ← replacementDurations lasting
  modify fun n =>
    { n with episodes := n.episodes.map fun e =>
        { e with constraints := e.constraints.erase constraint } }
  modify fun n => replacements.foldl
    (fun n (id, duration) => n.modifyEpisode id ({ · with duration })) n

/-- Let a constraint apply exactly where both its events exist now. -/
def refreshTemporal (id : TemporalId) : Edit Unit := do
  let constraint ← Attempt.read (·.temporal id)
  let support ← Attempt.read (·.endpointSupport constraint.start constraint.finish)
  setSupport (.temporal id) support

/-- Change the bounds of a constraint to others that are in order. -/
def setBounds (id : TemporalId) (lower upper : Number) : Edit Unit := do
  let _ ← Attempt.read (·.temporal id)
  Attempt.ofExcept (checkBounds lower upper)
  modify (·.modifyTemporal id fun c => { c with bounds := { c.bounds with lower, upper } })

end Edit

end PlanNetwork
