/-
# One episode after the other

Each episode of a sequence is linked to the next one, which exists only where
the end of the one before it does. An episode that ends the execution can only
come last, and then the sequence ends it too.
-/

import PlanNetwork.Composition.Options
import PlanNetwork.Composition.Propagation

namespace PlanNetwork

namespace Edit

/-- The events at the ends of a sequence whose inner events are given, with the
links that lead to them so far. -/
def openSequence (options : CompositionOptions) (firstStart lastFinish : EventId) :
    Edit (EventId × EventId × List TemporalId) := do
  match options.mode.getD .shared with
  | .shared =>
    return (options.start.getD firstStart, options.finish.getD lastFinish, [])
  | .boundary =>
    let start ← eventOrNew options.start
    let finish ← eventOrNew options.finish
    let constraint ← link start firstStart (.precedence options.gap)
    return (start, finish, [constraint])

/-- Let `second` follow `first`, with a link under the support of the end of
`first`. -/
def follow (gap : Number) (first second : EpisodeId) : Edit TemporalId := do
  let before ← Attempt.read (·.episode first)
  if before.terminal then throw (.terminalInSequence before.identity.id)
  let support ← Attempt.read (·.support (.event before.finish))
  propagate second support
  let after ← Attempt.read (·.episode second)
  let support ← Attempt.read (·.support (.event before.finish))
  linkUnder before.finish after.start (.precedence gap) support

/-- Let each episode of a list follow the one before it. -/
def followAll (gap : Number) : List EpisodeId → Edit (List TemporalId)
  | first :: second :: rest => do
    let constraint ← follow gap first second
    return constraint :: (← followAll gap (second :: rest))
  | _ => pure []

/-- Link the end of the last episode to the end of the sequence where the two
are different events; the end then exists where the last episode's does. -/
def closeSequence (options : CompositionOptions) (lastFinish finish : EventId) :
    Edit (List TemporalId) := do
  match options.mode.getD .shared with
  | .shared => return []
  | .boundary =>
    let support ← Attempt.read (·.support (.event lastFinish))
    setSupport (.event finish) support
    let constraint ← linkUnder lastFinish finish (.precedence options.gap) support
    return [constraint]

/-- A new episode that executes some episodes one after the other. -/
def sequence (episodes : List EpisodeId) (options : CompositionOptions) : Edit EpisodeId :=
  match episodes.head?, episodes.getLast? with
  | some first, some last =>
    atomically do
      let firstEpisode ← Attempt.read (·.episode first)
      let lastEpisode ← Attempt.read (·.episode last)
      let (start, finish, opening) ←
        openSequence options firstEpisode.start lastEpisode.finish
      let links ← followAll options.gap episodes
      let closing ← closeSequence options lastEpisode.finish finish
      addComposite options start finish (.sequence episodes) (opening ++ links ++ closing)
        lastEpisode.terminal
  | _, _ => throw .sequenceEmpty

end Edit

end PlanNetwork
