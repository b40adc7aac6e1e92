/-
# Episodes side by side

All episodes of a parallel composition start after a common start and end
before a common end. The end exists only where the ends of all of them do, and
the links that lead to it apply exactly where it exists. No episode may end
the execution, for the others would not be finished.
-/

import PlanNetwork.Composition.Options

namespace PlanNetwork

namespace Edit

/-- Nothing, if all episodes are there and none ends the execution. -/
def checkNotTerminal (n : Network) : List EpisodeId → Except Fault Unit
  | [] => .ok ()
  | id :: rest => do
    let episode ← n.episode id
    if episode.terminal then throw (.terminalInParallel episode.identity.id)
    checkNotTerminal n rest

/-- Link an episode to the common events, and let the common end exist only
where the episode's does. The links come as a pair. -/
def joinBranch (start finish : EventId) (id : EpisodeId) : Edit (TemporalId × TemporalId) := do
  let episode ← Attempt.read (·.episode id)
  let opening ← link start episode.start (.precedence .infinity)
  let closing ← link episode.finish finish (.precedence .infinity)
  let support ← Attempt.read (·.support (.event episode.finish))
  narrow (.event finish) support
  return (opening, closing)

/-- Join some episodes in turn. -/
def joinBranches (start finish : EventId) : List EpisodeId → Edit (List (TemporalId × TemporalId))
  | [] => pure []
  | id :: rest => do
    let links ← joinBranch start finish id
    return links :: (← joinBranches start finish rest)

/-- A new episode that executes some episodes side by side. -/
def parallel (episodes : List EpisodeId) (options : CompositionOptions) : Edit EpisodeId := do
  if episodes.isEmpty then throw .parallelEmpty
  Attempt.read (checkNotTerminal · episodes)
  atomically do
    let start ← eventOrNew options.start
    let finish ← eventOrNew options.finish
    let links ← joinBranches start finish episodes
    let joint ← Attempt.read (·.support (.event finish))
    Attempt.each (fun link => setSupport (.temporal link.2) joint) links
    addComposite options start finish (.parallel episodes)
      (links.map (·.1) ++ links.map (·.2)) false

end Edit

end PlanNetwork
