/-
# One episode for each value of a choice

The choice event is the start, and the episode at a position runs if the
choice takes the value at that position. Branches that end the execution do
not reach the common end, which then exists where the choice takes none of
their values. If no branch reaches it, the whole ends the execution.
-/

import PlanNetwork.Composition.Options
import PlanNetwork.Composition.Propagation

namespace PlanNetwork

namespace Edit

/-- A link that applies under a literal as well as where both its events exist. -/
def linkWith (start finish : EventId) (literal : Literal) : Edit TemporalId := do
  let constraint ← link start finish (.precedence .infinity)
  addLiteral (.temporal constraint) literal
  return constraint

/-- What became of a branch: its links, and whether it ends the execution. -/
structure Branch where
  /-- The links from the choice and, if it gets there, to the common end. -/
  links : List TemporalId
  /-- The value that selects it. -/
  value : String
  /-- Whether it ends the execution. -/
  terminal : Bool

/-- Let an episode run where the choice takes a value. -/
def addBranch (choice finish : EventId) (subject : ChoiceVariable) (value : String)
    (id : EpisodeId) : Edit Branch := do
  let literal := Literal.is subject value
  propagate id (.ofLiteral literal)
  let episode ← Attempt.read (·.episode id)
  let opening ← linkWith choice episode.start literal
  if episode.terminal then
    return ⟨[opening], value, true⟩
  else
    let closing ← linkWith episode.finish finish literal
    return ⟨[opening, closing], value, false⟩

/-- Add some branches in turn. -/
def addBranches (choice finish : EventId) (subject : ChoiceVariable) :
    List (String × EpisodeId) → Edit (List Branch)
  | [] => pure []
  | (value, id) :: rest => do
    let branch ← addBranch choice finish subject value id
    return branch :: (← addBranches choice finish subject rest)

/-- A new episode that executes one of some episodes, by the value of a choice. -/
def branch (choice : EventId) (episodes : List EpisodeId) (options : CompositionOptions) :
    Edit EpisodeId := do
  let subject := (← Attempt.read (·.choice choice)).subject
  if subject.arity ≠ episodes.length then
    throw (.branchMismatch subject.label subject.arity episodes.length)
  atomically do
    let finish ← eventOrNew options.finish
    let branches ← addBranches choice finish subject (subject.domain.zip episodes)
    let ended := branches.filter (·.terminal)
    let terminal := ended.length == subject.arity
    if !terminal && !ended.isEmpty then
      setConjunction (.event finish) (.ofList (ended.map (.isNot subject ·.value)))
    addComposite options choice finish (.branching choice episodes)
      (branches.flatMap (·.links)) terminal

end Edit

end PlanNetwork
