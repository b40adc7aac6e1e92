/-
# The episodes inside an episode

An episode contains its internal episodes, these contain theirs, and so on. An
internal episode is older than the composite it is in, so following internal
episodes goes to ever smaller handles and comes to an end. The walks below are
written so that they see this: they follow an internal episode only if it is
older.

An episode that is reached along two ways is met twice.
-/

import PlanNetwork.Network.Basic

namespace PlanNetwork

namespace Network

/-- The internal episodes of an episode that are older than it is. -/
def internalEpisodes (n : Network) (id : EpisodeId) : List EpisodeId :=
  match n.episodes[id.index]? with
  | none => []
  | some episode => episode.composition.episodes.filter fun child => decide (child.index < id.index)

/-- The episodes met from `id` on within `depth` levels, each one before those
inside it. -/
def unfoldingTo (n : Network) : Nat → EpisodeId → List EpisodeId
  | 0, id => [id]
  | depth + 1, id => id :: (n.internalEpisodes id).flatMap (n.unfoldingTo depth)

/-- The episode and all episodes inside it. As many levels as there are older
episodes are enough. -/
def unfolding (n : Network) (id : EpisodeId) : List EpisodeId := n.unfoldingTo id.index id

/-- Visit an episode and all within `depth` levels in the same order, and stop
at the first fault. -/
def visitTo {β : Type} (n : Network) (visit : β → EpisodeId → Except Fault β) :
    Nat → β → EpisodeId → Except Fault β
  | 0, b, id => visit b id
  | depth + 1, b, id => do
    let b ← visit b id
    (n.internalEpisodes id).foldlM (n.visitTo visit depth) b

/-- Visit an episode and all episodes inside it, and stop at the first fault. -/
def visitUnfolding {β : Type} (n : Network) (visit : β → EpisodeId → Except Fault β) (b : β)
    (id : EpisodeId) : Except Fault β :=
  n.visitTo visit id.index b id

/-- Every temporal constraint inside an episode, durations included. -/
def allTemporals (n : Network) (id : EpisodeId) : Except Fault (OrdSet TemporalId) :=
  n.visitUnfolding
    (fun found e =>
      (n.episode e).map fun episode => found.union episode.constraintsAndDuration) ∅ id

/-- Every state constraint attached to an episode or to one inside it. -/
def allStates (n : Network) (id : EpisodeId) : Except Fault (OrdSet StateConstraintId) :=
  n.visitUnfolding
    (fun found e => (n.episode e).map fun episode => found.union episode.stateConstraints) ∅ id

end Network

end PlanNetwork
