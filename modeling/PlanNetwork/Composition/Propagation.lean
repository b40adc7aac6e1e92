/-
# Narrowing an episode as a whole

An episode exists only where its parts do. Narrowing it narrows its events and
its duration, and for a composite also its internal constraints and the
episodes inside it, down to the primitive ones.
-/

import PlanNetwork.Network.Revision

namespace PlanNetwork

namespace Network

/-- The elements of one episode that are narrowed with it, apart from the
episodes inside it. Constraints that were attached to a primitive episode are
not among them. -/
def ownParts (n : Network) (id : EpisodeId) : List Guarded :=
  match n.episodes[id.index]? with
  | none => []
  | some episode =>
    [.episode id, .event episode.start, .event episode.finish, .temporal episode.duration] ++
      if episode.isPrimitive then [] else episode.constraints.toList.map .temporal

/-- All elements that are narrowed with an episode, in order. -/
def parts (n : Network) (id : EpisodeId) : List Guarded := (n.unfolding id).flatMap n.ownParts

end Network

namespace Edit

/-- Narrow an episode and everything inside it, or nothing. -/
def propagate (id : EpisodeId) (support : Support) : Edit Unit :=
  atomically do
    let _ ← Attempt.read (·.episode id)
    let parts ← Attempt.read fun n => .ok (n.parts id)
    Attempt.each (narrow · support) parts

end Edit

end PlanNetwork
