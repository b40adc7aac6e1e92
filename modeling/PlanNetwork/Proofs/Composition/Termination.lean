/-
# Where the execution ends

An episode says of itself whether it ends the execution. A composite is told when it
is made, from the episodes it is composed of: a sequence may end with an episode that
ends the execution and then ends it too, a parallel composition has no such episode,
and a branching ends the execution if all its branches do. Several composites may
have an episode in common, and it may have been composed long before.

None of this has to be derived again later. No operation changes what an episode is
composed of, nor whether it ends the execution, and a choice that a branching is
governed by stays as it is. What is refused puts no composite behind the others, since
this is the last thing that a composition does.
-/

import PlanNetwork.Proofs.Composition.Course
import PlanNetwork.Proofs.Program.Reachability

namespace PlanNetwork

open Network

variable {n m : Network} {L : Licence}

/-- The network of a program takes its course. -/
theorem Program.Reachable.course {allowed : Discipline} {p : Program} (h : p.Reachable allowed) :
    ∃ tolerance, Course .full (.empty tolerance) p.network := by
  obtain ⟨waiting, reached⟩ := h
  exact reached.respects_under (respectedUnder_course .full) fun call _ =>
    call.asksFor NetworkCall.within_full

namespace Network

/-- One move keeps to the discipline: what an episode is composed of is what it was, and
a composite that comes in has been composed as it should be. -/
theorem disciplined_of_move (move : Move L n m)
    (before : ∀ {id e}, n.episode id = .ok e → n.Disciplined e.composition e.terminal)
    {id : EpisodeId} {e : Episode} (found : m.episode id = .ok e) :
    m.Disciplined e.composition e.terminal := by
  rcases move.origin found with ⟨old, there, same, _⟩ | composed
  · rw [same.composition, same.terminal]
    exact (before there).stays move.stays
  · exact composed.flags.stays move.stays

/-- A course leads from a network without elements to composites that keep to the
discipline. -/
theorem disciplined_of_course {tolerance : Number} (course : Course L (.empty tolerance) n)
    {id : EpisodeId} {e : Episode} (found : n.episode id = .ok e) :
    n.Disciplined e.composition e.terminal := by
  induction course generalizing id e with
  | refl => simp [Network.empty, Network.episode, lookup] at found
  | tail _ move before => exact disciplined_of_move move before found

/-- In every network that can come about, by itself or in a program, an episode ends the
execution if what it is composed of makes it so: a sequence has no episode that ends the
execution but possibly its last, and ends it if and only if that one does; a parallel
composition does not end the execution, and no episode in it does; a branching has an
episode for each value of its choice, and ends the execution if and only if all of them
do. -/
theorem composites_are_disciplined {id : EpisodeId} {e : Episode}
    (reachable : n.Reachable ∨ ∃ p : Program, p.Reachable .free ∧ p.network = n)
    (found : n.episode id = .ok e) : n.Disciplined e.composition e.terminal := by
  have course : ∃ tolerance, Course .full (.empty tolerance) n := by
    rcases reachable with built | ⟨p, built, rfl⟩
    · exact built.course
    · exact built.course
  obtain ⟨tolerance, course⟩ := course
  exact disciplined_of_course course found

/-- A step, and then a branching that ends the execution whichever value is taken. The
calls for a parallel composition with a branch of it, and for a sequence that goes on
behind it, are refused. -/
@[irreducible] def fatal : Network :=
  (Network.empty .zero).afterCalls [
    ⟨_, .addChoice { domain := ["A", "B"], kind := some .controllable }⟩,
    ⟨_, .addEpisode { terminal := true }⟩, ⟨_, .addEpisode { terminal := true }⟩,
    ⟨_, .addEpisode {}⟩, ⟨_, .branch ⟨0⟩ [⟨0⟩, ⟨1⟩] {}⟩, ⟨_, .parallel [⟨2⟩, ⟨0⟩] {}⟩,
    ⟨_, .sequence [⟨3⟩, ⟨2⟩] {}⟩, ⟨_, .sequence [⟨2⟩, ⟨3⟩] {}⟩]

theorem reachable_fatal : fatal.Reachable := by
  unfold fatal
  exact (Reachable.empty _).afterCalls _

/-- A step and then a branching with nothing behind it end the execution together. -/
theorem composites_are_disciplined_fatal : fatal.Reachable ∧ fatal.episodes.size = 5 ∧
    ∃ composite branching, fatal.episode ⟨4⟩ = .ok composite ∧ fatal.episode ⟨3⟩ = .ok branching ∧
      composite.composition = .sequence [⟨2⟩, ⟨3⟩] ∧
      branching.composition = .branching ⟨0⟩ [⟨0⟩, ⟨1⟩] ∧
      composite.terminal = true ∧ branching.terminal = true ∧
      fatal.Disciplined composite.composition composite.terminal ∧
      fatal.Disciplined branching.composition branching.terminal := by
  have size : fatal.episodes.size = 5 := by decide +kernel
  have outer : (fatal.episode ⟨4⟩).toOption.map (fun e => (e.composition, e.terminal)) =
      some (.sequence [⟨2⟩, ⟨3⟩], true) := by decide +kernel
  have inner : (fatal.episode ⟨3⟩).toOption.map (fun e => (e.composition, e.terminal)) =
      some (.branching ⟨0⟩ [⟨0⟩, ⟨1⟩], true) := by decide +kernel
  obtain ⟨composite, found, told⟩ := Option.map_eq_some_iff.mp outer
  obtain ⟨branching, found', told'⟩ := Option.map_eq_some_iff.mp inner
  obtain ⟨composition, terminal⟩ := Prod.mk.inj told
  obtain ⟨composition', terminal'⟩ := Prod.mk.inj told'
  have found := toOption_eq_some_iff.mp found
  have found' := toOption_eq_some_iff.mp found'
  exact ⟨reachable_fatal, size, composite, branching, found, found', composition, composition',
    terminal, terminal', composites_are_disciplined (.inl reachable_fatal) found,
    composites_are_disciplined (.inl reachable_fatal) found'⟩

end Network

end PlanNetwork
