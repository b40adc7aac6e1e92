/-
# Whether constraints are between events of the program

A traversal meets the events at both ends of every episode in the plan, and of every
constraint of the user. The constraints that are made for an episode are between such
events: its duration spans it, and what holds a composite together is between its ends
and the ends of the episodes right inside it. These are in the plan if it is.

Callers may give any constraint to any episode. Where its events are is not looked at,
neither then nor by a traversal, which meets the constraint without them. So what a
program has for constraints is between what it has for events, but for constraints that
callers have given to episodes.

In the body of a fragment a result may be read that belongs to a program that waits. No
constraint of the user has been added since, or it would have been forgotten.
-/

import PlanNetwork.Proofs.Composition.Course
import PlanNetwork.Proofs.Program.Active
import PlanNetwork.Proofs.Program.Recursion

namespace PlanNetwork

open Network

variable {n m : Network} {p q : Program} {waiting : List Program} {L : Licence} {id : EpisodeId}
  {e : Episode} {t : Traversal} {plan : Option EpisodeId} {user : OrdSet TemporalId}
  {allowed : Discipline}

/-! ## The constraints of episodes -/

namespace Network

/-- A constraint of an episode is inside it, or a caller has given it to the episode. -/
theorem encloses_of_course {tolerance : Number} (course : Course L (.empty tolerance) n)
    (found : n.episode id = .ok e) {c : TemporalId} (member : c ∈ e.constraints.toList) :
    n.Encloses e c ∨ L.attach id c := by
  induction course generalizing id e with
  | refl => simp [Network.empty, Network.episode, lookup] at found
  | tail _ move ih =>
    rcases move.origin found with ⟨old, there, same, constraints⟩ | composed
    · rcases constraints c member with before | given
      · exact (ih there before).imp_left fun inside => (inside.stays move.stays).resembles same
      · exact .inr given
    · exact .inl ((composed.links c member).stays move.stays)

end Network

/-! ## What a traversal meets -/

namespace Traversal

/-- The constraint is between events that have been met. -/
def MeetsEnds (n : Network) (t : Traversal) (id : TemporalId) : Prop :=
  ∃ c, n.temporal id = .ok c ∧ c.start ∈ t.events.toList ∧ c.finish ∈ t.events.toList

/-- A constraint that an episode of the traversal has from a caller. -/
def Handed (given : EpisodeId → TemporalId → Prop) (n : Network) (t : Traversal)
    (id : TemporalId) : Prop :=
  ∃ x ∈ t.episodes.toList, ∃ e, n.episode x = .ok e ∧ id ∈ e.constraints.toList ∧ given x id

theorem MeetsEnds.reads {c : TemporalId} (h : t.MeetsEnds n c) (reads : n.Reads m) :
    t.MeetsEnds m c := by
  obtain ⟨c, found, starts, finishes⟩ := h
  obtain ⟨_, _, found'⟩ := reads.temporal found
  exact ⟨_, found', starts, finishes⟩

/-- A walk over constraints finds each of them. -/
theorem exists_of_meetEndpoints {ids : List TemporalId} {t' : Traversal}
    (done : ids.foldlM (meetEndpoints n) t = .ok t') : ∀ id ∈ ids, ∃ c, n.temporal id = .ok c := by
  induction ids generalizing t with
  | nil => nofun
  | cons id rest ih =>
    rw [List.foldlM_cons] at done
    obtain ⟨_, first, later⟩ := Network.bind_eq_ok_iff.mp done
    obtain ⟨c, found, _⟩ := meetEndpoints_eq_ok_iff.mp first
    exact List.forall_mem_cons.mpr ⟨⟨c, found⟩, ih later⟩

/-- The events of the user's constraints are met. -/
theorem meetsEnds_of_user (done : collect n plan user = .ok t) {id : TemporalId}
    (member : id ∈ user.toList) : t.MeetsEnds n id := by
  obtain ⟨inner, planned, rest⟩ := collect_eq_ok_iff.mp done
  obtain ⟨c, found⟩ := exists_of_meetEndpoints rest id member
  have met {event : EventId} (there : event = c.start ∨ event = c.finish) :
      event ∈ t.events.toList :=
    (mem_events_of_meetEndpoints rest).mpr (.inr ⟨id, member, c, found, there⟩)
  exact ⟨c, found, met (.inl rfl), met (.inr rfl)⟩

/-- The events at the ends of an episode of the plan are met, and so are those of the
episodes right inside it. -/
theorem mem_events_of_borders (whole : n.WellFormed) (done : collect n plan user = .ok t)
    (inside : id ∈ n.unfoldingOf plan) (found : n.episode id = .ok e) {event : EventId}
    (borders : n.Borders e event) : event ∈ t.events.toList := by
  obtain ⟨inner, planned, rest⟩ := collect_eq_ok_iff.mp done
  have ends {x : EpisodeId} {f : Episode} (inside : x ∈ n.unfoldingOf plan)
      (found : n.episode x = .ok f) (there : event = f.start ∨ event = f.finish) :
      event ∈ t.events.toList :=
    (mem_events_of_meetEndpoints rest).mpr
      (.inl ((mem_events_of_meetEpisodes planned).mpr (.inr ⟨x, inside, f, found, there⟩)))
  rcases borders with starts | finishes | ⟨child, directly, f, found', there⟩
  · exact ends inside found (.inl starts)
  · exact ends inside found (.inr finishes)
  · refine ends ?_ found' there
    cases plan with
    | none => cases inside
    | some root =>
      rw [← whole.internalEpisodes_eq found] at directly
      exact mem_unfolding_of_mem_internalEpisodes inside directly

/-- A constraint of the plan is between events that are met, or a caller has given it to
an episode. -/
theorem meetsEnds_of_collect (whole : n.WellFormed) {tolerance : Number}
    (course : Course L (.empty tolerance) n) (done : collect n plan user = .ok t)
    {c : TemporalId} (member : c ∈ t.constraints.toList) :
    t.MeetsEnds n c ∨ t.Handed L.attach n c := by
  obtain ⟨walkable, met⟩ := met_of_collect done
  obtain ⟨x, inside, own⟩ := ((met.constraints c).mp member).resolve_left OrdSet.not_mem_empty
  obtain ⟨e, found⟩ := walkable.there x inside
  rcases (mem_ownConstraints_iff found).mp own with rfl | internal
  · obtain ⟨c, there, start, finish⟩ := (whole.episode found).duration
    refine .inl ⟨c, there, ?_, ?_⟩
    · exact mem_events_of_borders whole done inside found (.inl start)
    · exact mem_events_of_borders whole done inside found (.inr (.inl finish))
  · rcases encloses_of_course course found internal with ⟨c, there, starts, finishes⟩ | given
    · exact .inl ⟨c, there, mem_events_of_borders whole done inside found starts,
        mem_events_of_borders whole done inside found finishes⟩
    · exact .inr ⟨x, (met.episodes x).mpr (.inr inside), e, found, internal, given⟩

end Traversal

/-! ## What is kept of a traversal -/

/-- As long as a result is kept, the events of the user's constraints are in it. -/
theorem Reached.meetsEnds_of_cached (reached : Reached allowed p waiting)
    (cached : p.traversal = some t) {c : TemporalId} (member : c ∈ p.userConstraints.toList) :
    t.MeetsEnds p.network c := by
  induction reached generalizing t with
  | fresh valid =>
    obtain ⟨_, _, rfl⟩ := map_eq_ok_iff.mp valid
    cases cached
  | call call _ before ih =>
    cases call.caches_run (Program.Reachable.idle ⟨_, before⟩) with
    | dropped none =>
      rw [none] at cached
      cases cached
    | renewed current =>
      obtain rfl := Option.some.inj (current.cached.symm.trans cached)
      exact Traversal.meetsEnds_of_user current.collected member
    | kept retains =>
      rw [retains.userConstraints] at member
      exact (ih (retains.traversal.symm.trans cached) member).reads retains.network.reads
  | enter before ih => cases member
  | leave _ _ => cases cached

/-- Callers give an episode a constraint only if it is among those given. -/
def Discipline.attaching (given : EpisodeId → TemporalId → Prop) : Discipline :=
  fun _ call => call.AsksFor fun _ call =>
    call.Within ⟨fun _ => True, fun _ => True, given⟩

/-- In every program that comes about, whatever has been refused: if its temporal
constraints can be read, then so can its events, and both events of each constraint are
among them, unless a caller has given the constraint to an episode of the traversal. -/
theorem Program.constraints_are_between_events {given : EpisodeId → TemporalId → Prop}
    (reachable : p.Reachable (.attaching given)) {ids : OrdSet TemporalId}
    (read : Build.constraints p = .ok ids q) :
    ∃ t, Build.view q = .ok t q ∧
      ∀ id ∈ ids.toList, t.MeetsEnds q.network id ∨ t.Handed given q.network id := by
  obtain ⟨t, viewed, rfl⟩ := Build.constraints_eq_ok_iff.mp read
  have reachable' : q.Reachable (.attaching given) :=
    Attempt.after_of_ok viewed ▸ reachable.call .view trivial
  obtain ⟨cached, _⟩ := Build.has_of_view reachable viewed
  obtain ⟨waiting, reached⟩ := reachable'
  obtain ⟨tolerance, course⟩ := reached.respects_under (respectedUnder_course _) fun _ => id
  obtain ⟨r, _, _, collected⟩ := (reached.coherent cached).collected
  refine ⟨t, Build.view_of_cached cached, fun id member => ?_⟩
  rcases OrdSet.mem_union_iff.mp member with inside | users
  · exact Traversal.meetsEnds_of_collect (Program.Reachable.wellFormed ⟨_, reached⟩) course
      collected inside
  · exact .inl (reached.meetsEnds_of_cached cached users)

namespace Program

/-- Two steps, one after the other, with a constraint of the user from the first to the
last event. A caller has given the first step a constraint between two events that
belong to nothing else. -/
@[irreducible] def handed : Program :=
  (ofConfig {}).afterCalls [⟨_, .addEvent⟩, ⟨_, .addEvent⟩,
    ⟨_, .edit (.addTemporal ⟨0⟩ ⟨1⟩ .unconstrained)⟩, ⟨_, .addEpisode {}⟩, ⟨_, .addEpisode {}⟩,
    ⟨_, .sequence [.episode ⟨0⟩, .episode ⟨1⟩] {}⟩, ⟨_, .setPlan (.episode ⟨2⟩)⟩,
    ⟨_, .addConstraint ⟨2⟩ ⟨5⟩ .unconstrained⟩, ⟨_, .edit (.attachTemporal ⟨0⟩ ⟨0⟩)⟩]

theorem reachable_handed :
    handed.Reachable (.attaching fun x c => x = ⟨0⟩ ∧ c = ⟨0⟩) := by
  unfold handed
  exact (reachable_of_config (by decide +kernel)).afterCalls
    (by simp [Discipline.attaching, Call.AsksFor, NetworkCall.Within])

/-- Besides the constraint that the caller has given there are five: three durations, the
link between the steps, and the constraint of the user. -/
theorem constraints_handed : ∃ ids,
    Build.constraints handed = .ok ids (Build.constraints.after handed) ∧
      ids.toList = [⟨0⟩, ⟨1⟩, ⟨2⟩, ⟨3⟩, ⟨4⟩, ⟨5⟩] := by
  have listed : (Attempt.result? Build.constraints handed).map (·.toList) =
      some [⟨0⟩, ⟨1⟩, ⟨2⟩, ⟨3⟩, ⟨4⟩, ⟨5⟩] := by decide +kernel
  obtain ⟨ids, read, list⟩ := Option.map_eq_some_iff.mp listed
  exact ⟨ids, Attempt.eq_ok_of_result? read, list⟩

theorem constraints_are_between_events_handed : ∃ ids q t,
    Build.constraints handed = .ok ids q ∧ Build.view q = .ok t q ∧
      ids.toList = [⟨0⟩, ⟨1⟩, ⟨2⟩, ⟨3⟩, ⟨4⟩, ⟨5⟩] ∧
      ∀ id ∈ ids.toList, t.MeetsEnds q.network id ∨
        t.Handed (fun x c => x = ⟨0⟩ ∧ c = ⟨0⟩) q.network id := by
  obtain ⟨ids, read, list⟩ := constraints_handed
  obtain ⟨t, viewed, met⟩ := constraints_are_between_events reachable_handed read
  exact ⟨ids, _, t, read, viewed, list, met⟩

/-- The constraint that the caller has given is read, and its events are not. -/
theorem constraint_without_events_handed : handed.Reachable .free ∧ ∃ ids q t r c,
    Build.constraints handed = .ok ids q ∧ Build.view q = .ok t r ∧
      (⟨0⟩ : TemporalId) ∈ ids.toList ∧ q.network.temporal ⟨0⟩ = .ok c ∧
      c.start ∉ t.events.toList ∧ c.finish ∉ t.events.toList := by
  have reachable : handed.Reachable .free := by
    unfold handed
    exact (reachable_of_config (by decide +kernel)).afterCalls fun _ _ => trivial
  obtain ⟨ids, read, list⟩ := constraints_handed
  have met : (Attempt.result? Build.view (Build.constraints.after handed)).map
      (·.events.toList) = some [⟨2⟩, ⟨3⟩, ⟨4⟩, ⟨5⟩] := by decide +kernel
  obtain ⟨t, viewed, events⟩ := Option.map_eq_some_iff.mp met
  have ends : ((Build.constraints.after handed).network.temporal ⟨0⟩).toOption.map
      (fun c => (c.start, c.finish)) = some (⟨0⟩, ⟨1⟩) := by decide +kernel
  obtain ⟨c, found, at_ends⟩ := Option.map_eq_some_iff.mp ends
  obtain ⟨start, finish⟩ := Prod.mk.inj at_ends
  refine ⟨reachable, ids, _, t, _, c, read, Attempt.eq_ok_of_result? viewed, ?_,
    toOption_eq_some_iff.mp found, ?_, ?_⟩
  · rw [list]
    exact List.mem_cons_self ..
  · rw [start, events]
    decide
  · rw [finish, events]
    decide

end Program

end PlanNetwork
