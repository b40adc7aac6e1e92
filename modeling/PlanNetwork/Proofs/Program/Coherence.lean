/-
# Coherence of the last traversal

Outside the bodies of fragments, what a program keeps of the last traversal is
what a traversal would meet now. So it is inside, once anything there has asked
for a new one. A body that starts with the result of a traversal outside finds
it still in place, though the plan and the user's constraints that it belongs to
have been set aside: what is read then is the traversal of a program that waits.

The user's constraints that a program has got are derived as long as a result is
kept, in bodies too, for a body starts without any.
-/

import PlanNetwork.Proofs.Program.Cache

namespace PlanNetwork

open Network

variable {p q : Program} {waiting : List Program} {t : Traversal} {allowed : Discipline}

namespace Program

/-- The result that is kept is that of a traversal of the program itself, or of
one that waits, with the elements there are now. -/
structure Coherent (p : Program) (waiting : List Program) (t : Traversal) : Prop where
  /-- It is what a traversal would meet. -/
  collected : ∃ r ∈ p :: waiting, r.traversal = some t ∧
    Traversal.collect p.network r.plan r.userConstraints = .ok t
  /-- The user's constraints apply where their events exist. -/
  derived : ∀ id ∈ p.userConstraints.toList, p.network.Derived id
  /-- The episodes are found by their ids. -/
  registered : ∀ id ∈ t.episodes.toList, p.Registered id

theorem Current.coherent (h : p.Current t) (waiting : List Program) : p.Coherent waiting t :=
  ⟨⟨p, List.mem_cons_self .., h.cached, h.collected⟩, h.derived, h.registered⟩

/-- What a result depends on may belong to a program that waits. -/
theorem Coherent.retains (h : p.Coherent waiting t) (retains : p.Retains q) :
    q.Coherent waiting t := by
  obtain ⟨⟨r, member, cached, collected⟩, derived, registered⟩ := h
  constructor
  · have again := Traversal.collect_of_reads retains.network.reads collected
    rcases List.mem_cons.mp member with rfl | outside
    · exact ⟨q, List.mem_cons_self .., retains.traversal.trans cached,
        by rwa [retains.plan, retains.userConstraints]⟩
    · exact ⟨r, List.mem_cons_of_mem _ outside, cached, again⟩
  · intro id member
    rw [retains.userConstraints] at member
    exact retains.network.derived (derived id member)
  · intro id member
    exact retains.registered (registered id member)

end Program

/-- A call keeps what is kept coherent. -/
theorem Program.Coherent.call {α : Type} (call : Call α) (idle : p.network.journal = none)
    (before : ∀ {t}, p.traversal = some t → p.Coherent waiting t)
    (cached : (call.run.after p).traversal = some t) : (call.run.after p).Coherent waiting t := by
  cases call.caches_run idle with
  | dropped none =>
    rw [none] at cached
    cases cached
  | renewed current =>
    obtain rfl := Option.some.inj (current.cached.symm.trans cached)
    exact current.coherent waiting
  | kept retains => exact (before (retains.traversal.symm.trans cached)).retains retains

/-- Whatever has been done, what is kept is coherent. -/
theorem Reached.coherent (reached : Reached allowed p waiting) (cached : p.traversal = some t) :
    p.Coherent waiting t := by
  induction reached generalizing t with
  | fresh valid =>
    obtain ⟨_, _, rfl⟩ := map_eq_ok_iff.mp valid
    cases cached
  | call call _ before ih =>
    exact Program.Coherent.call call (Program.Reachable.idle ⟨_, before⟩) ih cached
  | enter before ih =>
    -- the result outlives the plan and the constraints that are set aside
    obtain ⟨⟨r, member, kept, collected⟩, _, registered⟩ := ih cached
    exact ⟨⟨r, List.mem_cons_of_mem _ member, kept, collected⟩, nofun, registered⟩
  | leave _ _ => cases cached

/-- Outside of fragments, what is kept is what a traversal would meet. -/
theorem Reached.collected_outside (reached : Reached allowed p []) (cached : p.traversal = some t) :
    Traversal.collect p.network p.plan p.userConstraints = .ok t := by
  obtain ⟨r, member, _, collected⟩ := (reached.coherent cached).collected
  obtain rfl := List.mem_singleton.mp member
  exact collected

/-- What is read is what a traversal meets now, unless it was read before the
body of a fragment started and nothing has been asked anew. Then a program that
waits has the same result, and it is what a traversal of that one meets now. -/
theorem Reached.view_is_collected (reached : Reached .free p waiting)
    (viewed : Build.view p = .ok t q) :
    Traversal.collect q.network q.plan q.userConstraints = .ok t ∨
      p.traversal = some t ∧ ∃ r ∈ waiting, r.traversal = some t ∧
        Traversal.collect q.network r.plan r.userConstraints = .ok t := by
  rcases Build.view_eq_ok viewed with ⟨cached, rfl⟩ | ⟨_, current⟩
  · obtain ⟨r, member, kept, collected⟩ := (reached.coherent cached).collected
    rcases List.mem_cons.mp member with rfl | outside
    · exact .inl collected
    · exact .inr ⟨cached, r, outside, kept, collected⟩
  · exact .inl current.collected

/-- A plan of one episode that has been read. -/
def Program.readOnce : Program :=
  Call.view.run.after ((Call.setPlan (.episode ⟨0⟩)).run.after
    ((Call.addEpisode {}).run.after (.ofConfig {})))

theorem Program.reached_readOnce : Reached .free readOnce [] := by
  have start : Reached .free (.ofConfig {}) [] := reached_of_config (by decide +kernel)
  exact ((start.call (.addEpisode {}) trivial).call (.setPlan (.episode ⟨0⟩)) trivial).call
    .view trivial

theorem Program.exists_traversal_readOnce :
    ∃ t, readOnce.traversal = some t ∧ t.events.toList = [⟨0⟩, ⟨1⟩] := by
  have kept : readOnce.traversal.map (·.events.toList) = some [⟨0⟩, ⟨1⟩] := by decide +kernel
  exact Option.map_eq_some_iff.mp kept

/-- Outside of fragments the first case applies. -/
theorem Reached.view_is_collected_one_episode :
    ∃ t, Reached .free Program.readOnce [] ∧
      Build.view Program.readOnce = .ok t Program.readOnce ∧
      (Traversal.collect Program.readOnce.network Program.readOnce.plan
          Program.readOnce.userConstraints = .ok t ∨
        Program.readOnce.traversal = some t ∧ ∃ r ∈ ([] : List Program), r.traversal = some t ∧
          Traversal.collect Program.readOnce.network r.plan r.userConstraints = .ok t) := by
  obtain ⟨t, cached, _⟩ := Program.exists_traversal_readOnce
  have viewed := Build.view_of_cached cached
  exact ⟨t, Program.reached_readOnce, viewed, Program.reached_readOnce.view_is_collected viewed⟩

/-- A body starts with what was read outside, and with nothing to be met. -/
theorem Session.view_setAside (cached : p.traversal = some t) :
    Build.view (setAside p) = .ok t (setAside p) ∧
      Traversal.collect (setAside p).network (setAside p).plan (setAside p).userConstraints =
        .ok .empty := by
  have none : (∅ : OrdSet TemporalId).toList = [] := rfl
  exact ⟨Build.view_of_cached cached, by simp [Traversal.collect, setAside, none, pure,
    Except.pure, bind, Except.bind]⟩

/-- At the start of the body of a fragment there is no plan and there are no user
constraints, so a traversal would meet nothing. What is read there are the two
events of the episode outside. -/
theorem Reached.view_is_not_collected_in_body :
    ∃ p waiting t q, Reached .free p waiting ∧ Build.view p = .ok t q ∧
      t.events.toList = [⟨0⟩, ⟨1⟩] ∧
      Traversal.collect q.network q.plan q.userConstraints = .ok .empty := by
  obtain ⟨t, cached, events⟩ := Program.exists_traversal_readOnce
  obtain ⟨viewed, nothing⟩ := Session.view_setAside cached
  exact ⟨_, _, t, _, .enter Program.reached_readOnce, viewed, events, nothing⟩

/-- User guards are derived. In every program that has come about, in whatever
way, as long as it keeps the result of a traversal, the support of every
constraint of the user is the conjunction of the supports that its events have
now. After every successful view there is such a result. -/
theorem Program.user_guards_are_derived (reachable : p.Reachable .free) :
    (∀ t, p.traversal = some t → ∀ id ∈ p.userConstraints.toList, ∃ c first second,
      p.network.temporal id = .ok c ∧ p.network.support (.event c.start) = .ok first ∧
      p.network.support (.event c.finish) = .ok second ∧
      c.guard.support = first.and second) ∧
    ∀ t q, Build.view p = .ok t q → q.traversal = some t := by
  obtain ⟨waiting, reached⟩ := reachable
  constructor
  · intro t cached id member
    obtain ⟨c, found, both⟩ := (reached.coherent cached).derived id member
    obtain ⟨first, second, starts, finishes, narrowed⟩ := endpointSupport_eq_ok_iff.mp both
    exact ⟨c, first, second, found, starts, finishes, (Support.tryAnd_eq_ok_iff.mp narrowed).2⟩
  · intro t q viewed
    rcases Build.view_eq_ok viewed with ⟨cached, rfl⟩ | ⟨_, current⟩
    · exact cached
    · exact current.cached

namespace Program

/-- The choice of the route, as guards know it. -/
def route : ChoiceVariable := ⟨1, "route", .controllable, ["north", "south"]⟩

/-- The choice of the vehicle, as guards know it. -/
def vehicle : ChoiceVariable := ⟨2, "vehicle", .controllable, ["car", "bus"]⟩

/-- The user's constraint is between two events. After it has been made, each of the events
is put under a choice. -/
@[irreducible] def conditioned : Program :=
  (ofConfig {}).afterCalls [
    ⟨_, .addChoice
      { domain := ["north", "south"], id := some "route", kind := some .controllable }⟩,
    ⟨_, .addChoice { domain := ["car", "bus"], id := some "vehicle", kind := some .controllable }⟩,
    ⟨_, .addEvent⟩, ⟨_, .addEvent⟩, ⟨_, .addConstraint ⟨2⟩ ⟨3⟩ .unconstrained⟩,
    ⟨_, .edit (.narrow (.event ⟨2⟩) (.ofLiteral (.is route "north")))⟩,
    ⟨_, .edit (.narrow (.event ⟨3⟩) (.ofLiteral (.is vehicle "car")))⟩]

theorem reachable_conditioned : conditioned.Reachable .free := by
  unfold conditioned
  exact (reachable_of_config (by decide +kernel)).afterCalls fun _ _ => trivial

/-- Until a view derives the support of the constraint from its events, it is what it was
before they were put under the choices. -/
theorem user_guards_are_derived_one_constraint :
    let p := Call.view.run.after conditioned
    p.Reachable .free ∧ p.traversal.isSome = true ∧ p.userConstraints.toList = [⟨0⟩] ∧
    (∃ c, conditioned.network.temporal ⟨0⟩ = .ok c ∧
      c.guard.support.toList.map (·.toList) = [[]]) ∧
    (∃ c, p.network.temporal ⟨0⟩ = .ok c ∧
      c.guard.support.toList.map (·.toList) = [[.is route "north", .is vehicle "car"]]) ∧
    (∀ t, p.traversal = some t → ∀ id ∈ p.userConstraints.toList, ∃ c first second,
      p.network.temporal id = .ok c ∧ p.network.support (.event c.start) = .ok first ∧
      p.network.support (.event c.finish) = .ok second ∧
      c.guard.support = first.and second) ∧
    ∀ t q, Build.view p = .ok t q → q.traversal = some t := by
  intro p
  have reachable : p.Reachable .free := reachable_conditioned.call .view trivial
  have before : (conditioned.network.temporal ⟨0⟩).toOption.map
      (fun c => c.guard.support.toList.map (·.toList)) = some [[]] := by decide +kernel
  have after : (p.network.temporal ⟨0⟩).toOption.map
      (fun c => c.guard.support.toList.map (·.toList)) =
        some [[.is route "north", .is vehicle "car"]] := by decide +kernel
  obtain ⟨c, found, free⟩ := Option.map_eq_some_iff.mp before
  obtain ⟨d, found', derived⟩ := Option.map_eq_some_iff.mp after
  exact ⟨reachable, by decide +kernel, by decide +kernel, ⟨c, toOption_eq_some_iff.mp found, free⟩,
    ⟨d, toOption_eq_some_iff.mp found', derived⟩, user_guards_are_derived reachable⟩

end Program

end PlanNetwork
