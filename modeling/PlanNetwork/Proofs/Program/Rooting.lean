/-
# The plan and the user's constraints are there

A program names an episode as its plan and constraints as the user's. What it names is
there. A composition that succeeds has registered the episode that it returns and has
derived the guards of the constraints that it takes over, so it has met them. A constraint
that is added is made first, and one that is registered is looked up first. Nothing ever
goes away, and the body of a fragment gives back what was there before it.

So the walk over a plan is never refused for the want of an element.
-/

import PlanNetwork.Proofs.Program.Registry
import PlanNetwork.Proofs.Program.Removal

namespace PlanNetwork

open Network

variable {p q : Program} {waiting : List Program} {allowed : Discipline} {id : EpisodeId} {α : Type}

namespace Program

/-- What the program names is there. -/
structure Rooted (p : Program) : Prop where
  /-- The plan is an episode. -/
  plan : ∀ {id}, p.plan = some id → id.index < p.network.episodes.size
  /-- The user's constraints are constraints. -/
  user : ∀ c ∈ p.userConstraints.toList, c.index < p.network.temporals.size

/-- What the second program names the first one has named, or it is there. -/
structure Adopts (p q : Program) : Prop where
  /-- This is so of the plan. -/
  plan : ∀ {id}, q.plan = some id → p.plan = some id ∨ id.index < q.network.episodes.size
  /-- This is so of the user's constraints. -/
  user : ∀ c ∈ q.userConstraints.toList,
    c ∈ p.userConstraints.toList ∨ c.index < q.network.temporals.size

theorem Rooted.adopts (h : p.Rooted) (covers : Covers p.network q.network) (adopts : p.Adopts q) :
    q.Rooted where
  plan named := (adopts.plan named).elim
    (fun old => Nat.lt_of_lt_of_le (h.plan old) covers.episodes) id
  user c member := (adopts.user c member).elim
    (fun old => Nat.lt_of_lt_of_le (h.user c old) covers.temporals) id

theorem Adopts.of_same (plan : q.plan = p.plan)
    (user : q.userConstraints.toList ⊆ p.userConstraints.toList) : p.Adopts q :=
  ⟨fun named => .inl (plan ▸ named), fun _ member => .inl (user member)⟩

theorem Looks.adopts (h : p.Looks q) : p.Adopts q :=
  .of_same h.plan (by rw [h.userConstraints]; exact List.Subset.refl _)

theorem Preserves.adopts (h : p.Preserves q) : p.Adopts q :=
  .of_same h.plan (by rw [h.userConstraints]; exact List.Subset.refl _)

theorem Sustains.adopts (h : p.Sustains q) : p.Adopts q := by
  rcases h with kept | forgotten
  · exact kept.adopts
  · exact ⟨forgotten.adopts.plan, forgotten.adopts.user⟩

end Program

namespace Build

/-- The program adopts nothing else than its own, whatever the outcome. -/
def Adopts (op : Build α) (p : Program) : Prop := p.Adopts (op.after p)

theorem adopts_of_outcomes {op : Build α} (succeeds : ∀ a q, op p = .ok a q → p.Adopts q)
    (refused : ∀ fault q, op p = .error fault q → p.Sustains q) : Adopts op p := by
  cases result : op p with
  | ok a q =>
    rw [Adopts, Attempt.after_of_ok result]
    exact succeeds a q result
  | error fault q =>
    rw [Adopts, Attempt.after_of_error result]
    exact (refused fault q result).adopts

/-! ## Compositions -/

/-- A composition that succeeds has derived the guards of the constraints that it takes
over, so they are there. The plan is the same. -/
theorem adopts_of_assemble {components : List Component} {op : List EpisodeId → Edit EpisodeId}
    (idle : p.network.journal = none) (done : assemble components op p = .ok id q) :
    p.Adopts q := by
  obtain ⟨episodes, absorbed, k, _, _, made, rfl⟩ := assemble_eq_ok done
  obtain ⟨r, steps, rfl⟩ := atomically_eq_ok idle made
  obtain ⟨_, _, written, steps⟩ := Attempt.bind_eq_ok_iff.mp steps
  obtain ⟨m, composed, rfl⟩ := Attempt.focus_eq_ok_iff.mp written
  obtain ⟨_, _, registered, returned⟩ := Attempt.bind_eq_ok_iff.mp steps
  obtain ⟨rfl, rfl⟩ := Attempt.pure_eq_ok_iff.mp returned
  obtain ⟨_, _, _, later⟩ := Attempt.bind_eq_ok_iff.mp composed
  obtain ⟨_, _, refreshed, ended⟩ := Attempt.bind_eq_ok_iff.mp later
  obtain ⟨_, rfl⟩ := Attempt.pure_eq_ok_iff.mp ended
  have looks := (looks_register _).of_ok registered
  refine ⟨fun named => .inl (looks.plan ▸ named), fun c member => ?_⟩
  rcases OrdSet.mem_union_iff.mp member with old | taken
  · exact .inl (looks.userConstraints ▸ old)
  · obtain ⟨_, there, _⟩ := (Edit.refreshed_each refreshed).inside c taken
    have same : r.network = m := congrArg Program.network (enrolled_of_register registered).same
    rw [← same] at there
    exact .inr (lookup_index_lt there)

/-- The options of a composition are filled in first. -/
theorem adopts_of_composition {components : List Component} {options : CompositionOptions}
    {op : CompositionOptions → List EpisodeId → Edit EpisodeId} (idle : p.network.journal = none)
    (done : (inherited options >>= fun filled => assemble components (op filled)) p = .ok id q) :
    p.Adopts q := by
  obtain ⟨_, composed⟩ := of_inherited_eq_ok done
  exact adopts_of_assemble idle composed

/-- What has been found is named from now on. -/
theorem adopts_planned (adopts : p.Adopts q) (registered : q.Registered id) :
    p.Adopts { q with plan := some id } := by
  obtain ⟨e, there, _⟩ := registered
  exact ⟨fun named => .inr (Option.some.inj named ▸ lookup_index_lt there), adopts.user⟩

theorem adopts_of_extendPlan (compose : List Component → CompositionOptions → Build EpisodeId)
    (composes : ∀ {components options id k}, compose components options p = .ok id k →
      p.Adopts k ∧ k.Registered id)
    (idle : p.network.journal = none) {component : Component}
    (done : extendPlan compose component p = .ok id q) : p.Adopts q := by
  rw [extendPlan_apply] at done
  obtain ⟨_, k, first, rest⟩ := Attempt.bind_eq_ok_iff.mp done
  obtain ⟨_, _, changed, returned⟩ := Attempt.bind_eq_ok_iff.mp rest
  obtain rfl := Attempt.modify_eq_ok_iff.mp changed
  obtain ⟨rfl, rfl⟩ := Attempt.pure_eq_ok_iff.mp returned
  have composed : p.Adopts k ∧ k.Registered id := by
    cases planned : p.plan with
    | none =>
      rw [planned] at first
      have adopted : adopt component p = .ok id k := first
      exact ⟨adopts_of_assemble idle adopted, registered_of_assemble adopted⟩
    | some old =>
      rw [planned] at first
      exact composes first
  exact adopts_planned composed.1 composed.2

theorem adopts_of_setPlan {component : Component} {u : Unit} (idle : p.network.journal = none)
    (done : setPlan component p = .ok u q) : p.Adopts q := by
  obtain ⟨_, _, adopted, changed⟩ := Attempt.bind_eq_ok_iff.mp done
  obtain rfl := Attempt.modify_eq_ok_iff.mp changed
  exact adopts_planned (adopts_of_assemble idle adopted) (registered_of_assemble adopted)

/-! ## The user's constraints -/

theorem adopts_adopted {c : TemporalId} (there : c.index < p.network.temporals.size) :
    p.Adopts { p with userConstraints := p.userConstraints.insert c, traversal := none } := by
  refine ⟨.inl, fun other member => ?_⟩
  rcases OrdSet.mem_insert_iff.mp member with rfl | old
  · exact .inr there
  · exact .inl old

theorem adopts_of_addConstraint {start finish : EventId} {spec : DurationSpec} {c : TemporalId}
    (done : addConstraint start finish spec p = .ok c q) : p.Adopts q := by
  obtain ⟨_, _, made, rest⟩ := Attempt.bind_eq_ok_iff.mp done
  obtain ⟨n, added, rfl⟩ := Attempt.focus_eq_ok_iff.mp made
  obtain ⟨_, _, adopted, returned⟩ := Attempt.bind_eq_ok_iff.mp rest
  obtain rfl := Attempt.modify_eq_ok_iff.mp adopted
  obtain ⟨rfl, rfl⟩ := Attempt.pure_eq_ok_iff.mp returned
  obtain ⟨last, size⟩ := Edit.added_of_addTemporal added
  have there : c.index < n.temporals.size := by omega
  have adopts := adopts_adopted (p := p.withNetwork n) there
  exact ⟨adopts.plan, adopts.user⟩

theorem adopts_of_addOverallConstraint {spec : DurationSpec} {c : TemporalId}
    (done : addOverallConstraint spec p = .ok c q) : p.Adopts q := by
  obtain ⟨_, _, rest⟩ := Attempt.read_bind_eq_ok_iff.mp done
  obtain ⟨_, _, added⟩ := Attempt.read_bind_eq_ok_iff.mp rest
  exact adopts_of_addConstraint added

theorem adopts_of_registerConstraint {c : TemporalId} {u : Unit}
    (done : registerConstraint c p = .ok u q) : p.Adopts q := by
  have covers := (Call.stays_run (.registerConstraint c) p).toCovers
  rw [Call.run, Attempt.after_of_ok done] at covers
  obtain ⟨_, found, rest⟩ := Attempt.read_bind_eq_ok_iff.mp done
  obtain ⟨_, _, ⟨⟩, rest⟩ := Attempt.bind_eq_ok_iff.mp rest
  dsimp only at rest
  split at rest
  · obtain ⟨_, _, ⟨⟩, _⟩ := Attempt.bind_eq_ok_iff.mp rest
  obtain ⟨_, _, refreshed, adopted⟩ := Attempt.bind_eq_ok_iff.mp rest
  obtain rfl := Attempt.modify_eq_ok_iff.mp adopted
  obtain ⟨n, _, rfl⟩ := Attempt.focus_eq_ok_iff.mp refreshed
  have there : c.index < n.temporals.size :=
    Nat.lt_of_lt_of_le (lookup_index_lt found) covers.temporals
  have adopts := adopts_adopted (p := p.withNetwork n) there
  exact ⟨adopts.plan, adopts.user⟩

theorem adopts_of_removeConstraint {c : TemporalId} {u : Unit}
    (done : removeConstraint c p = .ok u q) : p.Adopts q := by
  have removes := removes_of_removeConstraint done
  exact .of_same (by rw [removes.same]) fun other member => ((removes.user other).mp member).1

theorem adopts_of_addOverallState {c : StateConstraintId} {u : Unit}
    (done : addOverallState c p = .ok u q) : p.Adopts q := by
  obtain ⟨_, _, got, rest⟩ := Attempt.bind_eq_ok_iff.mp done
  obtain ⟨rfl, rfl⟩ := Attempt.get_eq_ok_iff.mp got
  generalize Program.plan _ = planned at rest
  cases planned with
  | none => cases rest
  | some plan =>
    obtain ⟨_, _, attached, dropped⟩ := Attempt.bind_eq_ok_iff.mp rest
    obtain ⟨n, _, rfl⟩ := Attempt.focus_eq_ok_iff.mp attached
    obtain rfl := Attempt.modify_eq_ok_iff.mp dropped
    exact .of_same rfl (List.Subset.refl _)

theorem plan_onNetwork (op : Edit α) (p : Program) : ((onNetwork op).after p).plan = p.plan := by
  unfold Build.onNetwork
  rw [Attempt.after_focus]
  rfl

theorem adopts_edit (op : Edit α) : Adopts (edit op) p :=
  .of_same (plan_onNetwork op p.stale)
    ((spares_modify rfl).bind fun _ _ => spares_onNetwork _).sheds

/-- Simplifying leaves the plan alone, whatever the outcome. -/
theorem adopts_simplify : Adopts simplify p := by
  let Keeps (p q : Program) : Prop := q.plan = p.plan
  have trans : ∀ {p q r : Program}, Keeps p q → Keeps q r → Keeps p r :=
    fun first second => second.trans first
  have each {β : Type} {op : β → Build Unit} (step : ∀ b p, Keeps p ((op b).after p))
      (items : List β) (p : Program) : Keeps p ((Attempt.each op items).after p) := by
    induction items generalizing p with
    | nil => rfl
    | cons item rest ih => exact Attempt.after_bind (R := Keeps) trans (step item p) fun _ q _ => ih q
  refine .of_same (Attempt.after_bind (R := Keeps) trans looks_constraints.plan fun _ q _ => ?_)
    sheds_simplify
  refine Attempt.after_bind (R := Keeps) trans (looks_read _).plan fun merge r _ => ?_
  refine Attempt.after_bind (R := Keeps) trans (each (fun _ => plan_onNetwork _) _ r) fun _ s _ => ?_
  refine Attempt.after_bind (R := Keeps) trans (each (fun c p => ?_) _ s) fun _ _ _ => rfl
  exact Attempt.after_bind (R := Keeps) trans (plan_onNetwork _ p) fun _ _ _ => rfl

theorem adopts_setState {state : Assignment} {change : Program → Program}
    (plan : (change p).plan = p.plan) (user : (change p).userConstraints = p.userConstraints) :
    Adopts (do
      Attempt.read fun p => Edit.checkAssignment state p.network
      modify change) p := by
  rcases Attempt.after_read_bind (fun p : Program => Edit.checkAssignment state p.network)
    (fun _ => modify change) with ⟨_, _, same⟩ | same
  · rw [Adopts, same]
    exact .of_same plan (by rw [← user]; exact List.Subset.refl _)
  · rw [Adopts, same]
    exact .of_same rfl (List.Subset.refl _)

end Build

/-! ## Calls -/

/-- What a call makes the program name is there, and otherwise the program names what it
did. -/
theorem Call.adopts_run (call : Call α) (idle : p.network.journal = none) :
    Build.Adopts call.run p := by
  by_cases additive : call.isAdditive = true
  · exact (call.sustains_of_additive additive idle).adopts
  have undone (undone : call.isUndone = true) (succeeds : ∀ a q, call.run p = .ok a q → p.Adopts q) :
      Build.Adopts call.run p :=
    Build.adopts_of_outcomes succeeds fun _ _ => call.sustains_of_refused undone idle
  cases call with
  | setName => exact .of_same rfl (List.Subset.refl _)
  | setInitialState => exact Build.adopts_setState rfl rfl
  | setGoalState => exact Build.adopts_setState rfl rfl
  | sequence => exact undone rfl fun _ _ => Build.adopts_of_composition idle
  | parallel => exact undone rfl fun _ _ => Build.adopts_of_composition idle
  | branch => exact undone rfl fun _ _ => Build.adopts_of_composition idle
  | decide =>
    exact undone rfl fun _ _ done => Build.adopts_of_composition idle (Build.decide_eq_ok done)
  | observe =>
    exact undone rfl fun _ _ done => Build.adopts_of_composition idle (Build.observe_eq_ok done)
  | setPlan => exact undone rfl fun _ _ => Build.adopts_of_setPlan idle
  | appendSequence =>
    exact undone rfl fun _ _ => Build.adopts_of_extendPlan Build.sequence (fun done =>
      ⟨Build.adopts_of_composition idle done, Build.registered_of_sequence done⟩) idle
  | appendParallel =>
    exact undone rfl fun _ _ => Build.adopts_of_extendPlan Build.parallel (fun done =>
      ⟨Build.adopts_of_composition idle done, Build.registered_of_parallel done⟩) idle
  | addConstraint => exact undone rfl fun _ _ => Build.adopts_of_addConstraint
  | registerConstraint => exact undone rfl fun _ _ => Build.adopts_of_registerConstraint
  | addOverallConstraint => exact undone rfl fun _ _ => Build.adopts_of_addOverallConstraint
  | removeConstraint => exact undone rfl fun _ _ => Build.adopts_of_removeConstraint
  | addOverallState => exact undone rfl fun _ _ => Build.adopts_of_addOverallState
  | simplify => exact Build.adopts_simplify
  | edit call => exact Build.adopts_edit _
  | view => exact Build.looks_view.adopts
  | episodes =>
    exact Program.Looks.adopts (Build.looks_view.bind fun _ _ => Build.looks_get.bind fun _ _ => Build.looks_pure _)
  | constraints => exact Build.looks_constraints.adopts
  | choicesWhere => exact (Build.looks_choicesWhere _).adopts
  | quantities => exact Build.looks_quantities.adopts
  | episodeById => exact (Build.looks_episodeById _).adopts
  | fingerprint =>
    exact Program.Looks.adopts (Build.looks_get.bind fun _ _ => Build.looks_view.bind fun _ _ =>
      (Build.looks_read _).bind fun _ _ => Build.looks_pure _)
  | summary => exact Build.looks_summary.adopts
  | hierarchy =>
    exact Program.Looks.adopts ((Build.looks_choicesWhere _).bind fun _ _ => Build.looks_constraints.bind fun _ _ =>
      Build.looks_read _)
  | _ => exact absurd rfl additive

/-- Whatever has been done to a program, what it names is there, and so is what those name
that wait for bodies to end. -/
theorem Reached.rooted (reached : Reached allowed p waiting) :
    ∀ q ∈ p :: waiting, q.Rooted ∧ Covers q.network p.network := by
  induction reached with
  | fresh valid =>
    obtain ⟨_, _, rfl⟩ := map_eq_ok_iff.mp valid
    refine List.forall_mem_singleton.mpr ⟨⟨nofun, nofun⟩, .refl _⟩
  | @call p waiting α call may before ih =>
    obtain ⟨here, others⟩ := List.forall_mem_cons.mp ih
    have covers := (call.stays_run p).toCovers
    have idle := Program.Reachable.idle ⟨_, before⟩
    refine List.forall_mem_cons.mpr ⟨⟨here.1.adopts covers (call.adopts_run idle), .refl _⟩,
      fun q member => ?_⟩
    obtain ⟨rooted, covered⟩ := others q member
    exact ⟨rooted, covered.trans covers⟩
  | enter _ ih => exact List.forall_mem_cons.mpr ⟨⟨⟨nofun, nofun⟩, .refl _⟩, ih⟩
  | @leave p q waiting _ ih =>
    obtain ⟨_, others⟩ := List.forall_mem_cons.mp ih
    obtain ⟨⟨outer, covers⟩, below⟩ := List.forall_mem_cons.mp others
    refine List.forall_mem_cons.mpr ⟨⟨outer.adopts covers ⟨.inl, fun _ => .inl⟩, .refl _⟩, below⟩

theorem Program.Reachable.rooted (reachable : p.Reachable allowed) : p.Rooted := by
  obtain ⟨waiting, reached⟩ := reachable
  exact (reached.rooted p (List.mem_cons_self ..)).1

end PlanNetwork
