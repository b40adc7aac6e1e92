/-
# What calls do to the last traversal

A call drops the result of the last traversal, or replaces it by a new one, or
leaves alone everything that it depends on. Most calls that succeed drop it. What
keeps it makes elements, or gives out serial numbers, or was refused and has
been undone. Changing bounds in the course of a simplification keeps it as well,
for a traversal takes no notice of bounds.
-/

import PlanNetwork.Proofs.Program.Preservation

namespace PlanNetwork

open Network

variable {p q r : Program} {α β : Type} {fault : Fault} {t : Traversal}

namespace Program

/-- All that the result of the last traversal depends on is what it was. -/
structure Retains (p q : Program) : Prop where
  /-- It is the same result. -/
  traversal : q.traversal = p.traversal
  /-- The plan is the same. -/
  plan : q.plan = p.plan
  /-- The user's constraints are the same. -/
  userConstraints : q.userConstraints = p.userConstraints
  /-- Elements are what they were, apart from bounds. -/
  network : p.network.Retains q.network
  /-- What an id names, it still names. -/
  registry : ∀ {name id}, p.registry.get? name = some id → q.registry.get? name = some id

/-- Whatever is what it was has been retained. -/
theorem Preserves.retains (h : Preserves p q) : Retains p q :=
  ⟨h.traversal, h.plan, h.userConstraints, h.network.retains, h.registry⟩

namespace Retains

theorem refl (p : Program) : Retains p p := (Preserves.refl p).retains

theorem trans (first : Retains p q) (second : Retains q r) : Retains p r :=
  ⟨second.traversal.trans first.traversal, second.plan.trans first.plan,
    second.userConstraints.trans first.userConstraints, first.network.trans second.network,
    second.registry ∘ first.registry⟩

theorem registered (h : Retains p q) {id : EpisodeId} (registered : p.Registered id) :
    q.Registered id := by
  obtain ⟨e, found, held⟩ := registered
  exact ⟨e, h.network.episode found, h.registry held⟩

theorem current (h : Retains p q) (current : p.Current t) : q.Current t := by
  refine ⟨h.traversal.trans current.cached, ?_, fun id member => ?_,
    fun id member => h.registered (current.registered id member)⟩
  · rw [h.plan, h.userConstraints]
    exact Traversal.collect_of_reads h.network.reads current.collected
  · rw [h.userConstraints] at member
    exact h.network.derived (current.derived id member)

theorem of_spends (spends : p.Spends q) : Retains p q := (Preserves.of_spends spends).retains

end Retains

/-- What may become of the result of the last traversal. -/
inductive CacheStep (p q : Program) : Prop where
  /-- It is forgotten. -/
  | dropped (none : q.traversal = none)
  /-- There is a new one. -/
  | renewed {t : Traversal} (current : q.Current t)
  /-- It is kept, with all that it depends on. -/
  | kept (retains : p.Retains q)

theorem CacheStep.trans (first : CacheStep p q) (second : CacheStep q r) : CacheStep p r := by
  cases second with
  | dropped none => exact .dropped none
  | renewed current => exact .renewed current
  | kept retains =>
    cases first with
    | dropped none => exact .dropped (retains.traversal.trans none)
    | renewed current => exact .renewed (retains.current current)
    | kept before => exact .kept (before.trans retains)

end Program

namespace Build

/-- What becomes of the result of the last traversal, whatever the outcome. -/
def Caches (op : Build α) (p : Program) : Prop := p.CacheStep (op.after p)

/-! ## Putting operations together -/

theorem Preserves.caches {op : Build α} (h : Preserves op p) : Caches op p := .kept h.retains

theorem Caches.bind {op : Build α} {next : α → Build β} (first : Caches op p)
    (rest : ∀ a q, Caches (next a) q) : Caches (op >>= next) p :=
  Attempt.after_bind (R := Program.CacheStep) Program.CacheStep.trans first fun a q _ => rest a q

theorem caches_each {op : β → Build Unit} (each : ∀ b p, Caches (op b) p) (items : List β) :
    Caches (Attempt.each op items) p := by
  induction items generalizing p with
  | nil => exact (preserves_pure ()).caches
  | cons item rest ih => exact (each item p).bind fun _ _ => ih

theorem caches_onNetwork {op : Edit α} (h : Edit.Retains op p.network) :
    Caches (onNetwork op) p := by
  unfold Caches onNetwork
  rw [Attempt.after_focus]
  exact .kept ⟨rfl, rfl, rfl, h, id⟩

/-- An operation that drops the result when it succeeds and is undone when it is
refused. -/
theorem caches_of_outcomes {op : Build α}
    (succeeds : ∀ a q, op p = .ok a q → q.traversal = none)
    (refused : ∀ fault q, op p = .error fault q → p.Retains q) : Caches op p := by
  cases result : op p with
  | ok a q =>
    rw [Caches, Attempt.after_of_ok result]
    exact .dropped (succeeds a q result)
  | error fault q =>
    rw [Caches, Attempt.after_of_error result]
    exact .kept (refused fault q result)

/-! ## Changing the plan and the constraints -/

/-- Whoever it was asked of, the result is dropped if the operation succeeds. -/
def Drops (op : Build α) : Prop := ∀ p a q, op p = .ok a q → q.traversal = none

/-- What drops the result at the end drops it. -/
theorem Drops.after {op : Build α} {next : α → Build β} (rest : ∀ a, Drops (next a)) :
    Drops (op >>= next) := by
  intro p b q done
  obtain ⟨a, k, _, later⟩ := Attempt.bind_eq_ok_iff.mp done
  exact rest a k b q later

/-- A result that has been dropped does not come back by a change of the plan. -/
theorem Drops.then {op : Build α} {next : α → Build β} (first : Drops op)
    (rest : ∀ {a p b q}, next a p = .ok b q → q.traversal = p.traversal) :
    Drops (op >>= next) := by
  intro p b q done
  obtain ⟨a, k, dropped, later⟩ := Attempt.bind_eq_ok_iff.mp done
  exact (rest later).trans (first p a k dropped)

theorem drops_adoptConstraint (id : TemporalId) : Drops (adoptConstraint id) := by
  intro p u q done
  obtain rfl := Attempt.modify_eq_ok_iff.mp done
  rfl

theorem drops_assemble (components : List Component) (op : List EpisodeId → Edit EpisodeId) :
    Drops (assemble components op) := by
  intro p id q done
  obtain ⟨_, _, _, _, _, _, rfl⟩ := assemble_eq_ok done
  rfl

theorem drops_extendPlan {compose : List Component → CompositionOptions → Build EpisodeId}
    (drops : ∀ components options, Drops (compose components options)) (component : Component) :
    Drops (extendPlan compose component) := by
  have rest {id : EpisodeId} {p : Program} {a : EpisodeId} {q : Program} (done : (do
      modify fun p => { p with plan := some id }
      return id : Build EpisodeId) p = .ok a q) : q.traversal = p.traversal := by
    obtain ⟨_, _, changed, returned⟩ := Attempt.bind_eq_ok_iff.mp done
    obtain rfl := Attempt.modify_eq_ok_iff.mp changed
    obtain ⟨_, rfl⟩ := Attempt.pure_eq_ok_iff.mp returned
    rfl
  refine Drops.after fun now => ?_
  dsimp only
  split
  · exact Drops.then (drops _ _) rest
  · exact Drops.then (drops_assemble _ _) rest

theorem drops_setPlan (component : Component) : Drops (setPlan component) := by
  refine Drops.then (drops_assemble _ _) fun {_ _ _ _} done => ?_
  obtain rfl := Attempt.modify_eq_ok_iff.mp done
  rfl

theorem drops_sequence (components : List Component) (options : CompositionOptions) :
    Drops (sequence components options) :=
  Drops.after fun options => drops_assemble components (Edit.sequence · options)

theorem drops_parallel (components : List Component) (options : CompositionOptions) :
    Drops (parallel components options) :=
  Drops.after fun options => drops_assemble components (Edit.parallel · options)

theorem drops_branch (choice : EventId) (components : List Component)
    (options : CompositionOptions) : Drops (branch choice components options) :=
  Drops.after fun options => drops_assemble components (Edit.branch choice · options)

theorem drops_branchNew (spec : ChoiceSpec) (components : List Component)
    (options : CompositionOptions) : Drops (branchNew spec components options) :=
  Drops.after fun _ => drops_assemble _ _

theorem drops_decide (spec : ChoiceSpec) (components : List Component)
    (options : CompositionOptions) : Drops (Build.decide spec components options) := by
  unfold Build.decide
  split
  · exact drops_branchNew _ _ _
  · exact drops_branchNew _ _ _
  · intro p a q done
    cases done

theorem drops_observe (spec : ChoiceSpec) (components : List Component)
    (options : CompositionOptions) : Drops (observe spec components options) := by
  unfold observe
  split
  · intro p a q done
    cases done
  · intro p a q done
    cases done
  · exact drops_branchNew _ _ _

theorem drops_addConstraint (start finish : EventId) (spec : DurationSpec) :
    Drops (addConstraint start finish spec) := by
  refine Drops.after fun id => Drops.then (drops_adoptConstraint id) fun {_ _ _ _} done => ?_
  obtain ⟨_, rfl⟩ := Attempt.pure_eq_ok_iff.mp done
  rfl

theorem drops_registerConstraint (id : TemporalId) : Drops (registerConstraint id) := by
  refine Drops.after fun _ => Drops.after fun _ => ?_
  dsimp only
  split
  · intro p a q done
    obtain ⟨_, _, ⟨⟩, _⟩ := Attempt.bind_eq_ok_iff.mp done
  · exact Drops.after fun _ => drops_adoptConstraint id

theorem drops_removeConstraint (id : TemporalId) : Drops (removeConstraint id) := by
  refine Drops.after fun _ => ?_
  intro p u q done
  obtain rfl := Attempt.modify_eq_ok_iff.mp done
  rfl

theorem caches_addOverallConstraint (spec : DurationSpec) (idle : p.network.journal = none) :
    Caches (addOverallConstraint spec) p := by
  have drops : Drops (addOverallConstraint spec) :=
    Drops.after fun first => Drops.after fun last => drops_addConstraint first last spec
  exact caches_of_outcomes (drops p) fun _ _ refused =>
    .of_spends (spends_of_addOverallConstraint idle refused)

/-- Taking a constraint away is refused before any episode is changed, so the
result is kept even in the course of other operations. -/
theorem caches_removeConstraint (id : TemporalId) : Caches (removeConstraint id) p := by
  refine caches_of_outcomes (drops_removeConstraint id p) fun fault q refused => ?_
  rcases Attempt.bind_eq_error_iff.mp refused with stopped | ⟨_, _, _, ⟨⟨⟩⟩⟩
  obtain ⟨m, failed, rfl⟩ := Attempt.focus_eq_error_iff.mp stopped
  exact ⟨rfl, rfl, rfl, (Edit.preserves_of_detachTemporal_eq_error failed).retains, fun held => held⟩

theorem caches_addOverallState (id : StateConstraintId) : Caches (addOverallState id) p := by
  have drops : Drops (addOverallState id) := by
    refine Drops.after fun now => ?_
    split
    · intro p a q done
      cases done
    · refine Drops.after fun _ => ?_
      intro p u q done
      obtain rfl := Attempt.modify_eq_ok_iff.mp done
      rfl
  refine caches_of_outcomes (drops p) fun fault q refused => ?_
  rw [addOverallState_eq_error refused]
  exact .refl p

/-! ## Reads -/

theorem caches_view : Caches view p := by
  cases result : view p with
  | ok t q =>
    rw [Caches, Attempt.after_of_ok result]
    rcases view_eq_ok result with ⟨_, rfl⟩ | ⟨_, current⟩
    · exact .kept (.refl q)
    · exact .renewed current
  | error fault q =>
    rw [Caches, Attempt.after_of_error result]
    exact .dropped (view_eq_error result).2

theorem caches_episodes : Caches episodes p :=
  caches_view.bind fun _ _ => preserves_get.caches.bind fun _ _ => (preserves_pure _).caches

theorem caches_constraints : Caches constraints p :=
  caches_view.bind fun _ _ => preserves_get.caches.bind fun _ _ => (preserves_pure _).caches

theorem caches_choicesWhere (keep : Controllability → Bool) : Caches (choicesWhere keep) p :=
  caches_view.bind fun _ _ => (preserves_read _).caches

theorem caches_quantities : Caches quantities p :=
  preserves_get.caches.bind fun _ _ => caches_view.bind fun _ _ => (preserves_read _).caches

theorem caches_episodeById (id : String) : Caches (episodeById id) p := by
  refine caches_view.bind fun _ _ => preserves_get.caches.bind fun now _ => ?_
  split
  · exact (preserves_pure _).caches
  · exact (preserves_throw _).caches

theorem caches_fingerprint : Caches fingerprint p :=
  preserves_get.caches.bind fun _ _ => caches_view.bind fun _ _ =>
    (preserves_read _).caches.bind fun _ _ => (preserves_pure _).caches

theorem caches_summary : Caches summary p :=
  (caches_choicesWhere _).bind fun _ _ => (caches_choicesWhere _).bind fun _ _ =>
    (caches_choicesWhere _).bind fun _ _ => caches_quantities.bind fun _ _ =>
    caches_constraints.bind fun _ _ => caches_view.bind fun _ _ =>
    preserves_get.caches.bind fun _ _ => (preserves_pure _).caches

theorem caches_hierarchy : Caches hierarchy p :=
  (caches_choicesWhere _).bind fun _ _ => caches_constraints.bind fun _ _ =>
    (preserves_read _).caches

theorem caches_simplify : Caches simplify p := by
  refine caches_constraints.bind fun _ _ => (preserves_read _).caches.bind fun merge _ => ?_
  refine (caches_each (fun _ _ => caches_onNetwork (Edit.retains_setBounds ..)) _).bind
    fun _ _ => ?_
  exact (caches_each (fun id _ => caches_removeConstraint id) _).bind fun _ _ => .dropped rfl

theorem traversal_after_edit (op : Edit α) : ((edit op).after p).traversal = none := by
  refine Attempt.after_bind (R := fun _ q : Program => q.traversal = none)
    (fun _ second => second) rfl fun _ q done => ?_
  obtain rfl := Attempt.modify_eq_ok_iff.mp done
  unfold onNetwork
  rw [Attempt.after_focus]
  rfl

end Build

/-- A call that takes effect as a whole drops the result if it succeeds. -/
theorem Call.caches_of_drops (call : Call α) (atomic : call.isAtomic = true)
    (idle : p.network.journal = none) (drops : Build.Drops call.run) : Build.Caches call.run p :=
  Build.caches_of_outcomes (drops p) fun _ _ refused =>
    .of_spends (call.spends_of_refused atomic idle refused)

/-- Whatever is asked for between operations, the result of the last traversal is
dropped, renewed, or kept with all that it depends on. -/
theorem Call.caches_run (call : Call α) (idle : p.network.journal = none) :
    Build.Caches call.run p := by
  cases call with
  | setName => exact .kept ⟨rfl, rfl, rfl, .refl _, fun held => held⟩
  | setInitialState => exact (Build.preserves_read _).caches.bind fun _ _ => .dropped rfl
  | setGoalState =>
    exact (Build.preserves_read _).caches.bind fun _ _ =>
      .kept ⟨rfl, rfl, rfl, .refl _, fun held => held⟩
  | allocate => exact (Build.preserves_onNetwork (Edit.preserves_allocate _)).caches
  | addEvent => exact (Build.preserves_onNetwork Edit.preserves_addEvent).caches
  | addChoice => exact (Build.preserves_onNetwork (Edit.preserves_addChoice _)).caches
  | addEpisode => exact (Build.preserves_addEpisode _ idle).caches
  | addQuantity => exact (Build.preserves_addQuantity ..).caches
  | sequence => exact Call.caches_of_drops _ rfl idle (Build.drops_sequence _ _)
  | parallel => exact Call.caches_of_drops _ rfl idle (Build.drops_parallel _ _)
  | branch => exact Call.caches_of_drops _ rfl idle (Build.drops_branch _ _ _)
  | decide => exact Call.caches_of_drops _ rfl idle (Build.drops_decide _ _ _)
  | observe => exact Call.caches_of_drops _ rfl idle (Build.drops_observe _ _ _)
  | setPlan => exact Call.caches_of_drops _ rfl idle (Build.drops_setPlan _)
  | appendSequence =>
    exact Call.caches_of_drops _ rfl idle (Build.drops_extendPlan Build.drops_sequence _)
  | appendParallel =>
    exact Call.caches_of_drops _ rfl idle (Build.drops_extendPlan Build.drops_parallel _)
  | addConstraint => exact Call.caches_of_drops _ rfl idle (Build.drops_addConstraint _ _ _)
  | registerConstraint => exact Call.caches_of_drops _ rfl idle (Build.drops_registerConstraint _)
  | addOverallConstraint => exact Build.caches_addOverallConstraint _ idle
  | removeConstraint => exact Build.caches_removeConstraint _
  | addChance => exact (Build.preserves_addChance ..).caches
  | registerChance => exact (Build.preserves_registerChance _).caches
  | addOverallState => exact Build.caches_addOverallState _
  | simplify => exact Build.caches_simplify
  | view => exact Build.caches_view
  | episodes => exact Build.caches_episodes
  | constraints => exact Build.caches_constraints
  | choicesWhere => exact Build.caches_choicesWhere _
  | quantities => exact Build.caches_quantities
  | episodeById => exact Build.caches_episodeById _
  | fingerprint => exact Build.caches_fingerprint
  | summary => exact Build.caches_summary
  | hierarchy => exact Build.caches_hierarchy
  | touch => exact .dropped rfl
  | edit => exact .dropped (Build.traversal_after_edit _)

end PlanNetwork
