/-
# Whose constraints are the user's

Few calls change which constraints are the user's. A call that composes
components takes over the constraints that the fragments among them carry: all
of them if it succeeds, and none if it is refused. A new constraint is added to
the user's, a constraint that is there can be registered, and removing and
simplifying only take constraints away. Everything else leaves them alone.

A composition looks at the fragments before it does anything. Each of their
constraints has to be new to the user and to the fragments before, so what the
user owns afterwards is a disjoint union.
-/

import PlanNetwork.Proofs.Program.Simplification

namespace PlanNetwork

open Network

variable {p q : Program} {α β : Type} {fault : Fault} {id : TemporalId}

namespace OrdSet

variable {γ : Type} [Ord γ]

/-- No two of the sets have a member in common. -/
def Apart (sets : List (OrdSet γ)) : Prop :=
  sets.Pairwise fun s t => s.toList.Disjoint t.toList

/-- The set has the members of all the sets, and each of them from one set only. -/
structure IsDisjointUnion (whole : OrdSet γ) (sets : List (OrdSet γ)) : Prop where
  /-- The sets have no members in common. -/
  apart : Apart sets
  /-- Nothing is lost and nothing is added. -/
  mem_iff : ∀ x, x ∈ whole.toList ↔ ∃ s ∈ sets, x ∈ s.toList

end OrdSet

/-- The constraints that a component carries, if it is a fragment. -/
def Component.carried? : Component → Option (OrdSet TemporalId)
  | episode _ => none
  | subplan fragment => some fragment.constraints

/-- The sets of constraints that the fragments among some components carry. -/
def carried (components : List Component) : List (OrdSet TemporalId) :=
  components.filterMap Component.carried?

@[simp] theorem carried_nil : carried [] = [] := rfl

@[simp] theorem carried_episode (id : EpisodeId) (rest : List Component) :
    carried (.episode id :: rest) = carried rest := rfl

@[simp] theorem carried_subplan (fragment : Subplan) (rest : List Component) :
    carried (.subplan fragment :: rest) = fragment.constraints :: carried rest := rfl

/-- The components that a call composes, if it composes any. -/
def Call.components? : Call α → Option (List Component)
  | sequence components _ | parallel components _ | branch _ components _ => some components
  | decide _ components _ | observe _ components _ => some components
  | setPlan component | appendSequence component | appendParallel component => some [component]
  | _ => none

/-! ## Looking at the fragments -/

namespace Program

/-- What is absorbed is new. -/
theorem absorb_eq_ok {absorbed whole : OrdSet TemporalId} {ids : List TemporalId}
    (done : p.absorb absorbed ids = .ok whole) :
    (∀ id ∈ ids, id ∉ p.userConstraints.toList ∧ id ∉ absorbed.toList) ∧
      ∀ id, id ∈ whole.toList ↔ id ∈ absorbed.toList ∨ id ∈ ids := by
  induction ids generalizing absorbed with
  | nil =>
    obtain rfl := Except.ok.inj done
    simp
  | cons first rest ih =>
    rw [absorb] at done
    by_cases known : (p.userConstraints.contains first || absorbed.contains first) = true
    · rw [if_pos known] at done
      obtain ⟨_, _, ⟨⟩⟩ := bind_eq_ok_iff.mp done
    · rw [if_neg known] at done
      simp only [Bool.or_eq_true, OrdSet.contains_iff_mem, not_or] at known
      obtain ⟨later, whole_iff⟩ := ih done
      constructor
      · refine List.forall_mem_cons.mpr ⟨known, fun id member => ?_⟩
        obtain ⟨user, before⟩ := later id member
        exact ⟨user, fun old => before (OrdSet.mem_insert_of_mem old)⟩
      · intro id
        simp only [whole_iff, OrdSet.mem_insert_iff, List.mem_cons]
        tauto

/-- What the fragments carry is new to the user, and no two fragments carry the same. -/
theorem resolveComponents_eq_ok {components : List Component} {episodes : List EpisodeId}
    {absorbed whole : OrdSet TemporalId}
    (done : p.resolveComponents absorbed components = .ok (episodes, whole)) :
    (∀ s ∈ carried components, ∀ id ∈ s.toList,
      id ∉ p.userConstraints.toList ∧ id ∉ absorbed.toList) ∧
      OrdSet.Apart (carried components) ∧
      ∀ id, id ∈ whole.toList ↔ id ∈ absorbed.toList ∨ ∃ s ∈ carried components, id ∈ s.toList := by
  induction components generalizing absorbed episodes with
  | nil =>
    obtain ⟨_, rfl⟩ := Prod.mk.inj (Except.ok.inj done)
    simp [OrdSet.Apart]
  | cons component rest ih =>
    cases component with
    | episode id =>
      obtain ⟨_, _, done⟩ := bind_eq_ok_iff.mp done
      obtain ⟨⟨_, _⟩, resolved, returned⟩ := bind_eq_ok_iff.mp done
      obtain ⟨_, rfl⟩ := Prod.mk.inj (Except.ok.inj returned)
      exact ih resolved
    | subplan fragment =>
      obtain ⟨between, taken, done⟩ := bind_eq_ok_iff.mp done
      obtain ⟨⟨_, _⟩, resolved, returned⟩ := bind_eq_ok_iff.mp done
      obtain ⟨_, rfl⟩ := Prod.mk.inj (Except.ok.inj returned)
      obtain ⟨new, between_iff⟩ := absorb_eq_ok taken
      obtain ⟨later, apart, whole_iff⟩ := ih resolved
      rw [carried_subplan]
      refine ⟨List.forall_mem_cons.mpr ⟨new, fun s member id inside => ?_⟩,
        List.pairwise_cons.mpr ⟨fun s member id here there => ?_, apart⟩, fun id => ?_⟩
      · obtain ⟨user, before⟩ := later s member id inside
        exact ⟨user, fun old => before ((between_iff id).mpr (.inl old))⟩
      · exact (later s member id there).2 ((between_iff id).mpr (.inr here))
      · simp only [whole_iff, between_iff, List.mem_cons, exists_eq_or_imp, or_assoc]

/-- What the user owns with the constraints of the fragments is a disjoint union. -/
theorem isDisjointUnion_of_resolveComponents {components : List Component}
    {episodes : List EpisodeId} {whole : OrdSet TemporalId}
    (done : p.resolveComponents ∅ components = .ok (episodes, whole)) :
    (p.userConstraints.union whole).IsDisjointUnion (p.userConstraints :: carried components) := by
  obtain ⟨new, apart, whole_iff⟩ := resolveComponents_eq_ok done
  refine ⟨List.pairwise_cons.mpr ⟨fun s member id here there => ?_, apart⟩, fun id => ?_⟩
  · exact (new s member id there).1 here
  · simp [whole_iff]

end Program

namespace Build

/-! ## Operations that leave the user's constraints alone -/

/-- Whatever the outcome, the user's constraints are the same. -/
def Spares (op : Build α) (p : Program) : Prop :=
  (op.after p).userConstraints = p.userConstraints

theorem Looks.spares {op : Build α} (h : Looks op p) : Spares op p := h.userConstraints

theorem Spares.bind {op : Build α} {next : α → Build β} (first : Spares op p)
    (rest : ∀ a q, Spares (next a) q) : Spares (op >>= next) p :=
  Attempt.after_bind (R := fun p q : Program => q.userConstraints = p.userConstraints)
    (fun first second => second.trans first) first fun a q _ => rest a q

theorem spares_modify {change : Program → Program}
    (same : (change p).userConstraints = p.userConstraints) : Spares (modify change) p := same

theorem spares_onNetwork (op : Edit α) : Spares (onNetwork op) p := by
  unfold Spares onNetwork
  rw [Attempt.after_focus]
  rfl

theorem spares_atomically {op : Build α} (steps : ∀ p, Spares op p) : Spares (atomically op) p := by
  by_cases nested : p.network.journal.isSome = true
  · have same : (atomically op).after p = op.after p := by
      rw [Attempt.after, atomically, if_pos nested, Attempt.after]
    rw [Spares, same]
    exact steps p
  · have inner := steps (p.mapNetwork .checkpoint)
    cases result : atomically op p with
    | ok a q =>
      rw [Spares, Attempt.after_of_ok result]
      rw [atomically, if_neg nested, Attempt.bracket_eq_ok_iff] at result
      obtain ⟨r, done, rfl⟩ := result
      rwa [Spares, Attempt.after_of_ok done] at inner
    | error fault q =>
      rw [Spares, Attempt.after_of_error result]
      rw [atomically, if_neg nested, Attempt.bracket_eq_error_iff] at result
      obtain ⟨r, stopped, rfl⟩ := result
      rwa [Spares, Attempt.after_of_error stopped] at inner

theorem spares_placed (op : Edit EpisodeId) : Spares (placed op) p :=
  (spares_onNetwork op).bind fun id _ => (looks_register id).spares.bind fun _ _ =>
    (looks_pure id).spares

theorem Spares.of_ok {op : Build α} {a : α} (h : Spares op p) (done : op p = .ok a q) :
    q.userConstraints = p.userConstraints := by
  rwa [Spares, Attempt.after_of_ok done] at h

theorem Spares.of_error {op : Build α} (h : Spares op p) (refused : op p = .error fault q) :
    q.userConstraints = p.userConstraints := by
  rwa [Spares, Attempt.after_of_error refused] at h

/-! ## Operations that take over the constraints of fragments -/

/-- The operation makes the constraints of some fragments the user's. -/
structure TakesOver (sets : List (OrdSet TemporalId)) (op : Build α) (p : Program) : Prop where
  /-- If it succeeds, they are, and each of them once. -/
  ok : ∀ {a q}, op p = .ok a q → q.userConstraints.IsDisjointUnion (p.userConstraints :: sets)
  /-- If it is refused, none of them is. -/
  refused : ∀ {fault q}, op p = .error fault q → q.userConstraints = p.userConstraints
  /-- It is refused at once if one of them would be there twice. -/
  overlap : ¬ OrdSet.Apart (p.userConstraints :: sets) → ∃ fault, op p = .error fault p

/-- Filling in options from the configuration comes before everything. -/
theorem takesOver_inherited {sets : List (OrdSet TemporalId)} {options : CompositionOptions}
    {next : CompositionOptions → Build α} (h : ∀ filled, TakesOver sets (next filled) p) :
    TakesOver sets (inherited options >>= next) p := by
  have filled := h (options.inherit p.config.noWait p.config.mode)
  exact ⟨fun done => filled.ok done, fun stopped => filled.refused stopped, filled.overlap⟩

/-- What follows leaves the user's constraints alone and is not refused. -/
theorem TakesOver.then {sets : List (OrdSet TemporalId)} {op : Build α} {next : α → Build β}
    (h : TakesOver sets op p) (rest : ∀ a q, Spares (next a) q)
    (succeeds : ∀ a q fault r, next a q ≠ .error fault r) : TakesOver sets (op >>= next) p := by
  constructor
  · intro b q done
    obtain ⟨a, k, first, later⟩ := Attempt.bind_eq_ok_iff.mp done
    exact (rest a k).of_ok later ▸ h.ok first
  · intro fault q stopped
    rcases Attempt.bind_eq_error_iff.mp stopped with early | ⟨a, k, _, late⟩
    · exact h.refused early
    · exact absurd late (succeeds a k fault q)
  · intro overlap
    obtain ⟨fault, stopped⟩ := h.overlap overlap
    exact ⟨fault, Attempt.bind_eq_error_iff.mpr (.inl stopped)⟩

theorem takesOver_assemble (components : List Component) (op : List EpisodeId → Edit EpisodeId) :
    TakesOver (carried components) (assemble components op) p := by
  have inner (episodes : List EpisodeId) (absorbed : OrdSet TemporalId) (p : Program) :
      Spares (atomically (placed (composed op episodes absorbed))) p :=
    spares_atomically fun _ => spares_placed _
  constructor
  · intro id q done
    obtain ⟨episodes, absorbed, k, resolved, _, made, rfl⟩ := assemble_eq_ok done
    have whole := Program.isDisjointUnion_of_resolveComponents resolved
    rwa [← (inner episodes absorbed p).of_ok made] at whole ⊢
  · intro fault q stopped
    rcases Attempt.bind_eq_error_iff.mp stopped with early | ⟨⟨episodes, absorbed⟩, _, read, rest⟩
    · rw [(Attempt.read_eq_error_iff.mp early).2]
    obtain ⟨_, rfl⟩ := Attempt.read_eq_ok_iff.mp read
    dsimp only at rest
    by_cases empty : episodes.isEmpty = true
    · rw [if_pos empty] at rest
      rcases Attempt.bind_eq_error_iff.mp rest with early | ⟨_, _, ⟨⟨⟩⟩, _⟩
      rw [(Attempt.throw_eq_error_iff.mp early).2]
    rw [if_neg empty] at rest
    rcases Attempt.bind_eq_error_iff.mp rest with early | ⟨_, _, _, settled⟩
    · exact (inner episodes absorbed _).of_error early
    · exact absurd settled Attempt.modify_return_ne_error
  · intro overlap
    cases resolved : p.resolveComponents ∅ components with
    | ok found => exact absurd (Program.isDisjointUnion_of_resolveComponents resolved).apart overlap
    | error fault =>
      exact ⟨fault, Attempt.bind_eq_error_iff.mpr (.inl (Attempt.read_eq_error_iff.mpr ⟨resolved, rfl⟩))⟩

theorem takesOver_extendPlan {compose : List Component → CompositionOptions → Build EpisodeId}
    (takes : ∀ components options, TakesOver (carried components) (compose components options) p)
    (component : Component) : TakesOver (carried [component]) (extendPlan compose component) p := by
  have first : TakesOver (carried [component])
      (p.plan.elim (adopt component) fun plan => compose [.episode plan, component] {}) p := by
    cases p.plan with
    | none =>
      show TakesOver (carried [component]) (adopt component) p
      exact takesOver_assemble [component] _
    | some plan => exact takes [.episode plan, component] {}
  have last (id : EpisodeId) (q : Program) : Spares (do
      modify fun p => { p with plan := some id }
      return id) q :=
    (spares_modify rfl).bind fun _ _ => (looks_pure id).spares
  have both := first.then last fun _ _ _ _ => Attempt.modify_return_ne_error
  have same := extendPlan_apply (p := p) compose component
  exact ⟨fun done => both.ok (same.symm.trans done), fun stopped => both.refused (same.symm.trans stopped),
    fun overlap => (both.overlap overlap).imp fun _ stopped => same.trans stopped⟩

/-- An operation that is refused at once takes nothing over. -/
theorem takesOver_throw (sets : List (OrdSet TemporalId)) (fault : Fault) :
    TakesOver sets (throw fault : Build α) p :=
  ⟨nofun, fun stopped => by rw [(Attempt.throw_eq_error_iff.mp stopped).2], fun _ => ⟨fault, rfl⟩⟩

theorem takesOver_branchNew (spec : ChoiceSpec) (components : List Component)
    (options : CompositionOptions) :
    TakesOver (carried components) (branchNew spec components options) p :=
  takesOver_inherited fun _ => takesOver_assemble components _

theorem takesOver_sequence (components : List Component) (options : CompositionOptions) :
    TakesOver (carried components) (sequence components options) p :=
  takesOver_inherited fun _ => takesOver_assemble components _

theorem takesOver_parallel (components : List Component) (options : CompositionOptions) :
    TakesOver (carried components) (parallel components options) p :=
  takesOver_inherited fun _ => takesOver_assemble components _

end Build

/-- Every call that composes components takes over what the fragments carry. -/
theorem Call.takesOver_run {call : Call α} {components : List Component}
    (composes : call.components? = some components) (p : Program) :
    Build.TakesOver (carried components) call.run p := by
  cases call <;> simp only [components?, Option.some.injEq, reduceCtorEq] at composes <;>
    subst composes <;> rw [Call.run]
  case sequence => exact Build.takesOver_sequence ..
  case parallel => exact Build.takesOver_parallel ..
  case branch => exact Build.takesOver_inherited fun _ => Build.takesOver_assemble ..
  case decide =>
    unfold Build.decide
    split
    · exact Build.takesOver_branchNew ..
    · exact Build.takesOver_branchNew ..
    · exact Build.takesOver_throw ..
  case observe =>
    unfold Build.observe
    split
    · exact Build.takesOver_throw ..
    · exact Build.takesOver_throw ..
    · exact Build.takesOver_branchNew ..
  case setPlan =>
    exact (Build.takesOver_assemble ..).then (fun _ _ => Build.spares_modify rfl)
      fun _ _ _ _ => by rintro ⟨⟩
  case appendSequence =>
    exact Build.takesOver_extendPlan (fun _ _ => Build.takesOver_sequence ..) _
  case appendParallel =>
    exact Build.takesOver_extendPlan (fun _ _ => Build.takesOver_parallel ..) _

/-! ## Fragments -/

/-- A body runs on a program with nothing set, and whatever it does there, the
program gets back what was set aside. -/
theorem Session.after_subplan {ν : Type} (body : Session ν EpisodeId) (p : Program) (notes : ν) :
    (Session.subplan body).after (p, notes) =
      (takeBack p (body.after (setAside p, notes)).1, (body.after (setAside p, notes)).2) := by
  unfold Attempt.after Session.subplan
  dsimp only
  cases body (setAside p, notes) <;> rfl

/-- A fragment carries what the user owned where its body ended. -/
theorem Session.subplan_eq_ok_iff {ν : Type} {body : Session ν EpisodeId} {notes : ν}
    {fragment : Subplan} {s : Program × ν} :
    Session.subplan body (p, notes) = .ok fragment s ↔ ∃ q later,
      body (setAside p, notes) = .ok fragment.plan (q, later) ∧
      fragment.constraints = q.userConstraints ∧ s = (takeBack p q, later) := by
  unfold Session.subplan
  dsimp only
  cases body (setAside p, notes) with
  | error => simp
  | ok plan t =>
    simp only [EStateM.Result.ok.injEq]
    constructor
    · rintro ⟨rfl, rfl⟩
      exact ⟨t.1, t.2, ⟨rfl, rfl⟩, rfl, rfl⟩
    · rintro ⟨q, later, ⟨rfl, rfl⟩, carries, rfl⟩
      exact ⟨congrArg (Subplan.mk _) carries.symm, rfl⟩

/-- Fragments are apart until they are composed. Whatever the body of a fragment
does, the plan and the user's constraints are what they were when it is over, and
a fragment that comes of it carries exactly the constraints that were the user's
where the body ended.

If a call that composes components succeeds, the user's constraints are those of
before and those of all the fragments, none of them twice. If any two of these
sets have a constraint in common, the call is refused and changes nothing. -/
theorem Program.fragments_isolate_and_hand_over (p : Program) :
    (∀ {ν : Type} (body : Session ν EpisodeId) (notes : ν),
      ((Session.subplan body).after (p, notes)).1.plan = p.plan ∧
      ((Session.subplan body).after (p, notes)).1.userConstraints = p.userConstraints ∧
      ∀ fragment s, Session.subplan body (p, notes) = .ok fragment s → ∃ q later,
        body (Session.setAside p, notes) = .ok fragment.plan (q, later) ∧
        fragment.constraints = q.userConstraints) ∧
    ∀ {α : Type} (call : Call α) (components : List Component),
      call.components? = some components →
      (∀ a q, call.run p = .ok a q →
        q.userConstraints.IsDisjointUnion (p.userConstraints :: carried components)) ∧
      (¬ OrdSet.Apart (p.userConstraints :: carried components) →
        ∃ fault, call.run p = .error fault p) := by
  constructor
  · intro ν body notes
    rw [Session.after_subplan]
    refine ⟨rfl, rfl, fun fragment s done => ?_⟩
    obtain ⟨q, later, ended, carries, _⟩ := Session.subplan_eq_ok_iff.mp done
    exact ⟨q, later, ended, carries⟩
  · intro α call components composes
    have takes := call.takesOver_run composes p
    exact ⟨fun _ _ done => takes.ok done, takes.overlap⟩

/-- A fragment with one constraint can be made the plan once. -/
theorem Program.fragments_isolate_and_hand_over_once :
    let p := (Program.ofConfig {}).afterCalls [⟨_, .addEvent⟩, ⟨_, .addEvent⟩]
    let body : Session Unit EpisodeId := do
      let _ ← Session.build (Build.addConstraint ⟨0⟩ ⟨1⟩ .unconstrained)
      Session.build (Build.addEpisode {})
    let fragment : Subplan := ⟨⟨0⟩, .ofList [⟨0⟩]⟩
    ∃ s q, Session.subplan body (p, ()) = .ok fragment s ∧
      s.1.userConstraints = p.userConstraints ∧
      (Call.setPlan (.subplan fragment)).run s.1 = .ok () q ∧
      q.userConstraints.IsDisjointUnion [s.1.userConstraints, fragment.constraints] ∧
      ∃ fault, (Call.setPlan (.subplan fragment)).run q = .error fault q := by
  intro p body fragment
  have returned : ((Session.subplan body).result? (p, ())).map
      (fun f => (f.plan, f.constraints.toList)) = some (⟨0⟩, [⟨0⟩]) := by decide +kernel
  obtain ⟨⟨plan, constraints⟩, returned, same⟩ := Option.map_eq_some_iff.mp returned
  obtain ⟨rfl, only⟩ := Prod.mk.inj same
  obtain rfl : constraints = .ofList [⟨0⟩] := OrdSet.eq_of_toList_eq only
  have made := Attempt.eq_ok_of_result? returned
  obtain ⟨_, user, _⟩ := (fragments_isolate_and_hand_over p).1 body ()
  obtain ⟨_, planned⟩ := Attempt.exists_eq_ok_after (Call.setPlan (.subplan fragment)).run
    ((Session.subplan body).after (p, ())).1 (by decide +kernel)
  have whole := ((fragments_isolate_and_hand_over _).2 (.setPlan (.subplan fragment)) _ rfl).1 _ _ planned
  refine ⟨_, _, made, user, planned, whole, ?_⟩
  refine ((fragments_isolate_and_hand_over _).2 (.setPlan (.subplan fragment)) _ rfl).2 fun apart => ?_
  have there : (⟨0⟩ : TemporalId) ∈ fragment.constraints.toList := by decide
  exact (List.pairwise_cons.mp apart).1 fragment.constraints (List.mem_singleton.mpr rfl)
    ((whole.mem_iff _).mpr ⟨_, List.mem_cons_of_mem _ (List.mem_singleton.mpr rfl), there⟩) there

end PlanNetwork
