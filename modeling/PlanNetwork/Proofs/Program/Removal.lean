/-
# How long a removal lasts

A constraint that has been removed is not the user's, and no call makes it so
again unless it says so: it registers the constraint, or composes a fragment
that carries it. What undoes a removal is the end of a fragment's body. The
program that waited for it gets back the constraints that were the user's when
the body began, whatever the body removed meanwhile.

So a removal lasts as long as the body does in which it was made, and for good
where no program waits.
-/

import PlanNetwork.Proofs.Program.Ownership

namespace PlanNetwork

open Network

variable {p q r : Program} {waiting rest : List Program} {α β : Type} {id : TemporalId}
  {n m : Network}

/-! ## Constraints stay in the network -/

namespace Edit

/-- An operation that makes elements and writes guards takes no constraint away. -/
theorem Follows.temporals {op : Edit α} (h : Follows (fun _ => True) op n) :
    n.temporals.size ≤ (op.after n).temporals.size :=
  (Covers.trail h).temporals

theorem temporals_attachState (span : Span) (id : EpisodeId) (constraint : StateConstraintId) :
    n.temporals.size ≤ ((attachState span id constraint).after n).temporals.size := by
  have each (k : Network) (ids : List EpisodeId) :
      (attachOverall constraint k ids).temporals = k.temporals := by
    induction ids generalizing k with
    | nil => rfl
    | cons id rest ih => exact ih (k.modifyEpisode id (withState .overall constraint))
  cases result : attachState span id constraint n with
  | ok u m =>
    rw [Attempt.after_of_ok result]
    obtain ⟨_, _, result⟩ := Attempt.read_bind_eq_ok_iff.mp result
    obtain ⟨_, _, result⟩ := Attempt.read_bind_eq_ok_iff.mp result
    obtain rfl := Attempt.modify_eq_ok_iff.mp result
    cases span with
    | start | finish => exact Nat.le_refl _
    | during | overall =>
      exact Nat.le_of_eq (congrArg Array.size (each (n.modifyEpisode id _) (n.unfolding id).tail)).symm
  | error fault m =>
    rw [Attempt.after_of_error result, attachState_eq_error result]

theorem temporals_attachTemporal (id : EpisodeId) (constraint : TemporalId) :
    n.temporals.size ≤ ((attachTemporal id constraint).after n).temporals.size := by
  refine Attempt.after_bind (R := fun n m : Network => n.temporals.size ≤ m.temporals.size)
    Nat.le_trans (by rw [Attempt.after_read]) fun _ k _ => ?_
  exact Attempt.after_bind (R := fun n m : Network => n.temporals.size ≤ m.temporals.size)
    Nat.le_trans (by rw [Attempt.after_read]) fun _ _ _ => Nat.le_refl _

theorem temporals_setDuration (id : EpisodeId) (spec : DurationSpec) :
    n.temporals.size ≤ ((setDuration id spec).after n).temporals.size := by
  refine Attempt.after_bind (R := fun n m : Network => n.temporals.size ≤ m.temporals.size)
    Nat.le_trans (by rw [Attempt.after_read]) fun episode k _ => ?_
  exact Attempt.after_bind (R := fun n m : Network => n.temporals.size ≤ m.temporals.size)
    Nat.le_trans (follows_addDuration ..).temporals fun _ _ _ => Nat.le_refl _

theorem temporals_setBounds (id : TemporalId) (lower upper : Number) :
    n.temporals.size ≤ ((setBounds id lower upper).after n).temporals.size := by
  refine Attempt.after_bind (R := fun n m : Network => n.temporals.size ≤ m.temporals.size)
    Nat.le_trans (by rw [Attempt.after_read]) fun _ k _ => ?_
  refine Attempt.after_bind (R := fun n m : Network => n.temporals.size ≤ m.temporals.size)
    Nat.le_trans (by rw [Attempt.after_ofExcept]) fun _ k _ => ?_
  exact Nat.le_of_eq (Array.size_modify ..).symm

theorem temporals_detachTemporal (id : TemporalId) :
    n.temporals.size ≤ ((detachTemporal id).after n).temporals.size := by
  cases result : detachTemporal id n with
  | ok u m =>
    rw [Attempt.after_of_ok result]
    exact (detaches_of_eq_ok result).grows
  | error fault m =>
    rw [Attempt.after_of_error result]
    have trail : Trail (fun _ => True) n m := trail_of_detachTemporal_eq_error result
    exact (Covers.trail trail).temporals

end Edit

theorem NetworkCall.temporals_run (call : NetworkCall α) (n : Network) :
    n.temporals.size ≤ (call.run.after n).temporals.size := by
  cases call <;> rw [NetworkCall.run]
  case addEventAs => exact (Edit.follows_addEventAs _).temporals
  case addChoice => exact (Edit.follows_addChoice _).temporals
  case addQuantity => exact (Edit.follows_addQuantity ..).temporals
  case addTemporal => exact (Edit.follows_addTemporal ..).temporals
  case addAssignmentConstraint => exact (Edit.follows_addAssignmentConstraint ..).temporals
  case addLinearConstraint => exact (Edit.follows_addLinearConstraint ..).temporals
  case addChance => exact (Edit.follows_addChance ..).temporals
  case addEpisode => exact (Edit.follows_addEpisode _).temporals
  case setDuration => exact Edit.temporals_setDuration ..
  case attachTemporal => exact Edit.temporals_attachTemporal ..
  case attachState => exact Edit.temporals_attachState ..
  case narrow => exact (Edit.follows_narrow ..).temporals
  case setSupport => exact (Edit.follows_setSupport (.inr trivial)).temporals
  case addLiteral element literal =>
    exact (Edit.follows_changeGuard fun _ _ _ changed => by cases changed; exact .inr trivial).temporals
  case setConjunction =>
    exact (Edit.follows_changeGuard fun _ _ _ changed => by cases changed; exact .inr trivial).temporals
  case clearSupport => exact (Edit.follows_clearSupport _).temporals
  case propagate => exact (Edit.follows_propagate ..).temporals
  case sequence => exact (Edit.follows_sequence ..).temporals
  case parallel => exact (Edit.follows_parallel ..).temporals
  case branch => exact (Edit.follows_branch ..).temporals

/-- No call takes a constraint out of the network. -/
theorem Network.respected_temporals :
    Respected .any fun n m : Network => n.temporals.size ≤ m.temporals.size where
  refl _ := Nat.le_refl _
  trans := Nat.le_trans
  count _ _ _ := Nat.le_refl _
  whole _ le := le
  call call n _ := call.temporals_run n
  event _ := Edit.follows_addEvent.temporals
  refresh id _ := (Edit.follows_refreshTemporal id).temporals
  bounds lower upper _ _ := Edit.temporals_setBounds _ lower upper
  detach id _ := Edit.temporals_detachTemporal id

theorem Call.temporals_run (call : Call α) (p : Program) :
    p.network.temporals.size ≤ (call.run.after p).network.temporals.size :=
  (call.respects_run respected_temporals call.brings_any p).network

/-- A new constraint is behind all that were there. -/
theorem Edit.added_of_addTemporal {start finish : EventId} {spec : DurationSpec}
    (done : Edit.atomically (Edit.addTemporal start finish spec) n = .ok id m) :
    id.index = n.temporals.size ∧ m.temporals.size = n.temporals.size + 1 := by
  have fresh {n m : Network} (done : Edit.addTemporal start finish spec n = .ok id m) :
      id.index = n.temporals.size ∧ m.temporals.size = n.temporals.size + 1 := by
    obtain ⟨_, _, resolved, linked⟩ := Attempt.bind_eq_ok_iff.mp done
    obtain ⟨_, rfl⟩ := Attempt.ofExcept_eq_ok_iff.mp resolved
    obtain ⟨_, _, _, rfl, rfl⟩ := Edit.link_eq_ok_iff.mp linked
    exact ⟨rfl, Edit.size_withLink⟩
  rcases Edit.of_atomically_eq_ok done with plain | ⟨k, inner, rfl⟩
  · exact fresh plain
  · have inside := fresh inner
    exact inside

/-! ## What makes a constraint the user's -/

/-- The constraint that a call registers, if it registers one. -/
def Call.registers? : Call α → Option TemporalId
  | registerConstraint id => some id
  | _ => none

/-- The call makes a constraint that is there one of the user's: it succeeds, and
it registers the constraint or composes a fragment that carries it. -/
def Call.Reinstates (id : TemporalId) (p : Program) (call : Call α) : Prop :=
  call.run.isRefused p = false ∧ (call.registers? = some id ∨
    ∃ components, call.components? = some components ∧ ∃ s ∈ carried components, id ∈ s.toList)

namespace Build

/-- Whatever the outcome, nothing becomes one of the user's constraints. -/
def Sheds (op : Build α) (p : Program) : Prop :=
  (op.after p).userConstraints.toList ⊆ p.userConstraints.toList

theorem Spares.sheds {op : Build α} (h : Spares op p) : Sheds op p :=
  fun _ member => h ▸ member

theorem Looks.sheds {op : Build α} (h : Looks op p) : Sheds op p := h.spares.sheds

theorem Sheds.bind {op : Build α} {next : α → Build β} (first : Sheds op p)
    (rest : ∀ a q, Sheds (next a) q) : Sheds (op >>= next) p :=
  Attempt.after_bind
    (R := fun p q : Program => q.userConstraints.toList ⊆ p.userConstraints.toList)
    (fun first second _ member => first (second member)) first fun a q _ => rest a q

theorem sheds_each {op : β → Build Unit} (each : ∀ b p, Sheds (op b) p) (items : List β) :
    Sheds (Attempt.each op items) p := by
  induction items generalizing p with
  | nil => exact (looks_pure ()).sheds
  | cons item rest ih => exact (each item p).bind fun _ _ => ih

theorem sheds_removeConstraint (id : TemporalId) : Sheds (removeConstraint id) p :=
  (spares_onNetwork _).sheds.bind fun _ _ _ member => (OrdSet.mem_erase_iff.mp member).1

theorem sheds_simplify : Sheds simplify p := by
  refine looks_constraints.sheds.bind fun _ _ => (looks_read _).sheds.bind fun _ _ => ?_
  refine (sheds_each (fun _ _ => (spares_onNetwork _).sheds) _).bind fun _ _ => ?_
  refine (sheds_each (fun _ _ => sheds_removeConstraint _) _).bind fun _ _ => ?_
  exact (spares_modify rfl).sheds

theorem looks_throw (fault : Fault) : Looks (throw fault : Build α) p := looks_of_unchanged rfl

theorem sheds_registerChance (id : ChanceId) : Sheds (registerChance id) p := by
  refine (looks_read _).sheds.bind fun _ _ => looks_get.sheds.bind fun _ _ => ?_
  dsimp only
  split
  · exact (looks_throw _).sheds.bind fun _ _ => (spares_modify rfl).sheds
  · exact (spares_modify rfl).sheds

theorem sheds_addOverallState (id : StateConstraintId) : Sheds (addOverallState id) p := by
  refine looks_get.sheds.bind fun _ _ => ?_
  split
  · exact (looks_throw _).sheds
  · exact (spares_onNetwork _).sheds.bind fun _ _ => (spares_modify rfl).sheds

theorem looks_choicesWhere (keep : Controllability → Bool) : Looks (choicesWhere keep) p :=
  looks_view.bind fun _ _ => looks_read _

theorem looks_quantities : Looks quantities p :=
  looks_get.bind fun _ _ => looks_view.bind fun _ _ => looks_read _

theorem looks_episodeById (id : String) : Looks (episodeById id) p := by
  refine looks_view.bind fun _ _ => looks_get.bind fun _ _ => ?_
  split
  · exact looks_pure _
  · exact looks_throw _

theorem looks_summary : Looks summary p :=
  (looks_choicesWhere _).bind fun _ _ => (looks_choicesWhere _).bind fun _ _ =>
    (looks_choicesWhere _).bind fun _ _ => looks_quantities.bind fun _ _ =>
    looks_constraints.bind fun _ _ => looks_view.bind fun _ _ => looks_get.bind fun _ _ =>
    looks_pure _

/-- The user may get one more constraint, and that one is new. -/
theorem mem_of_addConstraint {start finish : EventId} {spec : DurationSpec}
    (member : id ∈ ((addConstraint start finish spec).after p).userConstraints.toList) :
    id ∈ p.userConstraints.toList ∨ p.network.temporals.size ≤ id.index := by
  cases result : addConstraint start finish spec p with
  | ok added q =>
    rw [Attempt.after_of_ok result] at member
    obtain ⟨_, _, made, rest⟩ := Attempt.bind_eq_ok_iff.mp result
    obtain ⟨n, inner, rfl⟩ := Attempt.focus_eq_ok_iff.mp made
    obtain ⟨_, _, adopted, returned⟩ := Attempt.bind_eq_ok_iff.mp rest
    obtain rfl := Attempt.modify_eq_ok_iff.mp adopted
    obtain ⟨rfl, rfl⟩ := Attempt.pure_eq_ok_iff.mp returned
    rcases OrdSet.mem_insert_iff.mp member with rfl | old
    · exact .inr (Nat.le_of_eq (Edit.added_of_addTemporal inner).1.symm)
    · exact .inl old
  | error fault q =>
    rw [Attempt.after_of_error result] at member
    rcases Attempt.bind_eq_error_iff.mp result with stopped | ⟨_, _, _, settled⟩
    · exact .inl ((spares_onNetwork _).of_error stopped ▸ member)
    · exact absurd settled Attempt.modify_return_ne_error

theorem mem_of_addOverallConstraint {spec : DurationSpec}
    (member : id ∈ ((addOverallConstraint spec).after p).userConstraints.toList) :
    id ∈ p.userConstraints.toList ∨ p.network.temporals.size ≤ id.index := by
  rcases Attempt.after_read_bind Program.firstEvent _ with ⟨first, _, same⟩ | same
  · rw [addOverallConstraint, same] at member
    rcases Attempt.after_read_bind Program.lastEvent _ with ⟨last, _, same⟩ | same
    · rw [same] at member
      exact mem_of_addConstraint member
    · exact .inl (same ▸ member)
  · exact .inl (same ▸ member)

/-- If an operation that takes constraints over succeeds, the user gets just those. -/
theorem TakesOver.mem_userConstraints {sets : List (OrdSet TemporalId)} {op : Build α}
    (takes : TakesOver sets op p) (member : id ∈ (op.after p).userConstraints.toList) :
    id ∈ p.userConstraints.toList ∨ op.isRefused p = false ∧ ∃ s ∈ sets, id ∈ s.toList := by
  cases result : op p with
  | ok a q =>
    rw [Attempt.after_of_ok result] at member
    obtain ⟨s, among, inside⟩ := ((takes.ok result).mem_iff id).mp member
    rcases List.mem_cons.mp among with rfl | carried
    · exact .inl inside
    · exact .inr ⟨by rw [Attempt.isRefused, result], s, carried, inside⟩
  | error fault q =>
    rw [Attempt.after_of_error result, takes.refused result] at member
    exact .inl member

/-- If a registration succeeds, the user gets the constraint that is registered. -/
theorem mem_of_registerConstraint {registered : TemporalId}
    (member : id ∈ ((registerConstraint registered).after p).userConstraints.toList) :
    id ∈ p.userConstraints.toList ∨
      (registerConstraint registered).isRefused p = false ∧ registered = id := by
  cases result : registerConstraint registered p with
  | ok u q =>
    have succeeds : (registerConstraint registered).isRefused p = false := by
      rw [Attempt.isRefused, result]
    rw [Attempt.after_of_ok result] at member
    obtain ⟨_, _, rest⟩ := Attempt.read_bind_eq_ok_iff.mp result
    obtain ⟨_, _, ⟨⟩, rest⟩ := Attempt.bind_eq_ok_iff.mp rest
    dsimp only at rest
    by_cases known : p.userConstraints.contains registered = true
    · rw [if_pos known] at rest
      obtain ⟨_, _, ⟨⟩, _⟩ := Attempt.bind_eq_ok_iff.mp rest
    · rw [if_neg known] at rest
      obtain ⟨_, _, refreshed, adopted⟩ := Attempt.bind_eq_ok_iff.mp rest
      obtain rfl := Attempt.modify_eq_ok_iff.mp adopted
      have same := (spares_onNetwork _).of_ok refreshed
      rcases OrdSet.mem_insert_iff.mp member with rfl | old
      · exact .inr ⟨succeeds, rfl⟩
      · exact .inl (same ▸ old)
  | error fault q =>
    rw [Attempt.after_of_error result] at member
    rcases registerConstraint_eq_error result with rfl | stopped
    · exact .inl member
    · exact .inl ((spares_onNetwork _).of_error stopped ▸ member)

end Build

/-- After a call, whatever the outcome, a constraint is the user's only if it was
before, or is new, or was brought back by the call. -/
theorem Call.mem_userConstraints (call : Call α)
    (member : id ∈ (call.run.after p).userConstraints.toList) :
    id ∈ p.userConstraints.toList ∨ p.network.temporals.size ≤ id.index ∨
      call.Reinstates id p := by
  have shed (h : Build.Sheds call.run p) : id ∈ p.userConstraints.toList ∨
      p.network.temporals.size ≤ id.index ∨ call.Reinstates id p := .inl (h member)
  have composed {components : List Component} (h : call.components? = some components) :
      id ∈ p.userConstraints.toList ∨ p.network.temporals.size ≤ id.index ∨
        call.Reinstates id p := by
    rcases (call.takesOver_run h p).mem_userConstraints member with old | ⟨succeeds, carried⟩
    · exact .inl old
    · exact .inr (.inr ⟨succeeds, .inr ⟨components, h, carried⟩⟩)
  cases call
  case sequence => exact composed rfl
  case parallel => exact composed rfl
  case branch => exact composed rfl
  case decide => exact composed rfl
  case observe => exact composed rfl
  case setPlan => exact composed rfl
  case appendSequence => exact composed rfl
  case appendParallel => exact composed rfl
  case addConstraint => exact (Build.mem_of_addConstraint member).imp_right .inl
  case addOverallConstraint => exact (Build.mem_of_addOverallConstraint member).imp_right .inl
  case registerConstraint registered =>
    rcases Build.mem_of_registerConstraint member with old | ⟨succeeds, rfl⟩
    · exact .inl old
    · exact .inr (.inr ⟨succeeds, .inl rfl⟩)
  all_goals refine shed ?_; rw [Call.run]
  case setName => exact (Build.spares_modify rfl).sheds
  case setInitialState =>
    exact (Build.looks_read _).sheds.bind fun _ _ => (Build.spares_modify rfl).sheds
  case setGoalState =>
    exact (Build.looks_read _).sheds.bind fun _ _ => (Build.spares_modify rfl).sheds
  case allocate => exact (Build.spares_onNetwork _).sheds
  case addEvent => exact (Build.spares_onNetwork _).sheds
  case addChoice => exact (Build.spares_onNetwork _).sheds
  case addEpisode => exact (Build.spares_atomically fun _ => Build.spares_placed _).sheds
  case addQuantity =>
    exact (Build.spares_onNetwork _).sheds.bind fun _ _ =>
      (Build.spares_modify rfl).sheds.bind fun _ _ => (Build.looks_pure _).sheds
  case removeConstraint => exact Build.sheds_removeConstraint _
  case addChance =>
    exact (Build.spares_onNetwork _).sheds.bind fun _ _ =>
      (Build.spares_modify rfl).sheds.bind fun _ _ => (Build.looks_pure _).sheds
  case registerChance => exact Build.sheds_registerChance _
  case addOverallState => exact Build.sheds_addOverallState _
  case simplify => exact Build.sheds_simplify
  case view => exact Build.looks_view.sheds
  case episodes => exact (Build.looks_view.bind fun _ _ => Build.looks_get.bind fun _ _ => Build.looks_pure _).sheds
  case constraints => exact Build.looks_constraints.sheds
  case choicesWhere => exact (Build.looks_choicesWhere _).sheds
  case quantities => exact Build.looks_quantities.sheds
  case episodeById => exact (Build.looks_episodeById _).sheds
  case fingerprint => exact (Build.looks_get.bind fun _ _ => Build.looks_view.bind fun _ _ =>
      (Build.looks_read _).bind fun _ _ => Build.looks_pure _).sheds
  case summary => exact Build.looks_summary.sheds
  case hierarchy => exact ((Build.looks_choicesWhere _).bind fun _ _ => Build.looks_constraints.bind fun _ _ =>
      Build.looks_read _).sheds
  case touch => exact (Build.spares_modify rfl).sheds
  case edit =>
    exact (Build.spares_modify rfl).sheds.bind fun _ _ => (Build.spares_onNetwork _).sheds

/-! ## Runs that do not bring a constraint back -/

/-- What a program and those that wait for it come to by calls, none of which
makes the constraint the user's again, and by bodies of fragments that start and
end. -/
inductive Continues (id : TemporalId) (p : Program) (waiting : List Program) :
    Program → List Program → Prop where
  /-- Nothing has happened yet. -/
  | start : Continues id p waiting p waiting
  /-- A call is made, and succeeds or is refused. -/
  | call {q : Program} {rest : List Program} {α : Type} (call : Call α)
      (other : ¬ call.Reinstates id q) (before : Continues id p waiting q rest) :
      Continues id p waiting (call.run.after q) rest
  /-- The body of a fragment starts. -/
  | enter {q : Program} {rest : List Program} (before : Continues id p waiting q rest) :
      Continues id p waiting (Session.setAside q) (q :: rest)
  /-- The body of a fragment ends. -/
  | leave {q r : Program} {rest : List Program} (before : Continues id p waiting r (q :: rest)) :
      Continues id p waiting (Session.takeBack q r) rest

/-- What goes on from a program that has come about comes about. -/
theorem Continues.reached (run : Continues id p waiting q rest) (start : Reached .free p waiting) :
    Reached .free q rest := by
  induction run with
  | start => exact start
  | call call _ _ ih => exact ih.call call trivial
  | enter _ ih => exact ih.enter
  | leave _ ih => exact ih.leave

theorem Continues.temporals (run : Continues id p waiting q rest) :
    p.network.temporals.size ≤ q.network.temporals.size := by
  induction run with
  | start => exact Nat.le_refl _
  | call call _ _ ih => exact Nat.le_trans ih (call.temporals_run _)
  | enter _ ih => exact ih
  | leave _ ih => exact ih

/-- Wherever a program stands in the stack after the run, if it owns the constraint
then the one that stood there when the run began did so, and it was waiting. -/
theorem Continues.exists_waiting (run : Continues id p waiting q rest)
    (there : id.index < p.network.temporals.size) (removed : id ∉ p.userConstraints.toList) :
    ∀ r below, (r :: below) <:+ (q :: rest) → id ∈ r.userConstraints.toList →
      ∃ outer, (outer :: below) <:+ waiting ∧ id ∈ outer.userConstraints.toList := by
  induction run with
  | start =>
    intro r below stands owns
    rcases List.suffix_cons_iff.mp stands with same | inside
    · obtain ⟨rfl, rfl⟩ := List.cons.inj same
      exact absurd owns removed
    · exact ⟨r, inside, owns⟩
  | @call q rest α call other before ih =>
    intro r below stands owns
    rcases List.suffix_cons_iff.mp stands with same | inside
    · obtain ⟨rfl, rfl⟩ := List.cons.inj same
      rcases call.mem_userConstraints owns with old | new | reinstated
      · exact ih q below List.suffix_rfl old
      · exact absurd (Nat.lt_of_lt_of_le there before.temporals) (Nat.not_lt.mpr new)
      · exact absurd reinstated other
    · exact ih r below (inside.trans (List.suffix_cons _ _)) owns
  | enter _ ih =>
    intro r below stands owns
    rcases List.suffix_cons_iff.mp stands with same | inside
    · obtain ⟨rfl, rfl⟩ := List.cons.inj same
      exact absurd owns OrdSet.not_mem_empty
    · exact ih r below inside owns
  | @leave q r rest _ ih =>
    intro s below stands owns
    rcases List.suffix_cons_iff.mp stands with same | inside
    · obtain ⟨rfl, rfl⟩ := List.cons.inj same
      exact ih q below (List.suffix_cons _ _) owns
    · exact ih s below (inside.trans ((List.suffix_cons _ _).trans (List.suffix_cons _ _))) owns

/-- How long a removal lasts. After a constraint of the network has been removed,
and as long as no call registers it or composes a fragment that carries it, it is
the user's neither in the body where it was removed nor in one that starts later.
It is so again only when that body has ended, in a program that was waiting for
it and that owned the constraint all the while. So a removal lasts for good where
no program waits. -/
theorem Program.removal_lasts_while_body_runs (there : id.index < p.network.temporals.size)
    (removed : Build.removeConstraint id p = .ok () q) (run : Continues id q waiting r rest)
    (owns : id ∈ r.userConstraints.toList) :
    ∃ outer, (outer :: rest) <:+ waiting ∧ id ∈ outer.userConstraints.toList := by
  have gone := Build.removes_of_removeConstraint removed
  have after : id ∉ q.userConstraints.toList := fun member =>
    ((gone.user id).mp member).2 (List.mem_singleton.mpr rfl)
  exact run.exists_waiting (Nat.lt_of_lt_of_le there gone.network.grows) after r rest
    List.suffix_rfl owns

/-- Two events with one constraint of the user. -/
def Program.linked : Program :=
  (Program.ofConfig {}).afterCalls [⟨_, .addEvent⟩, ⟨_, .addEvent⟩,
    ⟨_, .addConstraint ⟨0⟩ ⟨1⟩ .unconstrained⟩]

theorem Program.reached_linked : Reached .free linked [] :=
  (reached_of_config (by decide +kernel)).afterCalls fun _ _ => trivial

/-- The body of a fragment removes the constraint and ends. -/
theorem Program.removal_lasts_while_body_runs_linked :
    ∃ q, Build.removeConstraint ⟨0⟩ (Session.setAside linked) = .ok () q ∧
      ∃ outer, [outer] <:+ [linked] ∧ (⟨0⟩ : TemporalId) ∈ outer.userConstraints.toList := by
  obtain ⟨_, removed⟩ := Attempt.exists_eq_ok_after (Build.removeConstraint ⟨0⟩)
    (Session.setAside linked) (by decide +kernel)
  exact ⟨_, removed, removal_lasts_while_body_runs (by decide +kernel) removed
    (.leave .start) (by decide +kernel)⟩

/-- A constraint that has been removed in the body of a fragment is the user's again
when the body ends, though no call has registered it or taken it over. -/
theorem Program.removal_is_undone_linked :
    let p := Session.setAside linked
    let q := (Build.removeConstraint ⟨0⟩).after p
    let r := Session.takeBack linked q
    Reached .free p [linked] ∧ Build.removeConstraint ⟨0⟩ p = .ok () q ∧
      Continues ⟨0⟩ q [linked] r [] ∧ Reached .free r [] ∧
      (⟨0⟩ : TemporalId) ∈ r.userConstraints.toList := by
  intro p q r
  obtain ⟨_, removed⟩ := Attempt.exists_eq_ok_after (Build.removeConstraint ⟨0⟩) p
    (by decide +kernel)
  have start : Reached .free p [linked] := reached_linked.enter
  have begins : Reached .free q [linked] := start.call (.removeConstraint ⟨0⟩) trivial
  have run : Continues ⟨0⟩ q [linked] r [] := .leave .start
  exact ⟨start, removed, run, run.reached begins, by decide +kernel⟩

end PlanNetwork
