/-
# Calls that leave alone what is there

What makes elements changes none that are there, nor the plan, nor the user's constraints, and
what an id names it still names. The same is true of what is refused and undone. A caller who
asks for the network to do something with it makes the program forget its last traversal, and
that is all.
-/

import PlanNetwork.Proofs.Network.Refusal
import PlanNetwork.Proofs.Program.Atomicity
import PlanNetwork.Proofs.Program.Reading

namespace PlanNetwork

open Network

variable {p q r : Program} {α β : Type} {fault : Fault}

namespace Program

/-- Every element that was there is exactly what it was, and so is all that a traversal
depends on. -/
structure Preserves (p q : Program) : Prop where
  /-- The result of the last traversal is the same. -/
  traversal : q.traversal = p.traversal
  /-- The plan is the same. -/
  plan : q.plan = p.plan
  /-- The user's constraints are the same. -/
  userConstraints : q.userConstraints = p.userConstraints
  /-- Elements are what they were. -/
  network : p.network.Preserves q.network
  /-- What an id names, it still names. -/
  registry : ∀ {name id}, p.registry.get? name = some id → q.registry.get? name = some id

namespace Preserves

theorem refl (p : Program) : Preserves p p := ⟨rfl, rfl, rfl, .refl _, id⟩

theorem trans (first : Preserves p q) (second : Preserves q r) : Preserves p r :=
  ⟨second.traversal.trans first.traversal, second.plan.trans first.plan,
    second.userConstraints.trans first.userConstraints, first.network.trans second.network,
    second.registry ∘ first.registry⟩

theorem of_spends (spends : p.Spends q) : Preserves p q := by
  obtain ⟨later, _, rfl⟩ := spends
  exact ⟨rfl, rfl, rfl, .withSerial _ later, id⟩

theorem stale (h : Preserves p q) : Preserves p.stale q.stale :=
  ⟨rfl, h.plan, h.userConstraints, h.network, h.registry⟩

end Preserves

/-- The same is there, but the last traversal may have been forgotten. -/
def Sustains (p q : Program) : Prop := p.Preserves q ∨ p.stale.Preserves q

namespace Sustains

theorem trans (first : Sustains p q) (second : Sustains q r) : Sustains p r := by
  rcases first with kept | forgotten <;> rcases second with kept' | forgotten'
  · exact .inl (kept.trans kept')
  · exact .inr (kept.stale.trans forgotten')
  · exact .inr (forgotten.trans kept')
  · exact .inr (forgotten.stale.trans forgotten')

end Sustains

end Program

namespace Build

/-- Whatever the outcome, all that is there is what it was. -/
def Preserves (op : Build α) (p : Program) : Prop := p.Preserves (op.after p)

theorem preserves_of_unchanged {op : Build α} (same : op.after p = p) : Preserves op p := by
  rw [Preserves, same]
  exact .refl p

theorem preserves_pure (a : α) : Preserves (pure a : Build α) p := preserves_of_unchanged rfl

theorem preserves_throw (fault : Fault) : Preserves (throw fault : Build α) p :=
  preserves_of_unchanged rfl

theorem preserves_read (view : Program → Except Fault α) : Preserves (Attempt.read view) p :=
  preserves_of_unchanged (Attempt.after_read view)

theorem preserves_get : Preserves (get : Build Program) p := preserves_of_unchanged rfl

theorem Preserves.bind {op : Build α} {next : α → Build β} (first : Preserves op p)
    (rest : ∀ a q, Preserves (next a) q) : Preserves (op >>= next) p :=
  Attempt.after_bind (R := Program.Preserves) Program.Preserves.trans first fun a q _ => rest a q

theorem preserves_modify {change : Program → Program} (h : p.Preserves (change p)) :
    Preserves (modify change) p :=
  h

theorem preserves_onNetwork {op : Edit α} (h : Edit.Preserves op p.network) :
    Preserves (onNetwork op) p := by
  unfold Preserves onNetwork
  rw [Attempt.after_focus]
  exact ⟨rfl, rfl, rfl, h, id⟩

/-! ## Making elements -/

theorem preserves_register (id : EpisodeId) : Preserves (register id) p := by
  cases result : register id p with
  | ok u q =>
    have enrolled := enrolled_of_register result
    rw [Preserves, Attempt.after_of_ok result, enrolled.same]
    exact ⟨rfl, rfl, rfl, .refl _, enrolled.older⟩
  | error fault q =>
    rw [Preserves, Attempt.after_of_error result, register_eq_error result]
    exact .refl p

theorem preserves_addEpisode (spec : EpisodeSpec) (idle : p.network.journal = none) :
    Preserves (addEpisode spec) p := by
  cases result : addEpisode spec p with
  | ok id q =>
    obtain ⟨k, done, rfl⟩ := atomically_eq_ok idle result
    have start : p.Preserves (p.mapNetwork .checkpoint) :=
      ⟨rfl, rfl, rfl, .checkpoint _, fun held => held⟩
    have finish : k.Preserves (k.mapNetwork .commit) :=
      ⟨rfl, rfl, rfl, .commit _, fun held => held⟩
    have steps (p : Program) : Preserves (placed (Edit.addEpisode spec)) p :=
      (preserves_onNetwork (Edit.preserves_addEpisode spec)).bind fun id _ =>
        (preserves_register id).bind fun _ _ => preserves_pure id
    rw [Preserves, Attempt.after_of_ok result]
    exact (start.trans (Attempt.after_of_ok done ▸ steps _)).trans finish
  | error fault q =>
    rw [Preserves, Attempt.after_of_error result]
    exact .of_spends (spends_of_addEpisode idle result)

theorem preserves_addQuantity (name : String) (domain : StateDomain) :
    Preserves (addQuantity name domain) p :=
  (preserves_onNetwork (Edit.preserves_addQuantity name domain)).bind fun id _ =>
    Preserves.bind (preserves_modify ⟨rfl, rfl, rfl, .refl _, fun held => held⟩) fun _ _ =>
      preserves_pure id

theorem preserves_addChance (constraints : List ConstraintId) (risk : Number) :
    Preserves (addChance constraints risk) p :=
  (preserves_onNetwork (Edit.preserves_addChance constraints risk)).bind fun id _ =>
    Preserves.bind (preserves_modify ⟨rfl, rfl, rfl, .refl _, fun held => held⟩) fun _ _ =>
      preserves_pure id

theorem preserves_registerChance (id : ChanceId) : Preserves (registerChance id) p := by
  refine (preserves_read _).bind fun _ _ => preserves_get.bind fun _ _ => ?_
  split
  · exact preserves_throw _
  · exact preserves_modify ⟨rfl, rfl, rfl, .refl _, fun held => held⟩

/-- What is asked of the network makes the program forget its last traversal. -/
theorem preserves_edit {op : Edit α} (h : Edit.Preserves op p.network) :
    p.stale.Preserves ((edit op).after p) :=
  preserves_onNetwork (p := p.stale) h

/-! ## What is refused -/

theorem spends_of_addOverallConstraint {spec : DurationSpec} (idle : p.network.journal = none)
    (refused : addOverallConstraint spec p = .error fault q) : p.Spends q := by
  rcases Attempt.bind_eq_error_iff.mp refused with stopped | ⟨first, k, read, rest⟩
  · exact spends_of_read stopped
  obtain ⟨_, same⟩ := Attempt.read_eq_ok_iff.mp read
  rw [same] at rest
  rcases Attempt.bind_eq_error_iff.mp rest with stopped | ⟨last, l, read, added⟩
  · exact spends_of_read stopped
  obtain ⟨_, same⟩ := Attempt.read_eq_ok_iff.mp read
  rw [same] at added
  exact spends_of_addConstraint idle added

theorem addOverallState_eq_error {id : StateConstraintId}
    (refused : addOverallState id p = .error fault q) : q = p := by
  rcases Attempt.bind_eq_error_iff.mp refused with ⟨⟨⟩⟩ | ⟨now, _, got, rest⟩
  obtain ⟨rfl, rfl⟩ := Attempt.get_eq_ok_iff.mp got
  generalize Program.plan _ = planned at rest
  cases planned with
  | none => exact (Attempt.throw_eq_error_iff.mp rest).2
  | some plan =>
    rcases Attempt.bind_eq_error_iff.mp rest with stopped | ⟨_, _, _, ⟨⟨⟩⟩⟩
    obtain ⟨m, failed, rfl⟩ := Attempt.focus_eq_error_iff.mp stopped
    rw [Edit.attachState_eq_error failed]
    rfl

end Build

/-! ## Calls -/

namespace Call

/-- The calls that make elements, or ask for the network to make them there. -/
def isAdditive : Call α → Bool
  | allocate .. | addEvent | addChoice .. | addEpisode .. | addQuantity .. => true
  | addChance .. | registerChance .. | touch => true
  | edit call => call.isAdditive
  | _ => false

/-- The calls that leave alone all that is there if they are refused. -/
def isUndone : Call α → Bool
  | addOverallConstraint .. | addOverallState .. | edit .. => true
  | call => call.isAtomic

theorem sustains_of_additive (call : Call α) (additive : call.isAdditive = true)
    (idle : p.network.journal = none) : p.Sustains (call.run.after p) := by
  cases call with
  | allocate kind => exact .inl (Build.preserves_onNetwork (Edit.preserves_allocate kind))
  | addEvent => exact .inl (Build.preserves_onNetwork Edit.preserves_addEvent)
  | addChoice spec => exact .inl (Build.preserves_onNetwork (Edit.preserves_addChoice spec))
  | addEpisode spec => exact .inl (Build.preserves_addEpisode spec idle)
  | addQuantity name domain => exact .inl (Build.preserves_addQuantity name domain)
  | addChance constraints risk => exact .inl (Build.preserves_addChance constraints risk)
  | registerChance id => exact .inl (Build.preserves_registerChance id)
  | touch => exact .inr (.refl p.stale)
  | edit call => exact .inr (Build.preserves_edit (call.preserves_run additive p.network))
  | _ => cases additive

/-- If a call is refused that takes effect as a whole, serial numbers are all that is left
of it. -/
theorem spends_of_refused (call : Call α) (atomic : call.isAtomic = true)
    (idle : p.network.journal = none) (refused : call.run p = .error fault q) : p.Spends q := by
  cases call with
  | sequence => exact Build.spends_of_sequence idle refused
  | parallel => exact Build.spends_of_parallel idle refused
  | branch => exact Build.spends_of_branch idle refused
  | decide => exact Build.spends_of_decide idle refused
  | observe => exact Build.spends_of_observe idle refused
  | setPlan => exact Build.spends_of_setPlan idle refused
  | appendSequence =>
    exact Build.spends_of_extendPlan Build.sequence (Build.spends_of_sequence idle) idle refused
  | appendParallel =>
    exact Build.spends_of_extendPlan Build.parallel (Build.spends_of_parallel idle) idle refused
  | addEpisode => exact Build.spends_of_addEpisode idle refused
  | addConstraint => exact Build.spends_of_addConstraint idle refused
  | registerConstraint => exact Build.spends_of_registerConstraint idle refused
  | removeConstraint => exact Build.spends_of_removeConstraint idle refused
  | _ => cases atomic

theorem sustains_of_refused (call : Call α) (undone : call.isUndone = true)
    (idle : p.network.journal = none) (refused : call.run p = .error fault q) : p.Sustains q := by
  by_cases atomic : call.isAtomic = true
  · exact .inl (.of_spends (call.spends_of_refused atomic idle refused))
  cases call with
  | addOverallConstraint spec =>
    exact .inl (.of_spends (Build.spends_of_addOverallConstraint idle refused))
  | addOverallState id =>
    rw [Build.addOverallState_eq_error refused]
    exact .inl (.refl p)
  | edit call =>
    obtain ⟨_, _, forgotten, rest⟩ := (Attempt.bind_eq_error_iff.mp refused).resolve_left nofun
    obtain rfl := Attempt.modify_eq_ok_iff.mp forgotten
    obtain ⟨m, stopped, rfl⟩ := Attempt.focus_eq_error_iff.mp rest
    exact .inr ⟨rfl, rfl, rfl, call.preserves_of_refused idle stopped, id⟩
  | _ => exact absurd undone atomic

end Call

end PlanNetwork
