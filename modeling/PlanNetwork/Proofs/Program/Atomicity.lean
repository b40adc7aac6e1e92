/-
# A refused operation leaves the program as it was

Operations that compose episodes, make them, or give and take the user's
constraints take effect as a whole or not at all. If one is refused, every
element with all its fields, the plan, the user's constraints, the states and
the registry are what they were. Serial numbers that were given out on the way
stay given out, and that is all that is left of it.
-/

import PlanNetwork.Proofs.Program.Reachability

namespace PlanNetwork

open Network

variable {p q : Program} {fault : Fault}

/-- The calls that take effect as a whole or not at all. -/
def Call.isAtomic {α : Type} : Call α → Bool
  | sequence .. | parallel .. | branch .. | decide .. | observe .. => true
  | setPlan .. | appendSequence .. | appendParallel .. | addEpisode .. => true
  | addConstraint .. | registerConstraint .. | removeConstraint .. => true
  | _ => false

/-- The program `q` is `p` after some serial numbers were given out. -/
def Program.Spends (p q : Program) : Prop :=
  ∃ nextSerial, p.network.nextSerial ≤ nextSerial ∧
    q = p.withNetwork (p.network.withSerial nextSerial)

namespace Build

theorem spends_refl (p : Program) : p.Spends p := ⟨p.network.nextSerial, Nat.le_refl _, rfl⟩

theorem spends_of_read {α : Type} {view : Program → Except Fault α}
    (refused : Attempt.read view p = .error fault q) : p.Spends q := by
  obtain ⟨_, same⟩ := Attempt.read_eq_error_iff.mp refused
  exact same ▸ spends_refl p

theorem spends_of_throw {α : Type} {thrown : Fault}
    (refused : (throw thrown : Build α) p = .error fault q) : p.Spends q := by
  obtain ⟨_, same⟩ := Attempt.throw_eq_error_iff.mp refused
  exact same ▸ spends_refl p

/-- An operation on the network that takes effect as a whole. -/
theorem spends_of_onNetwork {α : Type} {op : Edit α} (idle : p.network.journal = none)
    (steps : ∀ {n m fault}, op n = .error fault m → Trail (fun _ => True) n m)
    (refused : onNetwork (Edit.atomically op) p = .error fault q) : p.Spends q := by
  obtain ⟨n, stopped, rfl⟩ := Attempt.focus_eq_error_iff.mp refused
  obtain ⟨nextSerial, later, rfl⟩ := Edit.atomically_eq_error idle (fun _ => steps) stopped
  exact ⟨nextSerial, later, rfl⟩

theorem spends_of_addEpisode {spec : EpisodeSpec} (idle : p.network.journal = none)
    (refused : addEpisode spec p = .error fault q) : p.Spends q := by
  have steps {p q fault} (stopped : placed (Edit.addEpisode spec) p = .error fault q) :
      Reaches (fun _ => True) p q :=
    reaches_of_placed_eq_error (fun _ => Edit.follows_addEpisode spec) stopped
  exact atomically_eq_error (placed (Edit.addEpisode spec)) idle steps refused

/-! ## Compositions -/

theorem spends_of_assemble {components : List Component} {op : List EpisodeId → Edit EpisodeId}
    (steps : ∀ episodes n, Edit.Follows (fun _ => True) (op episodes) n)
    (idle : p.network.journal = none) (refused : assemble components op p = .error fault q) :
    p.Spends q := by
  rcases Attempt.bind_eq_error_iff.mp refused with stopped | ⟨⟨episodes, absorbed⟩, _, read, rest⟩
  · exact spends_of_read stopped
  obtain ⟨_, rfl⟩ := Attempt.read_eq_ok_iff.mp read
  dsimp only at rest
  by_cases empty : episodes.isEmpty = true
  · rw [if_pos empty] at rest
    rcases Attempt.bind_eq_error_iff.mp rest with stopped | ⟨_, _, ⟨⟨⟩⟩, _⟩
    exact spends_of_throw stopped
  · rw [if_neg empty] at rest
    rcases Attempt.bind_eq_error_iff.mp rest with stopped | ⟨_, _, _, settled⟩
    · exact atomically_eq_error (placed (composed op episodes absorbed)) idle
        (reaches_of_placed_eq_error (follows_composed steps episodes absorbed)) stopped
    · exact absurd settled Attempt.modify_return_ne_error

/-- Filling in options from the configuration comes before everything and is
never refused. -/
theorem of_inherited_eq_error {options : CompositionOptions}
    {next : CompositionOptions → Build EpisodeId}
    (refused : (inherited options >>= next) p = .error fault q) :
    ∃ filled, next filled p = .error fault q := by
  rcases Attempt.bind_eq_error_iff.mp refused with ⟨⟨⟩⟩ | ⟨filled, _, ⟨⟩, rest⟩
  exact ⟨_, rest⟩

theorem spends_of_sequence {components : List Component} {options : CompositionOptions}
    (idle : p.network.journal = none) (refused : sequence components options p = .error fault q) :
    p.Spends q := by
  obtain ⟨filled, rest⟩ := of_inherited_eq_error refused
  exact spends_of_assemble (fun episodes _ => Edit.follows_sequence episodes filled) idle rest

theorem spends_of_parallel {components : List Component} {options : CompositionOptions}
    (idle : p.network.journal = none) (refused : parallel components options p = .error fault q) :
    p.Spends q := by
  obtain ⟨filled, rest⟩ := of_inherited_eq_error refused
  exact spends_of_assemble (fun episodes _ => Edit.follows_parallel episodes filled) idle rest

theorem spends_of_branch {choice : EventId} {components : List Component}
    {options : CompositionOptions} (idle : p.network.journal = none)
    (refused : branch choice components options p = .error fault q) : p.Spends q := by
  obtain ⟨filled, rest⟩ := of_inherited_eq_error refused
  exact spends_of_assemble (fun episodes _ => Edit.follows_branch choice episodes filled) idle rest

theorem spends_of_branchNew {spec : ChoiceSpec} {components : List Component}
    {options : CompositionOptions} (idle : p.network.journal = none)
    (refused : branchNew spec components options p = .error fault q) : p.Spends q := by
  obtain ⟨filled, rest⟩ := of_inherited_eq_error refused
  exact spends_of_assemble (follows_branchNew spec filled) idle rest

theorem spends_of_decide {spec : ChoiceSpec} {components : List Component}
    {options : CompositionOptions} (idle : p.network.journal = none)
    (refused : Build.decide spec components options p = .error fault q) : p.Spends q := by
  unfold Build.decide at refused
  generalize spec.kind = kind at refused
  cases kind with
  | none => exact spends_of_branchNew idle refused
  | some kind =>
    cases kind with
    | controllable => exact spends_of_branchNew idle refused
    | uncontrollable | probabilistic => exact spends_of_throw refused

theorem spends_of_observe {spec : ChoiceSpec} {components : List Component}
    {options : CompositionOptions} (idle : p.network.journal = none)
    (refused : observe spec components options p = .error fault q) : p.Spends q := by
  unfold observe at refused
  generalize spec.kind = kind at refused
  cases kind with
  | none => exact spends_of_throw refused
  | some kind =>
    cases kind with
    | controllable => exact spends_of_throw refused
    | uncontrollable | probabilistic => exact spends_of_branchNew idle refused

/-! ## The plan -/

theorem spends_of_adopt {component : Component} (idle : p.network.journal = none)
    (refused : adopt component p = .error fault q) : p.Spends q :=
  spends_of_assemble follows_first idle refused

theorem spends_of_setPlan {component : Component} (idle : p.network.journal = none)
    (refused : setPlan component p = .error fault q) : p.Spends q := by
  rcases Attempt.bind_eq_error_iff.mp refused with stopped | ⟨_, _, _, ⟨⟨⟩⟩⟩
  exact spends_of_adopt idle stopped

theorem spends_of_extendPlan (compose : List Component → CompositionOptions → Build EpisodeId)
    (steps : ∀ {components options}, compose components options p = .error fault q → p.Spends q)
    {component : Component} (idle : p.network.journal = none)
    (refused : extendPlan compose component p = .error fault q) : p.Spends q := by
  unfold extendPlan at refused
  rcases Attempt.bind_eq_error_iff.mp refused with ⟨⟨⟩⟩ | ⟨_, _, ⟨⟩, rest⟩
  generalize p.plan = plan at rest
  cases plan with
  | none =>
    rcases Attempt.bind_eq_error_iff.mp rest with stopped | ⟨_, _, _, settled⟩
    · exact spends_of_adopt idle stopped
    · exact absurd settled Attempt.modify_return_ne_error
  | some plan =>
    rcases Attempt.bind_eq_error_iff.mp rest with stopped | ⟨_, _, _, settled⟩
    · exact steps stopped
    · exact absurd settled Attempt.modify_return_ne_error

/-! ## The user's constraints -/

theorem spends_of_addConstraint {start finish : EventId} {spec : DurationSpec}
    (idle : p.network.journal = none)
    (refused : addConstraint start finish spec p = .error fault q) : p.Spends q := by
  rcases Attempt.bind_eq_error_iff.mp refused with stopped | ⟨_, _, _, settled⟩
  · exact spends_of_onNetwork idle
      (Edit.follows_addTemporal start finish spec).of_error stopped
  · exact absurd settled Attempt.modify_return_ne_error

/-- A registration is refused at once, or when the guard is brought up to date. -/
theorem registerConstraint_eq_error {id : TemporalId}
    (refused : registerConstraint id p = .error fault q) :
    q = p ∨ onNetwork (Edit.atomically (Edit.refreshTemporal id)) p = .error fault q := by
  rcases Attempt.bind_eq_error_iff.mp refused with stopped | ⟨constraint, _, read, rest⟩
  · exact .inl (Attempt.read_eq_error_iff.mp stopped).2
  rw [(Attempt.read_eq_ok_iff.mp read).2] at rest
  rcases Attempt.bind_eq_error_iff.mp rest with ⟨⟨⟩⟩ | ⟨_, _, ⟨⟩, rest⟩
  dsimp only at rest
  by_cases known : p.userConstraints.contains id = true
  · rw [if_pos known] at rest
    rcases Attempt.bind_eq_error_iff.mp rest with stopped | ⟨_, _, ⟨⟨⟩⟩, _⟩
    exact .inl (Attempt.throw_eq_error_iff.mp stopped).2
  · rw [if_neg known] at rest
    rcases Attempt.bind_eq_error_iff.mp rest with stopped | ⟨_, _, _, ⟨⟨⟩⟩⟩
    exact .inr stopped

theorem spends_of_registerConstraint {id : TemporalId} (idle : p.network.journal = none)
    (refused : registerConstraint id p = .error fault q) : p.Spends q := by
  rcases registerConstraint_eq_error refused with rfl | stopped
  · exact spends_refl _
  · exact spends_of_onNetwork idle (Edit.follows_refreshTemporal id).of_error stopped

theorem spends_of_removeConstraint {id : TemporalId} (idle : p.network.journal = none)
    (refused : removeConstraint id p = .error fault q) : p.Spends q := by
  rcases Attempt.bind_eq_error_iff.mp refused with stopped | ⟨_, _, _, ⟨⟨⟩⟩⟩
  exact spends_of_onNetwork idle Edit.trail_of_detachTemporal_eq_error stopped

end Build

/-- Failed operations are atomic. Whatever calls a program has come about by, and
whatever a call that takes effect as a whole is given, if the call is refused
then all elements with all their fields and guards, the plan, the user's
constraints, the states and the registry are what they were before it. Only
serial numbers may have been given out. -/
theorem Program.refused_call_changes_nothing (reachable : p.Reachable .free) {α : Type}
    (call : Call α) (atomic : call.isAtomic = true) (refused : call.run p = .error fault q) :
    ∃ nextSerial, p.network.nextSerial ≤ nextSerial ∧
      q = p.withNetwork (p.network.withSerial nextSerial) := by
  have idle := reachable.idle
  show p.Spends q
  cases call with
  | sequence => exact Build.spends_of_sequence idle refused
  | parallel => exact Build.spends_of_parallel idle refused
  | branch => exact Build.spends_of_branch idle refused
  | decide => exact Build.spends_of_decide idle refused
  | observe => exact Build.spends_of_observe idle refused
  | setPlan => exact Build.spends_of_setPlan idle refused
  | appendSequence =>
    exact Build.spends_of_extendPlan Build.sequence (Build.spends_of_sequence idle) idle refused
  | appendParallel =>
    exact Build.spends_of_extendPlan Build.parallel (Build.spends_of_parallel idle) idle refused
  | addEpisode => exact Build.spends_of_addEpisode idle refused
  | addConstraint => exact Build.spends_of_addConstraint idle refused
  | registerConstraint => exact Build.spends_of_registerConstraint idle refused
  | removeConstraint => exact Build.spends_of_removeConstraint idle refused
  | _ => cases atomic

/-- A composition side by side whose end is not there is refused after its start
has been made. The start is gone again, and its serial number is spent. -/
theorem Program.refused_call_changes_nothing_missing_end :
    let p := (Call.addEpisode {}).run.after (.ofConfig {})
    let call := Call.parallel [.episode ⟨0⟩] { finish := some ⟨7⟩ }
    p.Reachable .free ∧ call.isAtomic = true ∧ ∃ fault q, call.run p = .error fault q ∧
      ∃ nextSerial, p.network.nextSerial ≤ nextSerial ∧
        q = p.withNetwork (p.network.withSerial nextSerial) := by
  intro p call
  have reachable : p.Reachable .free :=
    (reachable_of_config (by decide +kernel)).call (.addEpisode {}) trivial
  obtain ⟨fault, q, refused⟩ :=
    Attempt.exists_of_isRefused (by decide +kernel : call.run.isRefused p = true)
  exact ⟨reachable, rfl, fault, q, refused,
    refused_call_changes_nothing reachable call rfl refused⟩

end PlanNetwork
