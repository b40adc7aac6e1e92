/-
# What operations on a program do to its network

An operation on a program touches the network through operations on the network
only, so whatever these respect is respected by it. It never touches the settings. What
ids name it changes only by a registration, so an id that comes to name an episode is
the one that the episode bears. Where such an operation takes
effect as a whole, the rest of the program is changed after everything that can
be refused, and undoing the network is enough.
-/

import PlanNetwork.Hierarchy
import PlanNetwork.Program.Session
import PlanNetwork.Program.Simplification
import PlanNetwork.Program.Summary
import PlanNetwork.Proofs.Network.Calls
import PlanNetwork.Proofs.OrdMap
import PlanNetwork.Proofs.Program.Merging

namespace PlanNetwork

open Network

variable {brought : Support → Prop} {n m : Network} {p q : Program} {α β : Type} {fault : Fault}

/-- The episode is there, and has the id. -/
def Network.Bears (n : Network) (id : EpisodeId) (name : String) : Prop :=
  ∃ e, n.episode id = .ok e ∧ e.identity.id = name

/-- Ids name what they did, and one that comes to name an episode is the one that the
episode bears. -/
structure Program.Files (p q : Program) : Prop where
  /-- What an id names, it still names. -/
  older : ∀ {name id}, p.registry.get? name = some id → q.registry.get? name = some id
  /-- What an id names it has named before, or it bears the id. -/
  newer : ∀ {name id}, q.registry.get? name = some id →
    p.registry.get? name = some id ∨ q.network.Bears id name

theorem Program.Files.of_same (same : q.registry = p.registry) : p.Files q :=
  ⟨fun held => same ▸ held, fun held => .inl (same ▸ held)⟩

namespace Build

/-! ## Operations that are refused -/

/-- The programs that differ from `p` only in their network, which a trail leads
to. -/
def Reaches (brought : Support → Prop) (p q : Program) : Prop :=
  ∃ n, Trail brought p.network n ∧ q = p.withNetwork n

/-- An operation that takes effect as a whole leaves nothing behind if it is
refused, apart from serial numbers that were given out. -/
theorem atomically_eq_error (op : Build α) (idle : p.network.journal = none)
    (steps : ∀ {p q}, op p = .error fault q → Reaches brought p q)
    (refused : atomically op p = .error fault q) :
    ∃ nextSerial, p.network.nextSerial ≤ nextSerial ∧
      q = p.withNetwork (p.network.withSerial nextSerial) := by
  have journal : ¬ p.network.journal.isSome = true := by simp [idle]
  have bracketed : op.bracket (Program.mapNetwork .checkpoint) (Program.mapNetwork .commit)
      (Program.mapNetwork .rollback) p = .error fault q := by
    rwa [atomically, if_neg journal] at refused
  obtain ⟨_, failed, rfl⟩ := Attempt.bracket_eq_error_iff.mp bracketed
  obtain ⟨n, trail, rfl⟩ := steps failed
  obtain ⟨undone, later⟩ := Trail.rollback_eq (n := p.network) trail
  refine ⟨n.nextSerial, later, ?_⟩
  show p.withNetwork n.rollback = _
  rw [undone]
  exact congrArg p.withNetwork (commit_of_journal_eq_none idle)

/-- What has taken effect as a whole was done with a journal, which is dropped. -/
theorem atomically_eq_ok {op : Build α} {a : α} (idle : p.network.journal = none)
    (done : atomically op p = .ok a q) :
    ∃ r, op (p.mapNetwork .checkpoint) = .ok a r ∧ q = r.mapNetwork .commit := by
  have journal : ¬ p.network.journal.isSome = true := by simp [idle]
  rw [atomically, if_neg journal] at done
  exact Attempt.bracket_eq_ok_iff.mp done

theorem register_eq_error {id : EpisodeId} (refused : register id p = .error fault q) : q = p := by
  rcases Attempt.bind_eq_error_iff.mp refused with read | ⟨episode, _, read, rest⟩
  · exact (Attempt.read_eq_error_iff.mp read).2
  obtain ⟨_, rfl⟩ := Attempt.read_eq_ok_iff.mp read
  rcases Attempt.bind_eq_error_iff.mp rest with ⟨⟨⟩⟩ | ⟨_, _, got, entry⟩
  obtain ⟨rfl, rfl⟩ := Attempt.get_eq_ok_iff.mp got
  generalize OrdMap.get? _ episode.identity.id = found at entry
  cases found with
  | none => cases entry
  | some known =>
    dsimp only at entry
    by_cases same : known = id
    · rw [if_pos same] at entry
      cases entry
    · rw [if_neg same] at entry
      exact (Attempt.throw_eq_error_iff.mp entry).2

/-- A registration enters the id, or finds it entered for the episode already. -/
theorem register_eq_ok {id : EpisodeId} {u : Unit} (done : register id p = .ok u q) :
    ∃ e, p.network.episode id = .ok e ∧
      (p.registry.get? e.identity.id = none ∧
          q = { p with registry := p.registry.insert e.identity.id id } ∨
        p.registry.get? e.identity.id = some id ∧ q = p) := by
  obtain ⟨e, found, rest⟩ := Attempt.read_bind_eq_ok_iff.mp done
  refine ⟨e, found, ?_⟩
  obtain ⟨_, _, got, entry⟩ := Attempt.bind_eq_ok_iff.mp rest
  obtain ⟨rfl, rfl⟩ := Attempt.get_eq_ok_iff.mp got
  generalize known : OrdMap.get? _ e.identity.id = value at entry
  cases value with
  | none => exact .inl ⟨rfl, Attempt.modify_eq_ok_iff.mp entry⟩
  | some owner =>
    dsimp only at entry
    by_cases same : owner = id
    · rw [if_pos same] at entry
      exact .inr ⟨congrArg some same, (Attempt.pure_eq_ok_iff.mp entry).2⟩
    · rw [if_neg same] at entry
      cases entry

/-- A new episode that is registered. -/
def placed (op : Edit EpisodeId) : Build EpisodeId := do
  let id ← onNetwork op
  register id
  return id

/-- Up to a refusal only the network has changed, for the registry comes last. -/
theorem reaches_of_placed_eq_error {op : Edit EpisodeId}
    (steps : ∀ n, Edit.Follows brought op n) (refused : placed op p = .error fault q) :
    Reaches brought p q := by
  rcases Attempt.bind_eq_error_iff.mp refused with failed | ⟨id, _, done, rest⟩
  · obtain ⟨n, stopped, rfl⟩ := Attempt.focus_eq_error_iff.mp failed
    exact ⟨n, (steps _).of_error stopped, rfl⟩
  obtain ⟨n, made, rfl⟩ := Attempt.focus_eq_ok_iff.mp done
  rcases Attempt.bind_eq_error_iff.mp rest with failed | ⟨_, _, _, returned⟩
  · exact ⟨n, (steps _).of_ok made, register_eq_error failed⟩
  · cases returned

/-- The operation on the network that a composition of a program comes to. -/
def composed (op : List EpisodeId → Edit EpisodeId) (episodes : List EpisodeId)
    (absorbed : OrdSet TemporalId) : Edit EpisodeId := do
  let id ← op episodes
  Attempt.each Edit.refreshTemporal absorbed.toList
  return id

theorem follows_composed {op : List EpisodeId → Edit EpisodeId}
    (steps : ∀ episodes n, Edit.Follows brought (op episodes) n) (episodes : List EpisodeId)
    (absorbed : OrdSet TemporalId) (n : Network) :
    Edit.Follows brought (composed op episodes absorbed) n :=
  (steps episodes n).bind fun _ _ _ =>
    (Edit.follows_each (fun id _ => Edit.follows_refreshTemporal id) _).bind fun _ _ _ =>
      Edit.follows_pure _

/-- A composition that succeeds resolves the components, makes an episode and registers
it. Last it takes over the constraints of the fragments. -/
theorem assemble_eq_ok {components : List Component} {op : List EpisodeId → Edit EpisodeId}
    {id : EpisodeId} (done : assemble components op p = .ok id q) :
    ∃ episodes absorbed k, p.resolveComponents ∅ components = .ok (episodes, absorbed) ∧
      episodes.isEmpty = false ∧ atomically (placed (composed op episodes absorbed)) p = .ok id k ∧
      q = { k with userConstraints := k.userConstraints.union absorbed, traversal := none } := by
  obtain ⟨⟨episodes, absorbed⟩, resolved, done⟩ := Attempt.read_bind_eq_ok_iff.mp done
  dsimp only at done
  by_cases empty : episodes.isEmpty = true
  · rw [if_pos empty] at done
    cases done
  rw [if_neg empty] at done
  obtain ⟨_, k, made, done⟩ := Attempt.bind_eq_ok_iff.mp done
  obtain ⟨_, _, changed, returned⟩ := Attempt.bind_eq_ok_iff.mp done
  obtain rfl := Attempt.modify_eq_ok_iff.mp changed
  obtain ⟨rfl, rfl⟩ := Attempt.pure_eq_ok_iff.mp returned
  exact ⟨episodes, absorbed, k, resolved, by simpa using empty, made, rfl⟩

/-- The plan that there is and the component are composed to the new one, or the
component is the plan. -/
theorem extendPlan_apply (compose : List Component → CompositionOptions → Build EpisodeId)
    (component : Component) : extendPlan compose component p =
      (p.plan.elim (adopt component) (fun plan => compose [.episode plan, component] {}) >>=
        fun plan => do
          modify fun p => { p with plan := some plan }
          return plan) p := by
  refine (Attempt.bind_of_ok (show (get : Build Program) p = .ok p p from rfl)).trans ?_
  cases p.plan <;> rfl

/-- A new choice, and the branching on it. -/
theorem follows_branchNew (spec : ChoiceSpec) (options : CompositionOptions)
    (episodes : List EpisodeId) (n : Network) :
    Edit.Follows brought (do
      let choice ← Edit.addChoice spec
      Edit.branch choice episodes options) n :=
  (Edit.follows_addChoice spec).bind fun choice _ _ =>
    Edit.follows_branch choice episodes options

theorem follows_first (episodes : List EpisodeId) (n : Network) :
    Edit.Follows brought (match episodes with
      | id :: _ => pure id
      | [] => throw .nothingToCompose) n := by
  cases episodes with
  | nil => exact Edit.follows_throw _
  | cons id _ => exact Edit.follows_pure id

/-! ## Operations on the network -/

section Edits

variable {may : ∀ ⦃α : Type⦄, NetworkCall α → Prop} {R : Network → Network → Prop}
  (h : RespectedUnder may R)

include h

theorem respects_edits {op : β → Edit Unit} (each : ∀ b n, R n ((op b).after n))
    (items : List β) : R n ((Attempt.each op items).after n) := by
  induction items generalizing n with
  | nil => exact h.refl n
  | cons item rest ih => exact Attempt.after_bind (R := R) h.trans (each item n) fun _ _ _ => ih

/-- An operation that takes effect as a whole respects what its steps do, if they
leave a trail until they are refused. -/
theorem respects_whole {op : Edit α} (steps : ∀ n, R n (op.after n))
    (refused : ∀ {n m fault}, op n = .error fault m → Trail (fun _ => True) n m) :
    R n ((Edit.atomically op).after n) := by
  by_cases nested : n.journal.isSome = true
  · have same : (Edit.atomically op).after n = op.after n := by
      rw [Attempt.after, Edit.atomically_of_nested nested, Attempt.after]
    rw [same]
    exact steps n
  · have idle : n.journal = none := by simpa using nested
    cases result : Edit.atomically op n with
    | ok a m =>
      rw [Attempt.after_of_ok result]
      rw [Edit.atomically_of_idle idle, Attempt.bracket_eq_ok_iff] at result
      obtain ⟨k, done, rfl⟩ := result
      exact h.whole idle (Attempt.after_of_ok done ▸ steps n.checkpoint)
    | error fault m =>
      obtain ⟨later, more, rfl⟩ := Edit.atomically_eq_error idle (fun _ => refused) result
      rw [Attempt.after_of_error result]
      exact h.count n more

theorem respects_composed {op : List EpisodeId → Edit EpisodeId}
    (steps : ∀ episodes n, R n ((op episodes).after n)) (episodes : List EpisodeId)
    (absorbed : OrdSet TemporalId) (n : Network) :
    R n ((composed op episodes absorbed).after n) :=
  Attempt.after_bind (R := R) h.trans (steps episodes n) fun _ _ _ =>
    Attempt.after_bind (R := R) h.trans (respects_edits h h.refresh _) fun _ m _ => h.refl m

end Edits

/-! ## Putting operations together -/

/-- The relation holds between the networks, and the settings are the same. -/
structure Along (R : Network → Network → Prop) (p q : Program) : Prop where
  /-- The relation holds. -/
  network : R p.network q.network
  /-- The settings are what they were. -/
  config : q.config = p.config
  /-- If episodes keep their ids, what ids name has changed as it should. -/
  files : (∀ {n m id name}, R n m → n.Bears id name → m.Bears id name) → p.Files q

/-- Whatever the outcome, the relation holds between the network of the program and
what becomes of it, and the settings stay. -/
def Respects (R : Network → Network → Prop) (op : Build α) (p : Program) : Prop :=
  Along R p (op.after p)

variable {may : ∀ ⦃α : Type⦄, NetworkCall α → Prop} {R : Network → Network → Prop}
  (h : RespectedUnder may R)

include h

theorem Along.trans {r : Program} (first : Along R p q) (second : Along R q r) : Along R p r := by
  refine ⟨h.trans first.network second.network, second.config.trans first.config, fun keeps =>
    ⟨(second.files keeps).older ∘ (first.files keeps).older, fun held => ?_⟩⟩
  rcases (second.files keeps).newer held with between | new
  · exact ((first.files keeps).newer between).imp_right (keeps second.network)
  · exact .inr new

/-- What leaves the program alone respects everything. -/
theorem respects_of_unchanged {op : Build α} (same : op.after p = p) : Respects R op p := by
  rw [Respects, same]
  exact ⟨h.refl _, rfl, fun _ => .of_same rfl⟩

theorem respects_pure (a : α) : Respects R (pure a : Build α) p := respects_of_unchanged h rfl

theorem respects_throw (fault : Fault) : Respects R (throw fault : Build α) p :=
  respects_of_unchanged h rfl

theorem respects_modify {change : Program → Program} (same : (change p).network = p.network)
    (settings : (change p).config = p.config) (names : (change p).registry = p.registry) :
    Respects R (modify change) p :=
  ⟨same ▸ h.refl _, settings, fun _ => .of_same names⟩

theorem respects_bind {op : Build α} {next : α → Build β} (first : Respects R op p)
    (rest : ∀ a q, Respects R (next a) q) : Respects R (op >>= next) p :=
  Attempt.after_bind (R := Along R) (Along.trans h) first fun a q _ => rest a q

theorem respects_read {view : Program → Except Fault α} {next : α → Build β}
    (rest : ∀ a, view p = .ok a → Respects R (next a) p) :
    Respects R (Attempt.read view >>= next) p := by
  refine Attempt.after_bind (R := Along R) (Along.trans h)
    (respects_of_unchanged h (Attempt.after_read view)) fun a q found => ?_
  obtain ⟨value, rfl⟩ := Attempt.read_eq_ok_iff.mp found
  exact rest a value

theorem respects_get {next : Program → Build β} (rest : ∀ now q, Respects R (next now) q) :
    Respects R (get >>= next) p :=
  respects_bind h (respects_of_unchanged h rfl) rest

theorem respects_each {op : β → Build Unit} (each : ∀ b p, Respects R (op b) p)
    (items : List β) : Respects R (Attempt.each op items) p := by
  induction items generalizing p with
  | nil => exact respects_pure h ()
  | cons item rest ih => exact respects_bind h (each item p) fun _ _ => ih

omit h in
theorem respects_onNetwork {op : Edit α} (holds : R p.network (op.after p.network)) :
    Respects R (onNetwork op) p := by
  unfold Respects onNetwork
  rw [Attempt.after_focus]
  exact ⟨holds, rfl, fun _ => .of_same rfl⟩

theorem respects_invalidate : Respects R invalidate p := respects_modify h rfl rfl rfl

theorem respects_edit {op : Edit α} (steps : ∀ n, R n (op.after n)) : Respects R (edit op) p :=
  respects_bind h (respects_invalidate h) fun _ _ => respects_onNetwork (steps _)

theorem respects_atomically (op : Build α) (steps : ∀ p, Respects R op p)
    (refused : ∀ {p q fault}, op p = .error fault q → Reaches (fun _ => True) p q) :
    Respects R (atomically op) p := by
  by_cases nested : p.network.journal.isSome = true
  · have same : (atomically op).after p = op.after p := by
      rw [Attempt.after, atomically, if_pos nested, Attempt.after]
    rw [Respects, same]
    exact steps p
  · have idle : p.network.journal = none := by simpa using nested
    cases result : atomically op p with
    | ok a q =>
      rw [Respects, Attempt.after_of_ok result]
      rw [atomically, if_neg nested, Attempt.bracket_eq_ok_iff] at result
      obtain ⟨r, done, rfl⟩ := result
      have inner := steps (p.mapNetwork .checkpoint)
      rw [Respects, Attempt.after_of_ok done] at inner
      exact ⟨h.whole idle inner.network, inner.config, fun keeps =>
        ⟨(inner.files keeps).older, (inner.files keeps).newer⟩⟩
    | error fault q =>
      obtain ⟨nextSerial, later, rfl⟩ := atomically_eq_error op idle refused result
      rw [Respects, Attempt.after_of_error result]
      exact ⟨h.count _ later, rfl, fun _ => .of_same rfl⟩

theorem respects_register (id : EpisodeId) : Respects R (register id) p := by
  cases result : register id p with
  | ok u q =>
    rw [Respects, Attempt.after_of_ok result]
    obtain ⟨e, found, ⟨free, rfl⟩ | ⟨_, rfl⟩⟩ := register_eq_ok result
    · refine ⟨h.refl _, rfl, fun _ =>
        ⟨OrdMap.get?_insert_of_get?_eq_none free, fun {name known} held => ?_⟩⟩
      rcases OrdMap.of_get?_insert_eq_some held with old | ⟨rfl, rfl⟩
      · exact .inl old
      · exact .inr ⟨e, found, rfl⟩
    · exact ⟨h.refl _, rfl, fun _ => .of_same rfl⟩
  | error fault q =>
    obtain rfl := register_eq_error result
    exact respects_of_unchanged h (Attempt.after_of_error result)

theorem respects_placed {op : Edit EpisodeId} (steps : ∀ n, R n (op.after n)) :
    Respects R (placed op) p :=
  respects_bind h (respects_onNetwork (steps _)) fun id _ =>
    respects_bind h (respects_register h id) fun _ _ => respects_pure h id

theorem respects_addEpisode (spec : EpisodeSpec) : Respects R (addEpisode spec) p :=
  respects_atomically h (placed (Edit.addEpisode spec))
    (fun _ => respects_placed h fun n => h.call (.addEpisode spec) n (.inl trivial))
    (reaches_of_placed_eq_error fun _ => Edit.follows_addEpisode spec)

/-! ## Compositions -/

theorem respects_assemble {op : List EpisodeId → Edit EpisodeId}
    (steps : ∀ episodes n, R n ((op episodes).after n))
    (trails : ∀ episodes n, Edit.Follows (fun _ => True) (op episodes) n)
    (components : List Component) : Respects R (assemble components op) p := by
  refine respects_read h fun (episodes, absorbed) _ => ?_
  have whole := respects_composed h steps episodes absorbed
  have trail := follows_composed trails episodes absorbed
  dsimp only
  by_cases empty : episodes.isEmpty = true
  · rw [if_pos empty]
    exact respects_throw h _
  · rw [if_neg empty]
    refine respects_bind h (respects_atomically h (placed (composed op episodes absorbed))
      (fun _ => respects_placed h whole) (reaches_of_placed_eq_error trail)) fun id p => ?_
    exact respects_bind h (respects_modify h rfl rfl rfl) fun _ _ => respects_pure h id

theorem respects_inherited (options : CompositionOptions) : Respects R (inherited options) p :=
  respects_get h fun _ _ => respects_pure h _

theorem respects_sequence (components : List Component) (options : CompositionOptions) :
    Respects R (sequence components options) p :=
  respects_bind h (respects_inherited h options) fun options _ => respects_assemble h
    (fun episodes n => h.call (.sequence episodes options) n (.inl trivial))
    (fun episodes _ => Edit.follows_sequence episodes options) components

theorem respects_parallel (components : List Component) (options : CompositionOptions) :
    Respects R (parallel components options) p :=
  respects_bind h (respects_inherited h options) fun options _ => respects_assemble h
    (fun episodes n => h.call (.parallel episodes options) n (.inl trivial))
    (fun episodes _ => Edit.follows_parallel episodes options) components

theorem respects_branch (choice : EventId) (components : List Component)
    (options : CompositionOptions) : Respects R (branch choice components options) p :=
  respects_bind h (respects_inherited h options) fun options _ => respects_assemble h
    (fun episodes n => h.call (.branch choice episodes options) n (.inl trivial))
    (fun episodes _ => Edit.follows_branch choice episodes options) components

theorem respects_branchNew {spec : ChoiceSpec} (allowed : may (.addChoice spec))
    (components : List Component) (options : CompositionOptions) :
    Respects R (branchNew spec components options) p :=
  respects_bind h (respects_inherited h options) fun options _ => respects_assemble h
    (fun episodes n => Attempt.after_bind (R := R) h.trans
      (h.call (.addChoice spec) n (.inr allowed))
      fun choice n _ => h.call (.branch choice episodes options) n (.inl trivial))
    (follows_branchNew spec options) components

theorem respects_decide {spec : ChoiceSpec} (allowed : ∀ kind, may (.addChoice { spec with kind }))
    (components : List Component) (options : CompositionOptions) :
    Respects R (Build.decide spec components options) p := by
  unfold Build.decide
  split
  · exact respects_branchNew h (allowed _) ..
  · exact respects_branchNew h (allowed _) ..
  · exact respects_throw h _

theorem respects_observe {spec : ChoiceSpec} (allowed : may (.addChoice spec))
    (components : List Component) (options : CompositionOptions) :
    Respects R (observe spec components options) p := by
  unfold observe
  split
  · exact respects_throw h _
  · exact respects_throw h _
  · exact respects_branchNew h allowed ..

theorem respects_adopt (component : Component) : Respects R (adopt component) p :=
  respects_assemble h (fun episodes n => by cases episodes <;> exact h.refl n) follows_first
    [component]

theorem respects_setPlan (component : Component) : Respects R (setPlan component) p :=
  respects_bind h (respects_adopt h component) fun _ _ => respects_modify h rfl rfl rfl

theorem respects_extendPlan {compose : List Component → CompositionOptions → Build EpisodeId}
    (steps : ∀ components options p, Respects R (compose components options) p)
    (component : Component) : Respects R (extendPlan compose component) p := by
  have rest (id : EpisodeId) (q : Program) : Respects R (do
      modify fun p => { p with plan := some id }
      return id) q :=
    respects_bind h (respects_modify h rfl rfl rfl) fun _ _ => respects_pure h id
  refine respects_get h fun now q => ?_
  dsimp only
  split
  · exact respects_bind h (steps ..) rest
  · exact respects_bind h (respects_adopt h component) rest

/-! ## Constraints -/

theorem respects_adoptConstraint (id : TemporalId) : Respects R (adoptConstraint id) p :=
  respects_modify h rfl rfl rfl

theorem respects_addConstraint (start finish : EventId) (spec : DurationSpec) :
    Respects R (addConstraint start finish spec) p := by
  refine respects_bind h (respects_onNetwork (respects_whole h (fun n => ?_)
    (Edit.follows_addTemporal start finish spec).of_error)) fun id _ => ?_
  · exact h.call (.addTemporal start finish spec) n (.inl trivial)
  · exact respects_bind h (respects_adoptConstraint h id) fun _ _ => respects_pure h id

theorem respects_registerConstraint (id : TemporalId) :
    Respects R (registerConstraint id) p := by
  refine respects_read h fun _ _ => respects_get h fun _ _ => ?_
  split
  · exact respects_throw h _
  · exact respects_bind h (respects_onNetwork (respects_whole h (h.refresh id)
      (Edit.follows_refreshTemporal id).of_error)) fun _ _ => respects_adoptConstraint h id

theorem respects_addOverallConstraint (spec : DurationSpec) :
    Respects R (addOverallConstraint spec) p :=
  respects_read h fun _ _ => respects_read h fun _ _ => respects_addConstraint h ..

theorem respects_removeConstraint (id : TemporalId) : Respects R (removeConstraint id) p :=
  respects_bind h (respects_onNetwork (respects_whole h (h.detach id)
    Edit.trail_of_detachTemporal_eq_error)) fun _ _ => respects_modify h rfl rfl rfl

theorem respects_addChance (constraints : List ConstraintId) (risk : Number) :
    Respects R (addChance constraints risk) p :=
  respects_bind h (respects_onNetwork (h.call (.addChance constraints risk) _ (.inl trivial)))
    fun id _ => respects_bind h (respects_modify h rfl rfl rfl) fun _ _ => respects_pure h id

theorem respects_registerChance (id : ChanceId) : Respects R (registerChance id) p := by
  refine respects_read h fun _ _ => respects_get h fun _ _ => ?_
  split
  · exact respects_throw h _
  · exact respects_modify h rfl rfl rfl

theorem respects_addOverallState (id : StateConstraintId) :
    Respects R (addOverallState id) p := by
  refine respects_get h fun now _ => ?_
  split
  · exact respects_throw h _
  next plan _ =>
    exact respects_bind h
      (respects_onNetwork (h.call (.attachState .overall plan id) _ (.inl trivial)))
      fun _ _ => respects_invalidate h

/-! ## Traversals -/

theorem respects_traverse : Respects R traverse p := by
  refine respects_read h fun traversal _ => ?_
  refine respects_bind h (respects_each h (fun id _ => respects_register h id) _) fun _ _ => ?_
  refine respects_get h fun now _ => ?_
  refine respects_bind h (respects_onNetwork (respects_whole h
    (fun _ => respects_edits h h.refresh now.userConstraints.toList)
    (Edit.follows_each (fun id _ => Edit.follows_refreshTemporal id) _).of_error)) fun _ _ => ?_
  exact respects_pure h traversal

theorem respects_view : Respects R view p := by
  refine respects_get h fun now _ => ?_
  split
  · exact respects_pure h _
  · exact respects_bind h (respects_traverse h) fun traversal _ =>
      respects_bind h (respects_modify h rfl rfl rfl) fun _ _ => respects_pure h traversal

theorem respects_episodes : Respects R episodes p :=
  respects_bind h (respects_view h) fun _ _ => respects_get h fun _ _ => respects_pure h _

theorem respects_constraints : Respects R constraints p :=
  respects_bind h (respects_view h) fun _ _ => respects_get h fun _ _ => respects_pure h _

/-- A read at the end leaves the network alone. -/
theorem respects_view_read {view' : Traversal → Program → Except Fault α} :
    Respects R (view >>= fun t => Attempt.read (view' t)) p :=
  respects_bind h (respects_view h) fun _ _ => respects_of_unchanged h (Attempt.after_read _)

theorem respects_choicesWhere (keep : Controllability → Bool) :
    Respects R (choicesWhere keep) p :=
  respects_view_read h

theorem respects_quantities : Respects R quantities p :=
  respects_get h fun _ _ => respects_view_read h

theorem respects_episodeById (id : String) : Respects R (episodeById id) p := by
  refine respects_bind h (respects_view h) fun _ _ => respects_get h fun now _ => ?_
  split
  · exact respects_pure h _
  · exact respects_throw h _

theorem respects_fingerprint : Respects R fingerprint p :=
  respects_get h fun _ _ => respects_bind h (respects_view h) fun _ _ =>
    respects_read h fun _ _ => respects_pure h _

theorem respects_summary : Respects R summary p :=
  respects_bind h (respects_choicesWhere h _) fun _ _ =>
    respects_bind h (respects_choicesWhere h _) fun _ _ =>
    respects_bind h (respects_choicesWhere h _) fun _ _ =>
    respects_bind h (respects_quantities h) fun _ _ =>
    respects_bind h (respects_constraints h) fun _ _ =>
    respects_bind h (respects_view h) fun _ _ => respects_get h fun _ _ => respects_pure h _

theorem respects_hierarchy : Respects R hierarchy p :=
  respects_bind h (respects_choicesWhere h _) fun _ _ =>
    respects_bind h (respects_constraints h) fun _ _ =>
    respects_of_unchanged h (Attempt.after_read _)

/-- Bounds that are the executive's to meet are narrowed one after the other. -/
theorem respects_narrowBounds {entries : List (TemporalId × (Number × Number))}
    (kinds : ∀ entry ∈ entries, p.network.Controllable entry.1) :
    Respects R (Attempt.each narrowBounds entries) p := by
  induction entries generalizing p with
  | nil => exact respects_pure h ()
  | cons entry rest ih =>
    obtain ⟨first, others⟩ := List.forall_mem_cons.mp kinds
    refine Attempt.after_bind (R := Along R) (Along.trans h)
      (respects_onNetwork (h.bounds _ _ first)) fun _ q written => ?_
    obtain ⟨n, inner, rfl⟩ := Attempt.focus_eq_ok_iff.mp written
    obtain ⟨_, _, rfl⟩ := Edit.setBounds_eq_ok_iff.mp inner
    exact ih fun other member => (others other member).modifyTemporal fun _ => rfl

theorem respects_simplify : Respects R simplify p := by
  refine respects_bind h (respects_constraints h) fun found q => respects_read h fun merge planned => ?_
  have kinds := Merge.controllable_of_plan (by simp [Merge.empty]) planned
  refine respects_bind h (respects_narrowBounds h kinds) fun _ _ => ?_
  exact respects_bind h (respects_each h (fun id _ => respects_removeConstraint h id) _)
    fun _ _ => respects_invalidate h

end Build

end PlanNetwork
