/-
# The programs that can come about

A program changes by calls: those that it offers itself and those that it passes
on to its network. A caller may make any of them in any order, with any
arguments, and go on after one that was refused.

The body of a fragment is itself a run of calls. While it runs, the program that
it was started from waits, to give the plan and the user's constraints back at
the end. Bodies may start bodies, so the programs that wait form a stack.

Loops need nothing of their own. A loop makes calls between the runs of its
body.
-/

import PlanNetwork.Proofs.Program.Evolution

namespace PlanNetwork

open Network

/-- The calls that a program takes. -/
inductive Call : Type → Type 1 where
  /-- Another name. -/
  | setName (name : String) : Call Unit
  /-- The state to start in. -/
  | setInitialState (state : Assignment) : Call Unit
  /-- The state to end in. -/
  | setGoalState (state : Assignment) : Call Unit
  /-- An identity that the caller wants for itself. -/
  | allocate (kind : String) : Call Identity
  /-- A new event. -/
  | addEvent : Call EventId
  /-- A new choice event. -/
  | addChoice (spec : ChoiceSpec) : Call EventId
  /-- A new primitive episode. -/
  | addEpisode (spec : EpisodeSpec) : Call EpisodeId
  /-- A new state variable. -/
  | addQuantity (name : String) (domain : StateDomain) : Call VariableId
  /-- Execute components one after the other. -/
  | sequence (components : List Component) (options : CompositionOptions) : Call EpisodeId
  /-- Execute components side by side. -/
  | parallel (components : List Component) (options : CompositionOptions) : Call EpisodeId
  /-- Execute one of the components, by the value of a choice. -/
  | branch (choice : EventId) (components : List Component) (options : CompositionOptions) :
      Call EpisodeId
  /-- Execute one of the components, by a new decision. -/
  | decide (spec : ChoiceSpec) (components : List Component) (options : CompositionOptions) :
      Call EpisodeId
  /-- Execute one of the components, by a new observation. -/
  | observe (spec : ChoiceSpec) (components : List Component) (options : CompositionOptions) :
      Call EpisodeId
  /-- Another plan. -/
  | setPlan (component : Component) : Call Unit
  /-- Execute a component behind the plan. -/
  | appendSequence (component : Component) : Call EpisodeId
  /-- Execute a component beside the plan. -/
  | appendParallel (component : Component) : Call EpisodeId
  /-- A new user constraint. -/
  | addConstraint (start finish : EventId) (spec : DurationSpec) : Call TemporalId
  /-- Make a constraint one of the user's. -/
  | registerConstraint (id : TemporalId) : Call Unit
  /-- A new user constraint over the whole plan. -/
  | addOverallConstraint (spec : DurationSpec) : Call TemporalId
  /-- Drop a constraint. -/
  | removeConstraint (id : TemporalId) : Call Unit
  /-- A new chance constraint. -/
  | addChance (constraints : List ConstraintId) (risk : Number) : Call ChanceId
  /-- Make a chance constraint one of the program's. -/
  | registerChance (id : ChanceId) : Call Unit
  /-- Let a state constraint hold all through the plan. -/
  | addOverallState (id : StateConstraintId) : Call Unit
  /-- Merge the constraints. -/
  | simplify : Call Unit
  /-- Traverse the plan. -/
  | view : Call Traversal
  /-- The registered episodes. -/
  | episodes : Call (OrdSet EpisodeId)
  /-- The temporal constraints. -/
  | constraints : Call (OrdSet TemporalId)
  /-- The choices of some kinds. -/
  | choicesWhere (keep : Controllability → Bool) : Call (OrdSet EventId)
  /-- The state variables. -/
  | quantities : Call (OrdSet VariableId)
  /-- The episode with an id. -/
  | episodeById (id : String) : Call EpisodeId
  /-- The digest of the program. -/
  | fingerprint : Call String
  /-- The counts of the program. -/
  | summary : Call Summary
  /-- The hierarchy of the choices. -/
  | hierarchy : Call Hierarchy
  /-- Ask for the network, to change something in it. -/
  | touch : Call Unit
  /-- Change something in the network. -/
  | edit {α : Type} (call : NetworkCall α) : Call α

/-- The operation behind a call of a program. -/
def Call.run {α : Type} : Call α → Build α
  | setName name => Build.setName name
  | setInitialState state => Build.setInitialState state
  | setGoalState state => Build.setGoalState state
  | allocate kind => Build.onNetwork (Edit.allocate kind)
  | addEvent => Build.addEvent
  | addChoice spec => Build.addChoice spec
  | addEpisode spec => Build.addEpisode spec
  | addQuantity name domain => Build.addQuantity name domain
  | sequence components options => Build.sequence components options
  | parallel components options => Build.parallel components options
  | branch choice components options => Build.branch choice components options
  | decide spec components options => Build.decide spec components options
  | observe spec components options => Build.observe spec components options
  | setPlan component => Build.setPlan component
  | appendSequence component => Build.appendSequence component
  | appendParallel component => Build.appendParallel component
  | addConstraint start finish spec => Build.addConstraint start finish spec
  | registerConstraint id => Build.registerConstraint id
  | addOverallConstraint spec => Build.addOverallConstraint spec
  | removeConstraint id => Build.removeConstraint id
  | addChance ids risk => Build.addChance ids risk
  | registerChance id => Build.registerChance id
  | addOverallState id => Build.addOverallState id
  | simplify => Build.simplify
  | view => Build.view
  | episodes => Build.episodes
  | constraints => Build.constraints
  | choicesWhere keep => Build.choicesWhere keep
  | quantities => Build.quantities
  | episodeById id => Build.episodeById id
  | fingerprint => Build.fingerprint
  | summary => Build.summary
  | hierarchy => Build.hierarchy
  | touch => Build.invalidate
  | edit call => Build.edit call.run

/-- What callers may ask for. -/
abbrev Discipline : Type 1 := ∀ ⦃α : Type⦄, Call α → Prop

/-- Callers may ask for anything. -/
def Discipline.free : Discipline := fun _ _ => True

/-- The programs that come about by calls that a discipline allows, each with
the programs that wait for the bodies of fragments to end, innermost first. -/
inductive Reached (allowed : Discipline) : Program → List Program → Prop where
  /-- A program starts without elements. -/
  | fresh {config : Config} {p : Program} (valid : Program.new config = .ok p) :
      Reached allowed p []
  /-- A call is made, and succeeds or is refused. -/
  | call {p : Program} {waiting : List Program} {α : Type} (call : Call α) (may : allowed call)
      (before : Reached allowed p waiting) : Reached allowed (call.run.after p) waiting
  /-- The body of a fragment starts. -/
  | enter {p : Program} {waiting : List Program} (before : Reached allowed p waiting) :
      Reached allowed (Session.setAside p) (p :: waiting)
  /-- The body of a fragment ends. -/
  | leave {p q : Program} {waiting : List Program} (before : Reached allowed q (p :: waiting)) :
      Reached allowed (Session.takeBack p q) waiting

/-- A program that can come about. -/
def Program.Reachable (allowed : Discipline) (p : Program) : Prop :=
  ∃ waiting, Reached allowed p waiting

variable {allowed : Discipline} {brought : Support → Prop} {given : Brought}

/-! ## What calls do -/

/-- Whether a call of a program brings only what is among the things brought. -/
def Call.Brings (brought : Brought) {α : Type} : Call α → Prop
  | edit call => call.Brings brought
  | _ => True

/-- Whether a call of a program asks its network only for what is allowed. Its own calls
are not asked for, and the kind of a new choice may be filled in. -/
def Call.AsksFor (may : ∀ ⦃α : Type⦄, NetworkCall α → Prop) {α : Type} : Call α → Prop
  | addChoice spec | observe spec _ _ => may (.addChoice spec)
  | decide spec _ _ => ∀ kind, may (.addChoice { spec with kind })
  | edit call => may call
  | _ => True

/-- If anything is allowed then nothing else is asked for. -/
theorem Call.asksFor {may : ∀ ⦃α : Type⦄, NetworkCall α → Prop}
    (all : ∀ {α : Type} (call : NetworkCall α), may call) {α : Type} (call : Call α) :
    call.AsksFor may := by
  cases call <;> first | exact all _ | exact fun _ => all _ | exact trivial

/-- Whatever the outcome, a call respects what the calls of networks respect. -/
theorem Call.respects_run_under {may : ∀ ⦃α : Type⦄, NetworkCall α → Prop}
    {R : Network → Network → Prop} (h : RespectedUnder may R) {α : Type} (call : Call α)
    (asks : call.AsksFor may) (p : Program) : Build.Respects R call.run p := by
  cases call <;> rw [Call.run]
  case setName => exact Build.respects_modify h rfl rfl rfl
  case setInitialState => exact Build.respects_read h fun _ _ => Build.respects_modify h rfl rfl rfl
  case setGoalState => exact Build.respects_read h fun _ _ => Build.respects_modify h rfl rfl rfl
  case allocate => exact Build.respects_onNetwork (h.count _ (Nat.le_succ _))
  case addEvent => exact Build.respects_onNetwork (h.event _)
  case addChoice spec => exact Build.respects_onNetwork (h.call (.addChoice spec) _ (.inr asks))
  case addEpisode => exact Build.respects_addEpisode h _
  case addQuantity name domain =>
    exact Build.respects_bind h
      (Build.respects_onNetwork (h.call (.addQuantity name domain) _ (.inl trivial))) fun _ _ =>
      Build.respects_bind h (Build.respects_modify h rfl rfl rfl) fun _ _ => Build.respects_pure h _
  case sequence => exact Build.respects_sequence h ..
  case parallel => exact Build.respects_parallel h ..
  case branch => exact Build.respects_branch h ..
  case decide => exact Build.respects_decide h asks ..
  case observe => exact Build.respects_observe h asks ..
  case setPlan => exact Build.respects_setPlan h _
  case appendSequence =>
    exact Build.respects_extendPlan h (fun _ _ _ => Build.respects_sequence h ..) _
  case appendParallel =>
    exact Build.respects_extendPlan h (fun _ _ _ => Build.respects_parallel h ..) _
  case addConstraint => exact Build.respects_addConstraint h ..
  case registerConstraint => exact Build.respects_registerConstraint h _
  case addOverallConstraint => exact Build.respects_addOverallConstraint h _
  case removeConstraint => exact Build.respects_removeConstraint h _
  case addChance => exact Build.respects_addChance h ..
  case registerChance => exact Build.respects_registerChance h _
  case addOverallState => exact Build.respects_addOverallState h _
  case simplify => exact Build.respects_simplify h
  case view => exact Build.respects_view h
  case episodes => exact Build.respects_episodes h
  case constraints => exact Build.respects_constraints h
  case choicesWhere => exact Build.respects_choicesWhere h _
  case quantities => exact Build.respects_quantities h
  case episodeById => exact Build.respects_episodeById h _
  case fingerprint => exact Build.respects_fingerprint h
  case summary => exact Build.respects_summary h
  case hierarchy => exact Build.respects_hierarchy h
  case touch => exact Build.respects_invalidate h
  case edit call => exact Build.respects_edit h fun n => h.call call n (.inr asks)

theorem Call.Brings.asksFor {α : Type} {call : Call α} (brings : call.Brings given) :
    call.AsksFor fun _ call => call.Brings given := by
  cases call <;> first | exact brings | exact fun _ => trivial

/-- Whatever is asked for, and whatever the outcome, a call respects what the calls
of networks respect. -/
theorem Call.respects_run {R : Network → Network → Prop} (h : Respected given R) {α : Type}
    (call : Call α) (brings : call.Brings given) (p : Program) : Build.Respects R call.run p :=
  call.respects_run_under h.under brings.asksFor p

/-- Any call brings something. -/
theorem Call.brings_any {α : Type} (call : Call α) : call.Brings .any := by
  cases call with
  | edit call => cases call <;> trivial
  | _ => trivial

/-- No call changes the settings. -/
theorem Call.config_run {α : Type} (call : Call α) (p : Program) :
    (call.run.after p).config = p.config :=
  (call.respects_run respected_wellFormed call.brings_any p).config

/-! ## What holds of all programs that can come about -/

theorem Program.new_eq_ok {config : Config} (valid : config.validate.isOk = true) :
    Program.new config = .ok (.ofConfig config) := by
  rw [Program.new]
  cases checked : config.validate with
  | ok => rfl
  | error => rw [checked] at valid; cases valid

theorem reached_of_config {config : Config} (valid : config.validate.isOk = true) :
    Reached allowed (.ofConfig config) [] :=
  .fresh (Program.new_eq_ok valid)

theorem reachable_of_config {config : Config} (valid : config.validate.isOk = true) :
    (Program.ofConfig config).Reachable allowed :=
  ⟨[], reached_of_config valid⟩

theorem Reached.of_ok {p q : Program} {waiting : List Program} {α : Type} {a : α}
    (reached : Reached .free p waiting) (call : Call α) (done : call.run p = .ok a q) :
    Reached .free q waiting :=
  Attempt.after_of_ok done ▸ reached.call call trivial

theorem Program.Reachable.call {p : Program} {α : Type} (call : Call α) (may : allowed call)
    (before : p.Reachable allowed) : (call.run.after p).Reachable allowed := by
  obtain ⟨waiting, reached⟩ := before
  exact ⟨waiting, reached.call call may⟩

/-- The program after some calls, whatever their outcomes. -/
def Program.afterCalls (p : Program) (calls : List ((α : Type) × Call α)) : Program :=
  calls.foldl (fun p call => call.2.run.after p) p

theorem Reached.afterCalls {p : Program} {waiting : List Program}
    {calls : List ((α : Type) × Call α)} (before : Reached allowed p waiting)
    (may : ∀ call ∈ calls, allowed call.2) : Reached allowed (p.afterCalls calls) waiting := by
  induction calls generalizing p with
  | nil => exact before
  | cons call rest ih =>
    obtain ⟨first, others⟩ := List.forall_mem_cons.mp may
    exact ih (before.call call.2 first) others

theorem Program.Reachable.afterCalls {p : Program} {calls : List ((α : Type) × Call α)}
    (before : p.Reachable allowed) (may : ∀ call ∈ calls, allowed call.2) :
    (p.afterCalls calls).Reachable allowed := by
  obtain ⟨waiting, reached⟩ := before
  exact ⟨waiting, reached.afterCalls may⟩

/-- What the calls respect that are made holds between a network without elements and
that of any program that can come about. -/
theorem Reached.respects_under {may : ∀ ⦃α : Type⦄, NetworkCall α → Prop}
    {R : Network → Network → Prop} (h : RespectedUnder may R) {p : Program}
    {waiting : List Program} (asks : ∀ {α : Type} (call : Call α), allowed call → call.AsksFor may)
    (reached : Reached allowed p waiting) : ∃ tolerance, R (.empty tolerance) p.network := by
  induction reached with
  | @fresh config p valid =>
    obtain ⟨_, _, rfl⟩ := map_eq_ok_iff.mp valid
    exact ⟨config.tolerance, h.refl _⟩
  | call call may _ ih =>
    obtain ⟨tolerance, before⟩ := ih
    exact ⟨tolerance, h.trans before (call.respects_run_under h (asks call may) _).network⟩
  | enter _ ih => exact ih
  | leave _ ih => exact ih

/-- What all calls respect holds between a network without elements and that of
any program that can come about. -/
theorem Reached.respects {R : Network → Network → Prop} (h : Respected given R) {p : Program}
    {waiting : List Program}
    (brings : ∀ {α : Type} (call : Call α), allowed call → call.Brings given)
    (reached : Reached allowed p waiting) : ∃ tolerance, R (.empty tolerance) p.network :=
  reached.respects_under h.under fun call may => (brings call may).asksFor

/-- The network of a program that can come about has evolved from one without
elements. -/
theorem Reached.evolution {p : Program} {waiting : List Program}
    (brings : ∀ {α : Type} (call : Call α), allowed call → call.Brings (.writing brought))
    (h : Reached allowed p waiting) :
    ∃ tolerance, Evolution brought (.empty tolerance) p.network :=
  h.respects respected_evolution brings

/-- Any call writes some supports. -/
theorem Call.brings_writing {α : Type} (call : Call α) :
    call.Brings (.writing fun _ => True) := by
  cases call with
  | edit call => cases call <;> first | trivial | exact fun _ => trivial
  | _ => trivial

/-- Whatever the calls were, the network has evolved from one without elements. -/
theorem Program.Reachable.evolution {p : Program} (h : p.Reachable allowed) :
    ∃ tolerance, Evolution (fun _ => True) (.empty tolerance) p.network := by
  obtain ⟨waiting, reached⟩ := h
  exact reached.evolution fun call _ => call.brings_writing

/-- Callers meet a program only between operations, when nothing is to be
undone. -/
theorem Program.Reachable.idle {p : Program} (h : p.Reachable allowed) :
    p.network.journal = none := by
  obtain ⟨tolerance, evolution⟩ := h.evolution
  exact evolution.journal_eq_none rfl

theorem Network.Reachable.idle {n : Network} (h : n.Reachable) : n.journal = none := by
  induction h with
  | empty tolerance => rfl
  | count _ _ ih => exact ih
  | @call n _ call _ ih =>
    exact (call.evolves_run (Call.edit call).brings_writing n).journal_eq_none ih

/-- The constraints of a program are valid. -/
theorem Program.Reachable.valid {p : Program} (h : p.Reachable allowed) : p.network.Valid := by
  obtain ⟨tolerance, evolution⟩ := h.evolution
  exact (valid_empty tolerance).evolution evolution

/-- The network of a program is well-formed. -/
theorem Program.Reachable.wellFormed {p : Program} (h : p.Reachable allowed) :
    p.network.WellFormed := by
  obtain ⟨waiting, reached⟩ := h
  obtain ⟨tolerance, kept⟩ := reached.respects respected_wellFormed fun call _ => call.brings_any
  exact kept (wellFormed_empty tolerance)

/-- However a network has come about, it is well-formed, and nothing is to be undone. -/
theorem Network.whole_of_reachable {n : Network}
    (reachable : n.Reachable ∨ ∃ p : Program, p.Reachable .free ∧ p.network = n) :
    n.WellFormed ∧ n.journal = none := by
  rcases reachable with built | ⟨p, built, rfl⟩
  · exact ⟨built.wellFormed, built.idle⟩
  · exact ⟨built.wellFormed, built.idle⟩

/-! ## Sessions -/

namespace Session

variable {ν α β : Type} {holds : Program → List Program → Prop}

/-- What holds of a program, and of those that wait, holds after the session if it does
before. -/
def Upholds (holds : Program → List Program → Prop) (session : Session ν α) : Prop :=
  ∀ p notes waiting, holds p waiting → holds (session.after (p, notes)).1 waiting

theorem upholds_pure (a : α) : Upholds holds (pure a : Session ν α) := fun _ _ _ => id

theorem Upholds.bind {session : Session ν α} {next : α → Session ν β}
    (first : Upholds holds session) (rest : ∀ a, Upholds holds (next a)) :
    Upholds holds (session >>= next) := by
  intro p notes waiting before
  exact Attempt.after_bind
    (R := fun s t : Program × ν => holds s.1 waiting → holds t.1 waiting)
    (fun left right => right ∘ left) (first p notes waiting)
    (fun a t _ => rest a t.1 t.2 waiting) before

theorem upholds_build {op : Build α} (step : ∀ p waiting, holds p waiting →
    holds (op.after p) waiting) : Upholds holds (build op : Session ν α) := by
  intro p notes waiting before
  unfold build
  rw [Attempt.after_focus]
  exact step p waiting before

/-- A fragment upholds what its body does, if that can be carried in and out. -/
theorem Upholds.subplan {body : Session ν EpisodeId} (inner : Upholds holds body)
    (enter : ∀ {p waiting}, holds p waiting → holds (setAside p) (p :: waiting))
    (leave : ∀ {p q waiting}, holds q (p :: waiting) → holds (takeBack p q) waiting) :
    Upholds holds (subplan body) := by
  intro p notes waiting before
  have inside := inner _ notes _ (enter before)
  have same : ((Session.subplan body).after (p, notes)).1 =
      takeBack p (body.after (setAside p, notes)).1 := by
    unfold Attempt.after Session.subplan
    dsimp only
    cases body (setAside p, notes) <;> rfl
  rw [same]
  exact leave inside

/-- The calls that a loop makes around the runs of its body uphold what holds. -/
structure UpholdsLoops (holds : Program → List Program → Prop) : Prop where
  /-- The way out of the loop is a new episode. -/
  addEpisode : ∀ {p waiting}, holds p waiting → holds ((Build.addEpisode {}).after p) waiting
  /-- A run is followed by the rest of the loop. -/
  sequence : ∀ (components : List Component) {p waiting}, holds p waiting →
    holds ((Build.sequence components {}).after p) waiting
  /-- The runs are decided on, and the decision is called after the runs left. -/
  decide : ∀ (spec : ChoiceSpec) (components : List Component) (left : Nat) {p waiting},
    spec.id = some (p.config.loop.stem ++ toString left) → holds p waiting →
      holds ((Build.decide spec components {}).after p) waiting

/-- What a step upholds and the later steps uphold, the whole upholds. -/
theorem holds_bind {op : Build α} {next : α → Build β} {p : Program} {waiting : List Program}
    (first : holds (op.after p) waiting)
    (rest : ∀ a q, holds q waiting → holds ((next a).after q) waiting)
    (before : holds p waiting) : holds ((op >>= next).after p) waiting :=
  Attempt.after_bind (R := fun p q : Program => holds p waiting → holds q waiting)
    (fun left right => right ∘ left) (fun _ => first) (fun a q _ => rest a q) before

theorem holds_get {next : Program → Build α} {p : Program} {waiting : List Program}
    (rest : holds ((next p).after p) waiting) : holds ((get >>= next).after p) waiting := rest

theorem holds_offerRun (loops : UpholdsLoops holds) (runUtility stopUtility : Number) (left : Nat)
    (run : Component) {p : Program} {waiting : List Program} (before : holds p waiting) :
    holds ((offerRun runUtility stopUtility left run).after p) waiting := by
  unfold offerRun
  refine holds_bind (loops.addEpisode before) (fun stop q between => holds_get ?_) before
  exact loops.decide
    { domain := [q.config.loop.run, q.config.loop.stop]
      id := some (q.config.loop.stem ++ toString left)
      utilities := some [runUtility, stopUtility] } [run, .episode stop] left rfl between

/-- A loop upholds what its body does. -/
theorem Upholds.loop (loops : UpholdsLoops holds) {body : Session ν Component}
    (inner : Upholds holds body) (runUtility stopUtility : Number) (runs : Nat) :
    Upholds holds (loop body runUtility stopUtility runs) := by
  have offer (left : Nat) (run : Component) :
      Upholds holds (build (offerRun runUtility stopUtility left run) : Session ν EpisodeId) :=
    upholds_build fun _ _ => holds_offerRun loops runUtility stopUtility left run
  induction runs with
  | zero => exact fun _ _ _ => id
  | succ runs ih =>
    cases runs with
    | zero => exact inner.bind fun run => offer 1 run
    | succ left =>
      refine inner.bind fun once => ih.bind fun rest => upholds_build fun p waiting before => ?_
      refine holds_bind (loops.sequence _ before) (fun run q between => ?_) before
      exact holds_offerRun loops runUtility stopUtility (left + 2) (.episode run) between

/-- A session that makes only calls that are allowed, around fragments that do
so as well. -/
def Keeps (allowed : Discipline) (session : Session ν α) : Prop :=
  ∀ p notes waiting, Reached allowed p waiting →
    Reached allowed (session.after (p, notes)).1 waiting

theorem keeps_pure (a : α) : Keeps allowed (pure a : Session ν α) := upholds_pure a

theorem Keeps.bind {session : Session ν α} {next : α → Session ν β}
    (first : Keeps allowed session) (rest : ∀ a, Keeps allowed (next a)) :
    Keeps allowed (session >>= next) :=
  Upholds.bind first rest

theorem keeps_call (call : Call α) (may : allowed call) :
    Keeps allowed (build call.run : Session ν α) :=
  upholds_build fun _ _ => .call call may

/-- A fragment whose body keeps to what can come about does so itself. -/
theorem Keeps.subplan {body : Session ν EpisodeId} (inner : Keeps allowed body) :
    Keeps allowed (subplan body) :=
  Upholds.subplan inner .enter .leave

/-- The calls that a loop makes around the runs of its body. -/
structure Loops (allowed : Discipline) : Prop where
  /-- The way out of the loop is a new episode. -/
  addEpisode : ∀ spec, allowed (.addEpisode spec)
  /-- A run is followed by the rest of the loop. -/
  sequence : ∀ components options, allowed (.sequence components options)
  /-- The runs are decided on. -/
  decide : ∀ spec components options, allowed (.decide spec components options)

theorem Loops.upholds (may : Loops allowed) : UpholdsLoops (Reached allowed) where
  addEpisode := .call (.addEpisode {}) (may.addEpisode {})
  sequence components := .call (.sequence components {}) (may.sequence ..)
  decide spec components _ _ _ _ := .call (.decide spec components {}) (may.decide ..)

/-- A loop whose body keeps to what can come about does so itself. -/
theorem Keeps.loop (may : Loops allowed) {body : Session ν Component} (inner : Keeps allowed body)
    (runUtility stopUtility : Number) (runs : Nat) :
    Keeps allowed (loop body runUtility stopUtility runs) :=
  Upholds.loop may.upholds inner runUtility stopUtility runs

end Session

end PlanNetwork
