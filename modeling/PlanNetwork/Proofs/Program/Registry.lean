/-
# What ids name

A program finds episodes by their ids. An id is entered when a call of the program has
made an episode, or when a traversal meets one, and it is the one that the episode bears.
Episodes never change their ids and are never gone, so what is entered stays right, and
nothing takes it back: not a call that is refused, for it registers last what it makes, nor
a traversal that is given up half-way, for what it has met by then is there all the same.

Episodes that callers make in the network itself are found from the first traversal on that
meets them.
-/

import PlanNetwork.Proofs.Composition.Course
import PlanNetwork.Proofs.Program.Coherence
import PlanNetwork.Proofs.Program.Registration

namespace PlanNetwork

open Network

variable {n m : Network} {p q r : Program} {waiting rest : List Program} {id : EpisodeId}
  {name : String} {ν α β : Type} {allowed : Discipline}

namespace Network

/-- An episode keeps its id. -/
theorem Bears.stays (h : n.Bears id name) (stays : Stays n m) : m.Bears id name := by
  obtain ⟨e, found, rfl⟩ := h
  obtain ⟨e', found', same⟩ := stays.episode found
  exact ⟨e', found', by rw [same.identity]⟩

theorem Bears.unique {name' : String} (h : n.Bears id name) (h' : n.Bears id name') :
    name = name' := by
  obtain ⟨e, found, rfl⟩ := h
  obtain ⟨e', found', rfl⟩ := h'
  rw [Except.ok.inj (found.symm.trans found')]

end Network

/-! ## Calls -/

/-- Whatever the outcome, ids name what they did, and those that come to name an episode are
the ones that the episodes bear. -/
theorem Call.files_run (call : Call α) (p : Program) : p.Files (call.run.after p) :=
  (call.respects_run_under (respectedUnder_course .full)
    (call.asksFor fun call => call.within_full) p).files fun course bears =>
      bears.stays (Course.stays course)

theorem Call.stays_run (call : Call α) (p : Program) :
    Stays p.network (call.run.after p).network :=
  Course.stays (call.respects_run_under (respectedUnder_course .full)
    (call.asksFor fun call => call.within_full) p).network

/-- Every id names an episode that bears it. -/
def Program.Indexed (p : Program) : Prop :=
  ∀ {name id}, p.registry.get? name = some id → p.network.Bears id name

theorem Program.Indexed.call (h : p.Indexed) (call : Call α) : (call.run.after p).Indexed := by
  intro name id held
  rcases (call.files_run p).newer held with old | new
  · exact (h old).stays (call.stays_run p)
  · exact new

theorem Reached.indexed (reached : Reached allowed p waiting) : p.Indexed := by
  induction reached with
  | fresh valid =>
    obtain ⟨_, _, rfl⟩ := map_eq_ok_iff.mp valid
    exact fun held => nomatch held
  | call call _ _ ih => exact ih.call call
  | enter _ ih => exact ih
  | leave _ ih => exact ih

/-- No two episodes that are found have one id. -/
theorem Program.Registered.ne {a b : EpisodeId} {s t : String} (h : p.Registered a)
    (h' : p.Registered b) (differ : a ≠ b) (bears : p.network.Bears a s)
    (bears' : p.network.Bears b t) : s ≠ t := by
  rintro rfl
  obtain ⟨e, found, held⟩ := h
  obtain ⟨f, found', held'⟩ := h'
  rw [bears.unique ⟨e, found, rfl⟩] at bears'
  rw [← bears'.unique ⟨f, found', rfl⟩, held] at held'
  exact differ (Option.some.inj held')

/-! ## Runs -/

/-- What a program and those that wait for it come to by calls, and by bodies of fragments
that start and end. -/
inductive Onward (p : Program) (waiting : List Program) : Program → List Program → Prop where
  /-- Nothing has happened yet. -/
  | start : Onward p waiting p waiting
  /-- A call is made, and succeeds or is refused. -/
  | call {q : Program} {rest : List Program} {α : Type} (call : Call α)
      (before : Onward p waiting q rest) : Onward p waiting (call.run.after q) rest
  /-- The body of a fragment starts. -/
  | enter {q : Program} {rest : List Program} (before : Onward p waiting q rest) :
      Onward p waiting (Session.setAside q) (q :: rest)
  /-- The body of a fragment ends. -/
  | leave {q r : Program} {rest : List Program} (before : Onward p waiting r (q :: rest)) :
      Onward p waiting (Session.takeBack q r) rest

/-- What an id names, it names for good. -/
theorem Onward.older (run : Onward p waiting q rest) (held : p.registry.get? name = some id) :
    q.registry.get? name = some id := by
  induction run with
  | start => exact held
  | call call _ ih => exact (call.files_run _).older ih
  | enter _ ih => exact ih
  | leave _ ih => exact ih

/-- The calls that a loop makes lead onward. -/
theorem upholdsLoops_onward : Session.UpholdsLoops (Onward p waiting) where
  addEpisode := .call (.addEpisode {})
  sequence components := .call (.sequence components {})
  decide spec components _ _ _ _ := .call (.decide spec components {})

/-- The session is made of calls, of bodies of fragments, and of what a caller does beside
the program. -/
def Session.IsRun (session : Session ν α) : Prop :=
  ∀ p waiting, Upholds (Onward p waiting) session

namespace Session

theorem isRun_call (call : Call α) : IsRun (build call.run : Session ν α) :=
  fun _ _ => upholds_build fun _ _ => .call call

theorem IsRun.bind {session : Session ν α} {next : α → Session ν β} (first : session.IsRun)
    (rest : ∀ a, (next a).IsRun) : IsRun (session >>= next) :=
  fun p waiting => Upholds.bind (first p waiting) fun a => rest a p waiting

theorem IsRun.loop {body : Session ν Component} (inner : body.IsRun)
    (runUtility stopUtility : Number) (runs : Nat) :
    IsRun (loop body runUtility stopUtility runs) :=
  fun p waiting => Upholds.loop upholdsLoops_onward (inner p waiting) runUtility stopUtility runs

theorem IsRun.subplan {body : Session ν EpisodeId} (inner : body.IsRun) : IsRun (subplan body) :=
  fun p waiting => Upholds.subplan (inner p waiting) .enter .leave

theorem IsRun.onward {session : Session ν α} (h : session.IsRun) (p : Program) (notes : ν)
    (waiting : List Program) : Onward p waiting (session.after (p, notes)).1 waiting :=
  h p waiting p notes waiting .start

end Session

/-! ## What is registered -/

namespace Build

/-- What takes effect as a whole has done its steps, with a journal or without. -/
theorem of_atomically_eq_ok {op : Build α} {a : α} (done : atomically op p = .ok a q) :
    ∃ r s, op r = .ok a s ∧ (q = s ∨ q = s.mapNetwork .commit) := by
  unfold atomically at done
  split at done
  · exact ⟨p, q, done, .inl rfl⟩
  · obtain ⟨s, steps, rfl⟩ := Attempt.bracket_eq_ok_iff.mp done
    exact ⟨_, s, steps, .inr rfl⟩

theorem registered_of_placed {op : Edit EpisodeId} (done : atomically (placed op) p = .ok id q) :
    q.Registered id := by
  obtain ⟨r, s, steps, same⟩ := of_atomically_eq_ok done
  obtain ⟨_, _, _, steps⟩ := Attempt.bind_eq_ok_iff.mp steps
  obtain ⟨_, _, entered, returned⟩ := Attempt.bind_eq_ok_iff.mp steps
  obtain ⟨rfl, rfl⟩ := Attempt.pure_eq_ok_iff.mp returned
  have inside : s.Registered id :=
    (enrolled_of_register entered).inside id (List.mem_singleton.mpr rfl)
  rcases same with rfl | rfl
  · exact inside
  · exact inside

theorem registered_of_assemble {components : List Component}
    {op : List EpisodeId → Edit EpisodeId} (done : assemble components op p = .ok id q) :
    q.Registered id := by
  obtain ⟨_, _, k, _, _, made, rfl⟩ := assemble_eq_ok done
  have inside : k.Registered id := registered_of_placed made
  exact inside

/-- Filling in options from the configuration comes before everything. -/
theorem of_inherited_eq_ok {options : CompositionOptions}
    {next : CompositionOptions → Build EpisodeId}
    (done : (inherited options >>= next) p = .ok id q) : ∃ filled, next filled p = .ok id q := by
  obtain ⟨filled, _, ⟨⟩, rest⟩ := Attempt.bind_eq_ok_iff.mp done
  exact ⟨_, rest⟩

theorem registered_of_sequence {components : List Component} {options : CompositionOptions}
    (done : sequence components options p = .ok id q) : q.Registered id := by
  obtain ⟨_, made⟩ := of_inherited_eq_ok done
  exact registered_of_assemble made

theorem registered_of_parallel {components : List Component} {options : CompositionOptions}
    (done : parallel components options p = .ok id q) : q.Registered id := by
  obtain ⟨_, made⟩ := of_inherited_eq_ok done
  exact registered_of_assemble made

theorem registered_of_branch {choice : EventId} {components : List Component}
    {options : CompositionOptions} (done : branch choice components options p = .ok id q) :
    q.Registered id := by
  obtain ⟨_, made⟩ := of_inherited_eq_ok done
  exact registered_of_assemble made

theorem registered_of_branchNew {spec : ChoiceSpec} {components : List Component}
    {options : CompositionOptions} (done : branchNew spec components options p = .ok id q) :
    q.Registered id := by
  obtain ⟨_, made⟩ := of_inherited_eq_ok done
  exact registered_of_assemble made

theorem registered_of_decide {spec : ChoiceSpec} {components : List Component}
    {options : CompositionOptions} (done : Build.decide spec components options p = .ok id q) :
    q.Registered id :=
  registered_of_branchNew (decide_eq_ok done)

/-- What becomes the plan has been registered. -/
theorem registered_of_extendPlan {compose : List Component → CompositionOptions → Build EpisodeId}
    (registered : ∀ {components options id p q}, compose components options p = .ok id q →
      q.Registered id) {component : Component} (done : extendPlan compose component p = .ok id q) :
    q.Registered id := by
  rw [extendPlan_apply] at done
  obtain ⟨_, k, composed, later⟩ := Attempt.bind_eq_ok_iff.mp done
  obtain ⟨_, _, changed, returned⟩ := Attempt.bind_eq_ok_iff.mp later
  obtain rfl := Attempt.modify_eq_ok_iff.mp changed
  obtain ⟨rfl, rfl⟩ := Attempt.pure_eq_ok_iff.mp returned
  have inside : k.Registered id := by
    cases planned : p.plan with
    | none =>
      rw [planned] at composed
      have adopted : adopt component p = .ok id k := composed
      exact registered_of_assemble adopted
    | some plan =>
      rw [planned] at composed
      exact registered composed
  exact inside

end Build

/-- The last run of a loop is decided on in the end. -/
theorem Session.registered_of_offerRun {runUtility stopUtility : Number} {left : Nat}
    {run : Component} (done : offerRun runUtility stopUtility left run p = .ok id q) :
    q.Registered id := by
  obtain ⟨stop, k, _, done⟩ := Attempt.bind_eq_ok_iff.mp done
  obtain ⟨_, _, _, done⟩ := Attempt.bind_eq_ok_iff.mp done
  exact Build.registered_of_decide done

theorem Session.registered_of_loop {body : Session ν Component} {runUtility stopUtility : Number}
    {runs : Nat} {notes notes' : ν}
    (done : loop body runUtility stopUtility runs (p, notes) = .ok id (q, notes')) :
    q.Registered id := by
  match runs with
  | 0 => cases done
  | 1 =>
    obtain ⟨run, k, _, done⟩ := Attempt.bind_eq_ok_iff.mp done
    obtain ⟨_, made, same⟩ := Attempt.focus_eq_ok_iff.mp done
    obtain ⟨rfl, _⟩ := Prod.mk.inj same
    exact registered_of_offerRun made
  | left + 2 =>
    obtain ⟨once, _, _, done⟩ := Attempt.bind_eq_ok_iff.mp done
    obtain ⟨others, _, _, done⟩ := Attempt.bind_eq_ok_iff.mp done
    obtain ⟨_, made, same⟩ := Attempt.focus_eq_ok_iff.mp done
    obtain ⟨rfl, _⟩ := Prod.mk.inj same
    obtain ⟨_, _, _, made⟩ := Attempt.bind_eq_ok_iff.mp made
    exact registered_of_offerRun made

/-- The ways in which a program returns an episode that it has made, or that it has made the
plan. -/
inductive Program.Builds (p : Program) (id : EpisodeId) (q : Program) : Prop where
  /-- A primitive episode. -/
  | addEpisode {spec : EpisodeSpec} (done : Build.addEpisode spec p = .ok id q)
  /-- Components one after the other. -/
  | sequence {components : List Component} {options : CompositionOptions}
      (done : Build.sequence components options p = .ok id q)
  /-- Components side by side. -/
  | parallel {components : List Component} {options : CompositionOptions}
      (done : Build.parallel components options p = .ok id q)
  /-- One of the components, by the value of a choice. -/
  | branch {choice : EventId} {components : List Component} {options : CompositionOptions}
      (done : Build.branch choice components options p = .ok id q)
  /-- One of the components, by a new decision. -/
  | decide {spec : ChoiceSpec} {components : List Component} {options : CompositionOptions}
      (done : Build.decide spec components options p = .ok id q)
  /-- One of the components, by a new observation. -/
  | observe {spec : ChoiceSpec} {components : List Component} {options : CompositionOptions}
      (done : Build.observe spec components options p = .ok id q)
  /-- A component behind the plan. -/
  | appendSequence {component : Component} (done : Build.appendSequence component p = .ok id q)
  /-- A component beside the plan. -/
  | appendParallel {component : Component} (done : Build.appendParallel component p = .ok id q)
  /-- Some runs of a body. -/
  | loop {ν : Type} {body : Session ν Component} {runUtility stopUtility : Number} {runs : Nat}
      {notes notes' : ν}
      (done : Session.loop body runUtility stopUtility runs (p, notes) = .ok id (q, notes'))

theorem Program.Builds.registered (h : p.Builds id q) : q.Registered id := by
  cases h with
  | addEpisode done => exact Build.registered_of_placed done
  | sequence done => exact Build.registered_of_sequence done
  | parallel done => exact Build.registered_of_parallel done
  | branch done => exact Build.registered_of_branch done
  | decide done => exact Build.registered_of_decide done
  | observe done => exact Build.registered_of_branchNew (Build.observe_eq_ok done)
  | appendSequence done => exact Build.registered_of_extendPlan Build.registered_of_sequence done
  | appendParallel done => exact Build.registered_of_extendPlan Build.registered_of_parallel done
  | loop done => exact Session.registered_of_loop done

theorem Build.episodeById_eq_ok (done : episodeById name p = .ok id q) :
    q.registry.get? name = some id := by
  obtain ⟨_, k, _, rest⟩ := Attempt.bind_eq_ok_iff.mp done
  obtain ⟨_, _, got, answer⟩ := Attempt.bind_eq_ok_iff.mp rest
  obtain ⟨rfl, rfl⟩ := Attempt.get_eq_ok_iff.mp got
  generalize held : OrdMap.get? _ name = entry at answer
  cases entry with
  | none => cases answer
  | some known =>
    obtain ⟨rfl, rfl⟩ := Attempt.pure_eq_ok_iff.mp answer
    exact held

/-- What a view returns has been registered, now or before. -/
theorem Reached.registered_of_view {t : Traversal} (reached : Reached allowed p waiting)
    (viewed : Build.view p = .ok t q) : ∀ id ∈ t.episodes.toList, q.Registered id := by
  rcases Build.view_eq_ok viewed with ⟨cached, rfl⟩ | ⟨_, current⟩
  · exact (reached.coherent cached).registered
  · exact current.registered

/-- What can be relied on about ids, now and later. -/
structure Program.IdsHold (p : Program) (waiting : List Program) : Prop where
  /-- An id names an episode that is there and bears it. -/
  sound : ∀ {name id}, p.registry.get? name = some id → p.network.Bears id name
  /-- No two episodes that are found have one id. -/
  apart : ∀ {a b s t}, p.Registered a → p.Registered b → a ≠ b → p.network.Bears a s →
    p.network.Bears b t → s ≠ t
  /-- An episode that is asked for by an id bears it. -/
  asked : ∀ {name id q}, Build.episodeById name p = .ok id q → q.network.Bears id name
  /-- What an id names it names for good, whatever is done. -/
  lasting : ∀ {q rest}, Onward p waiting q rest →
    ∀ {name id}, p.registry.get? name = some id → q.registry.get? name = some id
  /-- Fragments and loops that are made of calls are no exception. -/
  sessions : ∀ {ν α : Type} {session : Session ν α}, session.IsRun → ∀ {notes name id},
    p.registry.get? name = some id → (session.after (p, notes)).1.registry.get? name = some id
  /-- An episode that the program returns as made by it is found by its id. -/
  returned : ∀ {id q}, p.Builds id q → q.Registered id
  /-- Every episode that a traversal has met is found by its id. -/
  traversed : ∀ {t q}, Build.view p = .ok t q → ∀ id ∈ t.episodes.toList, q.Registered id

/-- The ids of a program can be relied on, whatever has been done to it, refused calls and
changes of its network among it. -/
theorem Program.ids_can_be_relied_on (reached : Reached .free p waiting) : p.IdsHold waiting := by
  refine ⟨reached.indexed, Registered.ne, fun {name id q} done => ?_,
    fun run _ _ held => run.older held,
    fun {_ _ _} run {notes _ _} held => (run.onward p notes waiting).older held, Builds.registered,
    reached.registered_of_view⟩
  have after := reached.call (.episodeById name) trivial
  rw [Call.run, Attempt.after_of_ok done] at after
  exact after.indexed (Build.episodeById_eq_ok done)

/-- One id is asked for twice, and the second episode is refused. Another episode has been
made in the network. It is found since a traversal of the plan has met it. -/
theorem Program.ids_can_be_relied_on_met :
    let p := (Program.ofConfig {}).afterCalls [⟨_, .addEpisode { id := some "walk" }⟩,
      ⟨_, .addEpisode { id := some "walk" }⟩, ⟨_, .edit (.addEpisode { id := some "talk" })⟩,
      ⟨_, .sequence [.episode ⟨0⟩, .episode ⟨1⟩] {}⟩, ⟨_, .setPlan (.episode ⟨2⟩)⟩, ⟨_, .view⟩]
    Reached .free p [] ∧ p.network.episodes.size = 3 ∧ p.registry.get? "walk" = some ⟨0⟩ ∧
      p.registry.get? "talk" = some ⟨1⟩ ∧ p.IdsHold [] := by
  intro p
  have reached : Reached .free p [] :=
    (reached_of_config (by decide +kernel)).afterCalls fun _ _ => trivial
  exact ⟨reached, by decide +kernel, by decide +kernel, by decide +kernel,
    ids_can_be_relied_on reached⟩

end PlanNetwork
