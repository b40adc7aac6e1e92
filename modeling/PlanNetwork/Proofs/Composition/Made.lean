/-
# Making an episode

An episode is put behind the others once its events and, for a composite, its
internal constraints are there. If its events exist always then so does the
episode, with its duration. What an episode is made of is new, except for events
it shares with the episodes inside it.
-/

import PlanNetwork.Composition.Options
import PlanNetwork.Proofs.Composition.Settled

namespace PlanNetwork

open Network

variable {touched : Guarded → Prop} {n k m : Network} {id : EpisodeId} {e : Episode}

namespace Network

/-- The episode has been put behind the others, with its duration. -/
structure Put (n m : Network) (id : EpisodeId) (e : Episode) : Prop where
  /-- Nothing has happened to what was there. -/
  grows : Grows (fun _ => False) n m
  /-- It is the newest episode. -/
  handle : id.index = n.episodes.size
  /-- It is the only one that is new. -/
  size : m.episodes.size = n.episodes.size + 1
  /-- It exists always. -/
  owns : m.Owns id e .always
  /-- Its duration is new. -/
  duration : ¬ n.Has (.temporal e.duration)

/-- Where an event at an end of a new episode comes from. It is shared with an
episode inside, or it is new, and then it is no choice unless it is the one that
selects what is executed. -/
def Origin (n m : Network) (children : List EpisodeId) (composition : Composition)
    (event : EventId) : Prop :=
  (∃ child ∈ children, .event event ∈ n.parts child) ∨
    ¬ n.Has (.event event) ∧ (m.NoChoice event ∨ composition.choice? = some event)

/-- An episode has been made out of others. -/
structure Made (touched : Guarded → Prop) (given : Option String) (children : List EpisodeId)
    (n m : Network) (id : EpisodeId) (e : Episode) : Prop where
  /-- Some elements that were there have been touched. -/
  grows : Grows touched n m
  /-- It is the newest episode. -/
  handle : id.index = n.episodes.size
  /-- It is the only one that is new. -/
  size : m.episodes.size = n.episodes.size + 1
  /-- It exists always. -/
  owns : m.Owns id e .always
  /-- What is inside it is settled under the path from there. -/
  settled : m.Settled m.nextSerial id []
  /-- It has the id it was given, or else one with a new serial number. -/
  named : ∃ serial, n.nextSerial ≤ serial ∧ serial < m.nextSerial ∧
    e.identity.id = given.getD (Identity.defaultId "Episode" serial)
  /-- Others can follow it. -/
  running : e.terminal = false
  /-- Its start is shared or new. -/
  start : Origin n m children e.composition e.start
  /-- Its end is shared or new. -/
  finish : Origin n m children e.composition e.finish
  /-- Its constraints are new. -/
  constraints : ∀ c ∈ e.constraintsAndDuration.toList, ¬ n.Has (.temporal c)
  /-- Nothing is attached to it if it is primitive. -/
  bare : e.isPrimitive = true → e.constraints = ∅
  /-- The variable of a choice that selects what is executed is new. -/
  subject : ∀ event, e.composition.choice? = some event → ∃ c, m.choice event = .ok c ∧
    n.nextSerial ≤ c.subject.key ∧ c.subject.key < m.nextSerial

variable {given : Option String} {children : List EpisodeId} {composition : Composition}
  {event : EventId}

theorem Origin.grows (origin : Origin n k children composition event) (grows : Grows touched k m) :
    Origin n m children composition event :=
  origin.imp_right fun ⟨new, own⟩ => ⟨new, own.imp_left (·.grows grows)⟩

theorem Origin.of_same (origin : Origin k m children composition event) (same : Same n k) :
    Origin n m children composition event := by
  refine origin.imp ?_ fun ⟨new, own⟩ => ⟨same.adds.not_has new, own⟩
  rintro ⟨child, inside, part⟩
  exact ⟨child, inside, parts_of_bare same.bare child ▸ part⟩

/-- An old event is shared. -/
theorem Origin.of_has (origin : Origin n m children composition event)
    (there : n.Has (.event event)) : ∃ child ∈ children, .event event ∈ n.parts child :=
  origin.resolve_right fun ⟨new, _⟩ => new there

/-- What has been put is made out of the episodes it shares events with. -/
theorem Put.made {before : Nat} (grown : Extends touched n k) (put : Put k m id e)
    (settled : m.Settled m.nextSerial id [])
    (named : e.identity.id = given.getD (Identity.defaultId "Episode" before))
    (later : n.nextSerial ≤ before) (counted : before < k.nextSerial)
    (running : e.terminal = false) (start : Origin n k children e.composition e.start)
    (finish : Origin n k children e.composition e.finish)
    (constraints : ∀ c ∈ e.constraints.toList, ¬ n.Has (.temporal c))
    (bare : e.isPrimitive = true → e.constraints = ∅)
    (subject : ∀ event, e.composition.choice? = some event → ∃ c, m.choice event = .ok c ∧
      n.nextSerial ≤ c.subject.key ∧ c.subject.key < m.nextSerial) :
    Made touched given children n m id e where
  grows := grown.toGrows.trans (put.grows.mono fun _ _ => False.elim)
  handle := put.handle.trans grown.size
  size := put.size.trans (congrArg (· + 1) grown.size)
  owns := put.owns
  settled := settled
  named := ⟨before, later, Nat.lt_of_lt_of_le counted put.grows.serial, named⟩
  running := running
  start := start.grows put.grows
  finish := finish.grows put.grows
  constraints := by
    intro c member there
    rcases OrdSet.mem_insert_iff.mp member with rfl | listed
    · exact put.duration (grown.has there)
    · exact constraints c listed there
  bare := bare
  subject := subject

/-- What it is made of is new or shared with an episode inside it. -/
theorem Made.within (made : Made touched given children n m id e) :
    ∀ element ∈ m.ownParts id, n.Has element → ∃ child ∈ children, element ∈ n.parts child := by
  intro element member there
  have new {c : TemporalId} (own : c = e.duration ∨ c ∈ e.constraints.toList) :
      ¬ n.Has (.temporal c) :=
    made.constraints c (OrdSet.mem_insert_iff.mpr own)
  rcases (mem_ownParts_iff made.owns.found).mp member with rfl | rfl | rfl | rfl |
    ⟨_, c, listed, rfl⟩
  · exact (not_has_episode made.handle there).elim
  · exact made.start.of_has there
  · exact made.finish.of_has there
  · exact (new (.inl rfl) there).elim
  · exact (new (.inr listed) there).elim

/-- It does not matter for what has been made whether there was a journal. -/
theorem Made.of_same (made : Made touched given children k m id e) (same : Same n k) :
    Made touched given children n m id e := by
  refine { made with
    grows := same.adds.mono.toGrows.trans made.grows
    handle := ?_
    size := ?_
    named := ?_
    start := made.start.of_same same
    finish := made.finish.of_same same
    constraints := fun c member => same.adds.not_has (made.constraints c member)
    subject := ?_ }
  · exact made.handle.trans same.adds.size
  · rw [made.size, same.adds.size]
  · obtain ⟨serial, le, rest⟩ := made.named
    exact ⟨serial, Nat.le_trans same.adds.serial le, rest⟩
  · intro event selects
    obtain ⟨c, found, le, rest⟩ := made.subject event selects
    exact ⟨c, found, Nat.le_trans same.adds.serial le, rest⟩

/-- More may be said to have been touched. -/
theorem Made.mono {more : Guarded → Prop} (made : Made touched given children n m id e)
    (implies : ∀ element, touched element → more element) : Made more given children n m id e :=
  { made with grows := made.grows.mono fun element _ => implies element }

theorem Made.commit (made : Made touched given children n m id e) :
    Made touched given children n m.commit id e :=
  { made with
    grows := made.grows.trans (same_commit m).extends.toGrows
    owns := ⟨made.owns.found, made.owns.episode, made.owns.start, made.owns.finish,
      made.owns.duration⟩
    settled :=
      made.settled.grows (same_commit m).adds.toGrows (Nat.le_refl _) fun _ _ => not_false
    start := made.start.grows (same_commit m).adds.toGrows
    finish := made.finish.grows (same_commit m).adds.toGrows }

end Network

/-- The caller says nothing about the events and the id of a composition, and
its duration can be had. -/
structure CompositionOptions.Plain (options : CompositionOptions) : Prop where
  /-- No event is given for the start. -/
  start : options.start = none
  /-- No event is given for the end. -/
  finish : options.finish = none
  /-- The id is the default. -/
  id : options.id = none
  /-- The duration can be had. -/
  duration : ∃ bounds, (options.duration.getD .unconstrained).resolve = .ok bounds

/-- The options are so unless something is said. -/
theorem CompositionOptions.plain_default : CompositionOptions.Plain {} :=
  ⟨rfl, rfl, rfl, _, resolve_unconstrained⟩

/-- The caller says nothing about the events of a composition. -/
structure CompositionOptions.Unanchored (options : CompositionOptions) : Prop where
  /-- No event is given for the start. -/
  start : options.start = none
  /-- No event is given for the end. -/
  finish : options.finish = none

theorem CompositionOptions.Plain.unanchored {options : CompositionOptions}
    (plain : options.Plain) : options.Unanchored :=
  ⟨plain.start, plain.finish⟩

theorem exists_event_of_support {id : EventId} {s : Support}
    (found : n.support (.event id) = .ok s) : ∃ e, n.event id = .ok e := by
  obtain ⟨e, there, _⟩ := map_eq_ok_iff.mp (support_eq_ok_iff.mp found)
  exact ⟨e, there⟩

namespace Edit

/-- Between events that always exist, an episode can be put if its duration can
be had. Whatever completes it may say something about states only. -/
theorem yields_addDraft {draft : EpisodeDraft} {finishing : Episode → Episode} {bounds : Bounds}
    (resolved : draft.duration.resolve = .ok bounds)
    (starts : n.support (.event draft.start) = .ok .always)
    (finishes : n.support (.event draft.finish) = .ok .always)
    (keeps : ∀ e, (finishing e).guard = e.guard ∧ (finishing e).start = e.start ∧
      (finishing e).finish = e.finish ∧ (finishing e).duration = e.duration) :
    (addDraft draft finishing).Yields n fun id m => ∃ duration,
      Put n m id (finishing (draft.toEpisode duration)) := by
  obtain ⟨first, found⟩ := exists_event_of_support starts
  refine Attempt.yields_read found ?_
  obtain ⟨last, found⟩ := exists_event_of_support finishes
  refine Attempt.yields_read found ?_
  refine (yields_addDuration resolved starts finishes).bind fun d k ⟨added, new, support⟩ => ?_
  obtain ⟨guard, start, finish, duration⟩ := keeps (draft.toEpisode d)
  refine ⟨_, _, pushEpisode_eq_ok_iff.mpr ⟨rfl, rfl⟩, d, ?_⟩
  have grows : Grows (fun _ => False) k
      { k with episodes := k.episodes.push (finishing (draft.toEpisode d)) } :=
    .of_lookups id lookup_push id id (Nat.le_refl _)
  refine ⟨added.toGrows.trans grows, added.size, ?_, ⟨lookup_push_self rfl, ?_, ?_, ?_, ?_⟩, ?_⟩
  · rw [Array.size_push, added.size]
  · exact support_eq_ok_iff.mpr (map_eq_ok_iff.mpr ⟨_, lookup_push_self rfl, guard⟩)
  · rw [start]
    exact grows.support not_false (added.support starts)
  · rw [finish]
    exact grows.support not_false (added.support finishes)
  · rw [duration]
    exact grows.support not_false support
  · rwa [duration]

/-- A composite can be put between events that always exist. -/
theorem yields_addComposite {options : CompositionOptions} {start finish : EventId}
    {bounds : Bounds} (resolved : (options.duration.getD .unconstrained).resolve = .ok bounds)
    (composition : Composition) (constraints : List TemporalId)
    (starts : n.support (.event start) = .ok .always)
    (finishes : n.support (.event finish) = .ok .always) :
    (addComposite options start finish composition constraints false).Yields n fun id m =>
      ∃ k e, Adds n k ∧ k.nextSerial = n.nextSerial + 1 ∧ Put k m id e ∧
        e.identity.id = options.id.getD (Identity.defaultId "Episode" n.nextSerial) ∧
        e.start = start ∧ e.finish = finish ∧ e.composition = composition ∧ e.constraints = .ofList constraints ∧
        e.terminal = false := by
  refine (yields_allocateAs _ _ _).bind fun identity k ⟨numbered, named, counted⟩ => ?_
  refine (yields_addDraft resolved (numbered.support starts) (numbered.support finishes)
    fun _ => ⟨rfl, rfl, rfl, rfl⟩).mono fun id m ⟨duration, put⟩ => ?_
  refine ⟨k, _, numbered, counted, put, ?_, rfl, rfl, rfl, rfl, rfl⟩
  show identity.id = _
  rw [named, Identity.override_id]
  rfl

end Edit

/-! ## Leaves -/

/-- An episode between new events behind which others can follow, with a
duration that can be had. It says nothing about states, for there need not be
any state variables. -/
structure EpisodeSpec.Plain (spec : EpisodeSpec) : Prop where
  /-- Nothing out of the ordinary is said. -/
  ordinary : spec =
    { id := spec.id, name := spec.name, action := spec.action, duration := spec.duration }
  /-- The duration can be had. -/
  duration : ∃ bounds, (spec.duration.getD .unconstrained).resolve = .ok bounds

/-- The caller gives no events to a primitive episode, and others can follow it. -/
structure EpisodeSpec.Unanchored (spec : EpisodeSpec) : Prop where
  /-- No event is given for the start. -/
  start : spec.start = none
  /-- No event is given for the end. -/
  finish : spec.finish = none
  /-- Others can follow it. -/
  running : spec.terminal = false

/-- The state variables and the state constraints that the specification speaks
of are there. -/
structure EpisodeSpec.Fits (spec : EpisodeSpec) (n : Network) : Prop where
  /-- What holds at the start can be said. -/
  startConditions : Edit.checkAssignment spec.startConditions n = .ok ()
  /-- What holds at the end can be said. -/
  finishConditions : Edit.checkAssignment spec.finishConditions n = .ok ()
  /-- What the start brings about can be said. -/
  startEffects : Edit.checkAssignment spec.startEffects n = .ok ()
  /-- What the end brings about can be said. -/
  finishEffects : Edit.checkAssignment spec.finishEffects n = .ok ()
  /-- The constraints are there. -/
  constraints : Edit.checkConstraints n
    ((spec.atStart ++ spec.atFinish ++ spec.during ++ spec.overall).map .state) = .ok ()

/-- An episode of which nothing is said is of that sort. -/
theorem EpisodeSpec.plain_default : EpisodeSpec.Plain {} := ⟨rfl, _, resolve_unconstrained⟩

namespace EpisodeSpec.Plain

variable {spec : EpisodeSpec}

theorem unanchored (plain : spec.Plain) : spec.Unanchored := by
  rw [plain.ordinary]
  exact ⟨rfl, rfl, rfl⟩

theorem fits (plain : spec.Plain) (n : Network) : spec.Fits n := by
  rw [plain.ordinary]
  exact ⟨rfl, rfl, rfl, rfl, rfl⟩

end EpisodeSpec.Plain

namespace Edit

variable {spec : EpisodeSpec} {bounds : Bounds}

theorem yields_addEpisode (unanchored : spec.Unanchored) (fits : spec.Fits n)
    (resolved : (spec.duration.getD .unconstrained).resolve = .ok bounds) :
    (addEpisode spec).Yields n fun id m => ∃ e,
      Made (fun _ => False) spec.id [] n m id e ∧ e.composition = .primitive := by
  refine Attempt.yields_read fits.startConditions ?_
  refine Attempt.yields_read fits.finishConditions ?_
  refine Attempt.yields_read fits.startEffects ?_
  refine Attempt.yields_read fits.finishEffects ?_
  refine Attempt.yields_read fits.constraints ?_
  refine yields_atomically (fun k same => ?_) fun id m ⟨e, made, primitive⟩ =>
    ⟨e, made.commit, primitive⟩
  rw [unanchored.start, unanchored.finish]
  refine yields_addEvent.bind fun start k₁ ⟨added₁, new₁, starts, plain₁⟩ => ?_
  refine yields_addEvent.bind fun finish k₂ ⟨added₂, new₂, finishes, plain₂⟩ => ?_
  refine (yields_allocateAs _ _ _).bind fun identity k₃ ⟨added₃, named, counted⟩ => ?_
  refine Attempt.Yields.mono (yields_addDraft resolved (added₃.support (added₂.support starts))
    (added₃.support finishes) fun _ => ⟨rfl, rfl, rfl, rfl⟩) fun id m ⟨duration, put⟩ => ?_
  have grown₁ := same.adds.trans added₁
  have grown₂ := grown₁.trans added₂
  have settled : m.Settled m.nextSerial id [] := .primitive .nil put.owns rfl
  refine ⟨_, put.made (grown₂.trans added₃) settled ?_ grown₂.serial (by omega)
    unanchored.running ?_ ?_ ?_ (fun _ => rfl) ?_, rfl⟩
  · show identity.id = _
    rw [named, Identity.override_id]
    rfl
  · exact .inr ⟨same.adds.not_has new₁, .inl (plain₁.grows (added₂.trans added₃).toGrows)⟩
  · exact .inr ⟨grown₁.not_has new₂, .inl (plain₂.grows added₃.toGrows)⟩
  · exact fun _ => (List.not_mem_nil · |>.elim)
  · exact fun _ selects => by cases selects

/-! ## Calls that have succeeded -/

theorem exists_bounds_of_addDraft {draft : EpisodeDraft} {finishing : Episode → Episode}
    (done : addDraft draft finishing n = .ok id m) :
    ∃ bounds, draft.duration.resolve = .ok bounds := by
  obtain ⟨_, _, done⟩ := Attempt.read_bind_eq_ok_iff.mp done
  obtain ⟨_, _, done⟩ := Attempt.read_bind_eq_ok_iff.mp done
  obtain ⟨_, _, timed, _⟩ := Attempt.bind_eq_ok_iff.mp done
  obtain ⟨bounds, _, _, _, resolved, _⟩ := addDuration_eq_ok_iff.mp timed
  exact ⟨bounds, resolved⟩

theorem exists_bounds_of_addComposite {options : CompositionOptions} {start finish : EventId}
    {composition : Composition} {constraints : List TemporalId} {terminal : Bool}
    (done : addComposite options start finish composition constraints terminal n = .ok id m) :
    ∃ bounds, (options.duration.getD .unconstrained).resolve = .ok bounds := by
  obtain ⟨_, _, _, drafted⟩ := Attempt.bind_eq_ok_iff.mp done
  exact exists_bounds_of_addDraft drafted

/-- What a call has done that makes a primitive episode. -/
theorem made_of_addEpisode (unanchored : spec.Unanchored)
    (done : addEpisode spec n = .ok id m) : ∃ e,
      Made (fun _ => False) spec.id [] n m id e ∧ e.composition = .primitive := by
  obtain ⟨_, startConditions, steps⟩ := Attempt.read_bind_eq_ok_iff.mp done
  obtain ⟨_, finishConditions, steps⟩ := Attempt.read_bind_eq_ok_iff.mp steps
  obtain ⟨_, startEffects, steps⟩ := Attempt.read_bind_eq_ok_iff.mp steps
  obtain ⟨_, finishEffects, steps⟩ := Attempt.read_bind_eq_ok_iff.mp steps
  obtain ⟨_, constraints, steps⟩ := Attempt.read_bind_eq_ok_iff.mp steps
  obtain ⟨n', m', _, steps, _⟩ := exists_same_of_atomically_eq_ok steps
  obtain ⟨_, _, _, steps⟩ := Attempt.bind_eq_ok_iff.mp steps
  obtain ⟨_, _, _, steps⟩ := Attempt.bind_eq_ok_iff.mp steps
  obtain ⟨_, _, _, drafted⟩ := Attempt.bind_eq_ok_iff.mp steps
  obtain ⟨bounds, resolved⟩ := exists_bounds_of_addDraft drafted
  have fits : spec.Fits n :=
    ⟨startConditions, finishConditions, startEffects, finishEffects, constraints⟩
  exact (yields_addEpisode unanchored fits resolved).of_eq_ok done

end Edit

end PlanNetwork
