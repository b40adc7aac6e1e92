/-
# What events are called if nobody names them

An event that nobody names is called after its kind and its serial number, so no two
such events are called the same, whatever their kinds.

A loop names its decisions itself: behind the stem that the settings give stands how many
runs are left. The decisions of one loop are called differently, but another loop
counts from its own number of runs. So it is only by the decisions of loops that two
events can have one id, and two loops in a program do have decisions of one id.
-/

import PlanNetwork.Proofs.Identity
import PlanNetwork.Proofs.Program.Identification

namespace PlanNetwork

open Network

variable {n m : Network} {p : Program} {waiting : List Program} {L : Licence} {stem : String}
  {α : Type} {e f : Event}

/-! ## Callers who name nothing -/

/-- A choice is not named, or named as loops name their decisions. -/
def ChoiceSpec.Unnamed (stem : String) (spec : ChoiceSpec) : Prop :=
  spec.id = none ∨ ∃ left : Nat, spec.id = some (stem ++ toString left)

/-- If an event or a choice is asked for then without a name: the identity of an event is
one that the caller has been given, and that nothing else has. -/
def NetworkCall.Nameless : NetworkConduct := fun _ n call =>
  match call with
  | .addEventAs identity =>
    n.Spare identity.serial ∧ ∃ kind, identity = .fresh kind identity.serial
  | .addChoice spec => spec.id = none
  | _ => True

/-- Callers name nothing that they ask for. Loops name their decisions. -/
def Call.Nameless : Conduct := fun _ p call =>
  match call with
  | .addChoice spec | .observe spec _ _ => spec.id = none
  | .decide spec _ _ => spec.Unnamed p.config.loop.stem
  | .edit call => call.Nameless p.network
  | _ => True

/-- What callers may do who name nothing. -/
def Licence.nameless (stem : String) : Licence where
  identity i := ∃ kind, i = .fresh kind i.serial
  choice := ChoiceSpec.Unnamed stem
  attach _ _ := True

theorem Call.Nameless.asksFor {call : Call α} (nameless : call.Nameless p) :
    call.AsksFor fun _ call => call.Within (.nameless p.config.loop.stem) := by
  cases call with
  | addChoice | observe => exact .inl nameless
  | decide => exact fun _ => nameless
  | edit call =>
    cases call with
    | addEventAs => exact nameless.2
    | addChoice => exact .inl nameless
    | _ => trivial
  | _ => trivial

theorem Call.Nameless.identifies {call : Call α} (nameless : call.Nameless p) :
    call.Through (fun _ n call => call.Identifies n) p := by
  cases call with
  | edit call =>
    cases call with
    | addEventAs => exact nameless.1
    | _ => trivial
  | _ => trivial

/-- Callers who name nothing use an identity for one event at most. -/
theorem Conducted.nodup_serials (h : Conducted Call.Nameless p waiting) :
    p.network.serials.Nodup := by
  have arises : p.network.Arises fun _ n call => call.Identifies n :=
    .inr ⟨p, ⟨waiting, h.mono fun _ _ nameless => nameless.identifies⟩, rfl⟩
  exact arises.nodup_serials id

/-! ## Ids that nobody has asked for -/

/-- The event is called after its kind and its serial number, or it is that of a choice
and called after the runs that a loop has left. -/
def Event.Generic (stem : String) (e : Event) : Prop :=
  (∃ kind, e.identity.id = Identity.defaultId kind e.identity.serial) ∨
    ∃ left : Nat, e.identity.id = stem ++ toString left ∧ e.choice.isSome = true

namespace Network

/-- A move that nobody names anything by leaves no event with a name. -/
theorem generic_of_move (move : Move (.nameless stem) n m)
    (before : ∀ {id e}, n.event id = .ok e → e.Generic stem) {id : EventId} {e : Event}
    (found : m.event id = .ok e) : e.Generic stem := by
  rcases move.event_origin found with ⟨f, there, identity, choice⟩ | ⟨_, arrives⟩
  · rw [Event.Generic, identity, choice]
    exact before there
  · cases arrives with
    | identified may =>
      obtain ⟨kind, fresh⟩ := may
      exact .inl ⟨kind, congrArg Identity.id fresh⟩
    | numbered _ identity => exact .inl ⟨"Event", by rw [identity]; rfl⟩
    | @choice spec kind _ _ may identity carries =>
      rcases may with none | ⟨left, named⟩
      · refine .inl ⟨"Choice", ?_⟩
        rw [identity, Identity.override_id, Identity.override_serial, none]
        rfl
      · refine .inr ⟨left, ?_, by rw [carries]; rfl⟩
        rw [identity, Identity.override_id, named]
        rfl

theorem generic_of_course (course : Course (.nameless stem) n m)
    (before : ∀ {id e}, n.event id = .ok e → e.Generic stem) {id : EventId} {e : Event}
    (found : m.event id = .ok e) : e.Generic stem := by
  induction course generalizing id e with
  | refl => exact before found
  | tail _ move ih => exact generic_of_move move ih found

end Network

/-- If callers name nothing then nothing has a name but the decisions of loops. -/
theorem Conducted.generic (h : Conducted Call.Nameless p waiting) {id : EventId} {e : Event}
    (found : p.network.event id = .ok e) : e.Generic p.config.loop.stem := by
  induction h generalizing id e with
  | fresh valid =>
    obtain ⟨_, _, rfl⟩ := map_eq_ok_iff.mp valid
    cases found
  | @call p waiting α call may _ ih =>
    rw [call.config_run]
    exact generic_of_course
      (call.respects_run_under (respectedUnder_course _) may.asksFor p).network ih found
  | enter _ ih => exact ih found
  | leave _ ih => exact ih found

/-- In every program that comes about by callers who name nothing, whatever loops and
fragments there are: two different events with one id have the id of a loop's decision.
They are both events of choices, unless the stem that the settings give makes the id one
that an element has by default. -/
theorem Program.ids_are_unique_but_for_loops (h : Conducted Call.Nameless p waiting)
    {a b : EventId} {e f : Event} (first : p.network.event a = .ok e)
    (second : p.network.event b = .ok f) (same : e.identity.id = f.identity.id)
    (differ : a ≠ b) :
    ∃ left : Nat, e.identity.id = p.config.loop.stem ++ toString left ∧
      (e.choice.isSome = true ∧ f.choice.isSome = true ∨
        ∃ kind serial, e.identity.id = Identity.defaultId kind serial) := by
  rcases h.generic first with ⟨kind, default⟩ | ⟨left, named, choice⟩
  · rcases h.generic second with ⟨kind', default'⟩ | ⟨left, named, _⟩
    · have serial : e.identity.serial = f.identity.serial :=
        Identity.eq_of_defaultId_eq (default.symm.trans (same.trans default'))
      exact absurd (eq_of_serial_eq h.nodup_serials first second serial) differ
    · exact ⟨left, same.trans named, .inr ⟨kind, _, default⟩⟩
  · refine ⟨left, named, ?_⟩
    rcases h.generic second with ⟨kind', default'⟩ | ⟨_, _, choice'⟩
    · exact .inr ⟨kind', _, same.trans default'⟩
    · exact .inl ⟨choice, choice'⟩

/-! ## Two loops -/

namespace Session

/-- What a loop does around the runs of its body leaves nothing with a name but its
decisions. -/
theorem upholdsLoops_nameless : UpholdsLoops (Conducted Call.Nameless) where
  addEpisode := .call (.addEpisode {}) trivial
  sequence components := .call (.sequence components {}) trivial
  decide spec components left _ _ named := .call (.decide spec components {}) (.inr ⟨left, named⟩)

/-- A step that does nothing. -/
def step : Session Unit Component := do
  let id ← build (Build.addEpisode {})
  return .episode id

/-- The step is offered once, and once more in a fragment. -/
def offers : Session Unit Subplan := do
  let _ ← loop step .zero .zero 1
  subplan (loop step .zero .zero 1)

theorem upholds_offers : Upholds (Conducted Call.Nameless) offers := by
  have steps : Upholds (Conducted Call.Nameless) step :=
    (upholds_build fun _ _ => .call (.addEpisode {}) trivial).bind fun _ => upholds_pure _
  have once : Upholds (Conducted Call.Nameless) (loop step .zero .zero 1) :=
    steps.loop upholdsLoops_nameless _ _ _
  exact once.bind fun _ => once.subplan .enter .leave

end Session

namespace Program

/-- A program with two loops. -/
@[irreducible] def looped : Program := (Session.offers.after (ofConfig {}, ())).1

theorem conducted_looped : Conducted Call.Nameless looped [] := by
  unfold looped
  exact Session.upholds_offers _ () [] (conducted_of_config (by decide +kernel))

/-- Both loops have a run left when they make their decision. -/
theorem decisions_looped : ∃ e f, looped.network.event ⟨4⟩ = .ok e ∧
    looped.network.event ⟨10⟩ = .ok f ∧ e.identity = ⟨9, "loop-choice-1", "_loop-choice-1"⟩ ∧
    f.identity = ⟨25, "loop-choice-1", "_loop-choice-1"⟩ := by
  have inner : (looped.network.event ⟨4⟩).toOption.map (·.identity) =
      some ⟨9, "loop-choice-1", "_loop-choice-1"⟩ := by decide +kernel
  have outer : (looped.network.event ⟨10⟩).toOption.map (·.identity) =
      some ⟨25, "loop-choice-1", "_loop-choice-1"⟩ := by decide +kernel
  obtain ⟨e, found, identity⟩ := Option.map_eq_some_iff.mp inner
  obtain ⟨f, found', identity'⟩ := Option.map_eq_some_iff.mp outer
  exact ⟨e, f, toOption_eq_some_iff.mp found, toOption_eq_some_iff.mp found', identity, identity'⟩

theorem ids_are_unique_but_for_loops_looped : ∃ e f, looped.network.event ⟨4⟩ = .ok e ∧
    looped.network.event ⟨10⟩ = .ok f ∧ e.identity.id = f.identity.id ∧
    ∃ left : Nat, e.identity.id = looped.config.loop.stem ++ toString left ∧
      (e.choice.isSome = true ∧ f.choice.isSome = true ∨
        ∃ kind serial, e.identity.id = Identity.defaultId kind serial) := by
  obtain ⟨e, f, found, found', identity, identity'⟩ := decisions_looped
  have same : e.identity.id = f.identity.id := by rw [identity, identity']
  exact ⟨e, f, found, found', same,
    ids_are_unique_but_for_loops conducted_looped found found' same (by decide)⟩

/-- Callers have named nothing, and yet two choices have one id, and are the same event as
far as their ids tell. -/
theorem ids_are_shared_by_loops : Conducted Call.Nameless looped [] ∧
    ∃ a b e f, a ≠ b ∧ looped.network.event a = .ok e ∧ looped.network.event b = .ok f ∧
      e.identity.serial ≠ f.identity.serial ∧ e.identity.id = f.identity.id ∧
      looped.network.sameEvent a b = .ok true := by
  obtain ⟨e, f, found, found', identity, identity'⟩ := decisions_looped
  have confused : (looped.network.sameEvent ⟨4⟩ ⟨10⟩).toOption = some true := by decide +kernel
  refine ⟨conducted_looped, ⟨4⟩, ⟨10⟩, e, f, by decide, found, found', ?_, ?_,
    toOption_eq_some_iff.mp confused⟩
  · rw [identity, identity']
    decide
  · rw [identity, identity']

end Program

end PlanNetwork
