/-
# Guards speak of the choices of the network

Whatever is done to a program, a guard has no literals but those about the choices
of its network, and those that callers have brought. A call makes new literals
known only with a new choice, and a choice stays as it is. So what matters is the
choices that there are in the end.
-/

import PlanNetwork.Proofs.Composition.Literals
import PlanNetwork.Proofs.Program.Reachability

namespace PlanNetwork

open Network

variable {known : Literal → Prop} {n m k : Network} {α β : Type}

namespace Network

/-- Choices stay as they are, and if all literals about them are known, then the
guards have known literals only unless they had others before. -/
structure Echoes (known : Literal → Prop) (n m : Network) : Prop where
  /-- No choice is gone. -/
  choice : ∀ {id data}, n.choice id = .ok data → m.choice id = .ok data
  /-- No literal has come in but with a choice. -/
  uses : m.Offers known → n.Uses known → m.Uses known

namespace Echoes

theorem refl (n : Network) : Echoes known n n := ⟨id, fun _ => id⟩

theorem trans (first : Echoes known n k) (second : Echoes known k m) : Echoes known n m :=
  ⟨second.choice ∘ first.choice, fun offers uses =>
    second.uses offers (first.uses (fun found => offers (second.choice found)) uses)⟩

theorem of_guards (choices : ∀ {id data}, m.choice id = .ok data ↔ n.choice id = .ok data)
    (guards : ∀ element, m.guard element = n.guard element) : Echoes known n m :=
  ⟨choices.mpr, fun _ uses => uses.of_guards choices.mp guards⟩

theorem withSerial (n : Network) (later : Nat) : Echoes known n (n.withSerial later) :=
  .of_guards Iff.rfl fun element => by cases element <;> rfl

end Echoes

end Network

namespace Edit

variable {α β : Type}

theorem Follows.echoes {op : Edit α} (follows : Follows (fun _ => True) op n)
    (repeats : Repeats known op n) : Echoes known n (op.after n) :=
  ⟨(Covers.trail follows).choice, fun _ => repeats⟩

theorem echoes_bind {op : Edit α} {next : α → Edit β} (first : Echoes known n (op.after n))
    (rest : ∀ a m, op n = .ok a m → Echoes known m ((next a).after m)) :
    Echoes known n ((op >>= next).after n) :=
  Attempt.after_bind (R := Echoes known) Echoes.trans first rest

theorem echoes_read {view : Network → Except Fault α} {next : α → Edit β}
    (rest : ∀ a, view n = .ok a → Echoes known n ((next a).after n)) :
    Echoes known n ((Attempt.read view >>= next).after n) := by
  refine echoes_bind (by rw [Attempt.after_read]; exact .refl n) fun a m result => ?_
  obtain ⟨value, rfl⟩ := Attempt.read_eq_ok_iff.mp result
  exact rest a value

/-- A new choice makes its literals known. -/
theorem echoes_addChoice (spec : ChoiceSpec) : Echoes known n ((addChoice spec).after n) := by
  refine echoes_read fun kind _ => echoes_bind (.withSerial n _) fun identity m allocated => ?_
  refine ⟨(Covers.pushEvent m _).choice, fun offers uses =>
    uses.pushEvent Support.only_always fun data carried => ?_⟩
  exact @offers ⟨m.events.size⟩ data (choice_eq_ok_iff.mpr ⟨_, lookup_push_self rfl, carried⟩)

/-! ## Changes that guards take no notice of -/

theorem echoes_modify {change : Network → Network} (alike : Alike n (change n))
    (events : (change n).events = n.events) :
    Echoes known n ((modify change : Edit Unit).after n) := by
  refine .of_guards (fun {id data} => ?_) alike.guards
  show (change n).choice id = .ok data ↔ n.choice id = .ok data
  rw [Network.choice, Network.event, events, Network.choice, Network.event]

theorem events_foldl {step : Network → β → Network} (each : ∀ n b, (step n b).events = n.events)
    (items : List β) : (items.foldl step n).events = n.events := by
  induction items generalizing n with
  | nil => rfl
  | cons item rest ih => exact ih.trans (each n item)

theorem echoes_setDuration (id : EpisodeId) (spec : DurationSpec) :
    Echoes known n ((setDuration id spec).after n) :=
  echoes_read fun _ _ => echoes_bind ((follows_addDuration _ _ _).echoes (repeats_addDuration _ _ _))
    fun _ _ _ => echoes_bind (echoes_modify (alike_modifyEpisode fun _ => rfl) rfl)
      fun _ m _ => .refl m

theorem echoes_attachTemporal (id : EpisodeId) (constraint : TemporalId) :
    Echoes known n ((attachTemporal id constraint).after n) :=
  echoes_read fun _ _ => echoes_read fun _ _ =>
    echoes_modify (alike_modifyEpisode fun _ => rfl) rfl

theorem echoes_attachState (span : Span) (id : EpisodeId) (constraint : StateConstraintId) :
    Echoes known n ((attachState span id constraint).after n) := by
  refine echoes_read fun _ _ => echoes_read fun _ _ => ?_
  have here : Alike n (n.modifyEpisode id (withState span constraint)) :=
    alike_modifyEpisode (withState_guard span constraint)
  have inside : Alike (n.modifyEpisode id (withState span constraint))
      (attachOverall constraint (n.modifyEpisode id (withState span constraint))
        (n.unfolding id).tail) :=
    alike_foldl (fun _ _ => alike_modifyEpisode (withState_guard .overall constraint)) _
  cases span with
  | start | finish => exact echoes_modify here rfl
  | during | overall =>
    refine echoes_modify (here.trans inside) (Eq.trans (events_foldl (fun _ _ => ?_) _) rfl)
    rfl

theorem echoes_setBounds {id : TemporalId} (kind : n.Controllable id) (lower upper : Number) :
    Echoes known n ((setBounds id lower upper).after n) :=
  echoes_read fun _ _ => echoes_read fun _ checked =>
    echoes_modify (alike_modifyTemporal (fun _ => rfl) fun _ found valid =>
      valid.rebound (kind.kind found) (checkBounds_eq_ok_iff.mp checked)) rfl

theorem echoes_detachTemporal (id : TemporalId) :
    Echoes known n ((detachTemporal id).after n) := by
  refine echoes_read fun lasting _ => ?_
  refine echoes_bind ((follows_replacementDurations lasting).echoes
    (repeats_replacementDurations lasting)) fun renewals m _ => ?_
  refine echoes_bind (echoes_modify (alike_mapEpisodes fun _ => rfl) rfl) fun _ m _ => ?_
  refine echoes_modify (alike_foldl (fun _ _ => ?_) renewals) (events_foldl (fun _ _ => ?_) renewals)
  · exact alike_modifyEpisode fun _ => rfl
  · rfl

end Edit

/-! ## Calls -/

/-- Callers bring known literals only. -/
def Brought.speaking (known : Literal → Prop) : Brought := ⟨Support.Only known, Support.Only known, known⟩

theorem NetworkCall.echoes_run (call : NetworkCall α) (brings : call.Brings (.speaking known))
    (n : Network) : Echoes known n (call.run.after n) := by
  cases call <;> rw [NetworkCall.run]
  case addEventAs => exact (Edit.follows_addEventAs _).echoes (Edit.repeats_addEventAs _)
  case addChoice => exact Edit.echoes_addChoice _
  case addQuantity => exact (Edit.follows_addQuantity ..).echoes (Edit.repeats_addQuantity _ _)
  case addTemporal => exact (Edit.follows_addTemporal ..).echoes (Edit.repeats_addTemporal _ _ _)
  case addAssignmentConstraint =>
    exact (Edit.follows_addAssignmentConstraint ..).echoes (Edit.repeats_addAssignmentConstraint _ _)
  case addLinearConstraint =>
    exact (Edit.follows_addLinearConstraint ..).echoes (Edit.repeats_addLinearConstraint _ _ _ _)
  case addChance => exact (Edit.follows_addChance ..).echoes (Edit.repeats_addChance _ _)
  case addEpisode => exact (Edit.follows_addEpisode _).echoes (Edit.repeats_addEpisode _)
  case setDuration => exact Edit.echoes_setDuration ..
  case attachTemporal => exact Edit.echoes_attachTemporal ..
  case attachState => exact Edit.echoes_attachState ..
  case narrow => exact (Edit.follows_narrow ..).echoes (Edit.repeats_narrow _ brings)
  case setSupport =>
    exact (Edit.follows_setSupport (.inr trivial)).echoes (Edit.repeats_setSupport _ brings)
  case addLiteral =>
    exact (Edit.follows_changeGuard fun _ _ _ _ => .inr trivial).echoes
      (Edit.repeats_addLiteral _ brings)
  case setConjunction =>
    refine (Edit.follows_changeGuard fun _ _ _ _ => .inr trivial).echoes
      (Edit.repeats_setConjunction _ ?_)
    exact brings _ (List.mem_singleton_self _)
  case clearSupport => exact (Edit.follows_clearSupport _).echoes (Edit.repeats_clearSupport _)
  case propagate => exact (Edit.follows_propagate ..).echoes (Edit.repeats_propagate _ brings)
  case sequence => exact (Edit.follows_sequence ..).echoes (Edit.repeats_sequence _ _)
  case parallel => exact (Edit.follows_parallel ..).echoes (Edit.repeats_parallel _ _)
  case branch => exact (Edit.follows_branch ..).echoes (Edit.repeats_branch _ _ _)

namespace Network

theorem respected_echoes : Respected (.speaking known) (Echoes known) where
  refl := .refl
  trans := .trans
  count n _ _ := .withSerial n _
  whole {n m} idle echoes := by
    have start : n.checkpoint.commit = n := commit_of_journal_eq_none idle
    have begins : Echoes known n n.checkpoint :=
      .of_guards Iff.rfl fun element => by cases element <;> rfl
    exact (begins.trans echoes).trans (.of_guards Iff.rfl fun _ => guard_commit)
  call call n brings := call.echoes_run brings n
  event _ := Edit.follows_addEvent.echoes Edit.repeats_addEvent
  refresh id _ := (Edit.follows_refreshTemporal id).echoes (Edit.repeats_refreshTemporal id)
  bounds lower upper _ kind := Edit.echoes_setBounds kind lower upper
  detach id _ := Edit.echoes_detachTemporal id

theorem echoes_afterCalls {calls : List (Sigma NetworkCall)}
    (brings : ∀ call ∈ calls, call.2.Brings (.speaking known)) (n : Network) :
    Echoes known n (n.afterCalls calls) := by
  induction calls generalizing n with
  | nil => exact .refl n
  | cons call rest ih =>
    obtain ⟨first, others⟩ := List.forall_mem_cons.mp brings
    exact (call.2.echoes_run first n).trans (ih others _)

/-- What calls have made of the empty network speaks of its choices only, if callers
bring nothing else. -/
theorem uses_afterCalls {calls : List (Sigma NetworkCall)} {tolerance : Number}
    (brings : ∀ call ∈ calls, call.2.Brings (.speaking known))
    (offers : ((Network.empty tolerance).afterCalls calls).Offers known) :
    ((Network.empty tolerance).afterCalls calls).Uses known :=
  (echoes_afterCalls brings _).uses offers (uses_empty tolerance)

end Network

/-! ## Programs -/

/-- Callers bring only literals of the kind. -/
def Discipline.speaking (given : Literal → Prop) : Discipline :=
  fun _ call => call.Brings (.speaking given)

theorem Call.brings_mono {given : Literal → Prop} (implies : ∀ a, given a → known a)
    (call : Call α) (brings : call.Brings (.speaking given)) : call.Brings (.speaking known) := by
  cases call with
  | edit call =>
    cases call with
    | narrow | setSupport | setConjunction | propagate =>
      have only : Support.Only given _ := brings
      exact only.mono implies
    | addLiteral => exact implies _ brings
    | _ => trivial
  | _ => trivial

/-- A literal in a guard has been brought by a caller, or it is about a choice of
the network and a value of that choice. -/
theorem Program.Reachable.speaks {given : Literal → Prop} {p : Program}
    (reachable : p.Reachable (.speaking given)) :
    p.network.Uses fun a => given a ∨ ∃ id data, p.network.choice id = .ok data ∧
      data.subject = a.choice ∧ a.value ∈ data.subject.domain := by
  obtain ⟨waiting, reached⟩ := reachable
  obtain ⟨tolerance, echoes⟩ := reached.respects respected_echoes fun call brings =>
    call.brings_mono (fun _ => Or.inl) brings
  refine echoes.uses (fun {id data} found value inside => ?_) (uses_empty tolerance)
  exact ⟨.inr ⟨id, data, found, rfl, inside⟩, .inr ⟨id, data, found, rfl, inside⟩⟩

end PlanNetwork
