/-
# Compositions leave trails

What a composition writes without a check is admitted all the same. A sequence
overwrites guards with supports that it has just read from other guards. So
does a parallel composition, for its end keeps its support while the links to
it are written. A branching adds its literal to links between events that
require the literal already, and lets its end exist where some of the values of
its choice, but not all of them, are ruled out.
-/

import PlanNetwork.Proofs.Composition.Propagation
import PlanNetwork.Proofs.Composition.Steps
import PlanNetwork.Proofs.Network.Operations

namespace PlanNetwork

open Network

variable {brought : Support → Prop} {n m : Network}

/-- The gap of a sequence is an upper bound behind zero. -/
theorem CompositionOptions.valid_gap (options : CompositionOptions) :
    (Bounds.precedence options.gap).Valid := by
  unfold gap
  split
  · exact Bounds.valid_precedence_zero
  · exact Bounds.valid_precedence_infinity

namespace Edit

theorem follows_addComposite (options : CompositionOptions) (start finish : EventId)
    (composition : Composition) (constraints : List TemporalId) (terminal : Bool) :
    Follows brought (addComposite options start finish composition constraints terminal) n :=
  (follows_allocateAs ..).bind fun _ _ _ => follows_addDraft _ fun _ => rfl

theorem admits_of_support {element : Guarded} {s : Support} (found : n.support element = .ok s) :
    n.Admits brought s :=
  .inl (.held found)

/-! ## Sequences -/

theorem follows_openSequence (options : CompositionOptions) (first last : EventId) :
    Follows brought (openSequence options first last) n := by
  unfold openSequence
  cases options.mode.getD .shared with
  | shared => exact follows_pure _
  | boundary =>
    refine (follows_eventOrNew _).bind fun _ _ _ => ?_
    refine (follows_eventOrNew _).bind fun _ _ _ => ?_
    exact (follows_link _ _ options.valid_gap).bind fun _ _ _ => follows_pure _

theorem follows_follow {gap : Number} (valid : (Bounds.precedence gap).Valid)
    (first second : EpisodeId) : Follows brought (follow gap first second) n := by
  refine follows_read fun before _ => ?_
  by_cases terminal : before.terminal = true
  · rw [if_pos terminal]
    exact follows_throw _
  · rw [if_neg terminal]
    refine follows_read fun support _ => ?_
    refine (follows_propagate second support).bind fun _ _ _ => ?_
    refine follows_read fun _ _ => ?_
    exact follows_read fun support found => follows_linkUnder valid (admits_of_support found)

theorem follows_followAll {gap : Number} (valid : (Bounds.precedence gap).Valid)
    (ids : List EpisodeId) : Follows brought (followAll gap ids) n := by
  induction ids generalizing n with
  | nil => exact follows_pure []
  | cons first rest ih =>
    cases rest with
    | nil => exact follows_pure []
    | cons second rest =>
      exact (follows_follow valid first second).bind fun _ _ _ =>
        ih.bind fun _ _ _ => follows_pure _

theorem support_of_setSupport {element : Guarded} {s : Support} {u : Unit}
    (done : setSupport element s n = .ok u m) : m.support element = .ok s := by
  obtain ⟨old, found, _, rfl⟩ := setSupport_eq_ok_iff.mp done
  exact support_eq_ok_iff.mpr (guard_setGuard_self (guard_note.trans found))

theorem follows_closeSequence (options : CompositionOptions) (last finish : EventId) :
    Follows brought (closeSequence options last finish) n := by
  unfold closeSequence
  cases options.mode.getD .shared with
  | shared => exact follows_pure []
  | boundary =>
    refine follows_read fun support found => ?_
    refine (follows_setSupport (admits_of_support found)).bind fun _ _ done => ?_
    exact (follows_linkUnder options.valid_gap (admits_of_support (support_of_setSupport done))).bind
      fun _ _ _ => follows_pure _

theorem follows_sequence (ids : List EpisodeId) (options : CompositionOptions) :
    Follows brought (sequence ids options) n := by
  unfold sequence
  split
  · refine follows_atomically fun n => follows_read fun _ _ => follows_read fun _ _ => ?_
    refine (follows_openSequence ..).bind fun _ _ _ => ?_
    refine (follows_followAll options.valid_gap _).bind fun _ _ _ => ?_
    refine (follows_closeSequence ..).bind fun _ _ _ => ?_
    exact follows_addComposite ..
  · exact follows_throw _

/-! ## Parallel compositions -/

theorem follows_joinBranch (start finish : EventId) (id : EpisodeId) :
    Follows brought (joinBranch start finish id) n := by
  refine follows_read fun _ _ => ?_
  refine (follows_link _ _ Bounds.valid_precedence_infinity).bind fun _ _ _ => ?_
  refine (follows_link _ _ Bounds.valid_precedence_infinity).bind fun _ _ _ =>
    follows_read fun support _ => ?_
  exact (follows_narrow _ support).bind fun _ _ _ => follows_pure _

theorem follows_joinBranches (start finish : EventId) (ids : List EpisodeId) :
    Follows brought (joinBranches start finish ids) n := by
  induction ids generalizing n with
  | nil => exact follows_pure []
  | cons id rest ih =>
    exact (follows_joinBranch start finish id).bind fun _ _ _ => ih.bind fun _ _ _ => follows_pure _

/-- The closing links get a support that the end has all the while. -/
theorem follows_closeLinks {finish : EventId} {joint : Support}
    (links : List (TemporalId × TemporalId)) (found : n.support (.event finish) = .ok joint) :
    Follows brought (Attempt.each (fun link => setSupport (.temporal link.2) joint) links) n := by
  induction links generalizing n with
  | nil => exact follows_pure ()
  | cons link rest ih =>
    refine (follows_setSupport (admits_of_support found)).bind fun _ m done => ih ?_
    obtain ⟨old, _, _, rfl⟩ := setSupport_eq_ok_iff.mp done
    rw [support, guard_setGuard_of_ne (by simp), guard_note]
    exact found

theorem follows_parallel (ids : List EpisodeId) (options : CompositionOptions) :
    Follows brought (parallel ids options) n := by
  unfold parallel
  split
  · exact follows_throw _
  · refine follows_read fun _ _ => follows_atomically fun n => ?_
    refine (follows_eventOrNew _).bind fun _ _ _ => ?_
    refine (follows_eventOrNew _).bind fun _ _ _ => ?_
    refine (follows_joinBranches ..).bind fun links _ _ => follows_read fun joint found => ?_
    exact (follows_closeLinks links found).bind fun _ _ _ => follows_addComposite ..

/-! ## Branchings -/

/-- A link can be given a literal that one of its events requires. -/
theorem follows_linkWith {start finish endpoint : EventId} {literal : Literal} {s : Support}
    (either : endpoint = start ∨ endpoint = finish)
    (found : n.support (.event endpoint) = .ok s) (required : s.Requires literal) :
    Follows brought (linkWith start finish literal) n := by
  refine (follows_link _ _ Bounds.valid_precedence_infinity).bind fun id m linked => ?_
  obtain ⟨t, both, some, rfl, rfl⟩ := link_eq_ok_iff.mp linked
  obtain ⟨first, second, atStart, atFinish, narrowed⟩ := endpointSupport_eq_ok_iff.mp both
  obtain ⟨_, rfl⟩ := Support.tryAnd_eq_ok_iff.mp narrowed
  have inherited : (first.and second).Requires literal := by
    rcases either with rfl | rfl
    · obtain rfl : first = s := by simpa [atStart] using found
      exact required.and_left
    · obtain rfl : second = s := by simpa [atFinish] using found
      exact required.and_right
  refine (follows_changeGuard fun old new there changed => ?_).bind fun _ _ _ => follows_pure _
  obtain rfl : old = .ofSupport (first.and second) := by
    obtain ⟨c, last, rfl⟩ := guard_temporal.mp there
    simp only [withLink, Array.getElem?_push_size, Option.some.injEq] at last
    exact last ▸ rfl
  obtain rfl := Except.ok.inj changed
  rw [Guard.addLiteral_eq, Guard.support_ofSupport, Guard.support_ofSupport,
    Support.withLiteral_eq_self inherited]
  exact admits_of_support (support_eq_ok_iff.mpr there)

theorem support_event_of_linkWith {start finish event : EventId} {literal : Literal}
    {id : TemporalId} (done : linkWith start finish literal n = .ok id m) :
    m.support (.event event) = n.support (.event event) := by
  obtain ⟨_, linked, added⟩ := linkWith_eq_ok done
  obtain ⟨_, _, _, rfl, rfl⟩ := link_eq_ok_iff.mp linked
  obtain ⟨_, _, _, _, rfl⟩ := changeGuard_eq_ok_iff.mp added
  rw [support, guard_setGuard_of_ne (by simp), guard_note]
  rfl

theorem follows_addBranch (choice finish : EventId) (subject : ChoiceVariable) (value : String)
    (id : EpisodeId) : Follows brought (addBranch choice finish subject value id) n := by
  refine (follows_propagate ..).bind fun _ m propagated => follows_read fun episode found => ?_
  have narrowed := narrowed_propagate propagated
  obtain ⟨s, atStart, startRequires⟩ := narrowed.requires found (.inl rfl)
  refine (follows_linkWith (.inr rfl) atStart startRequires).bind fun opening _ opened => ?_
  split
  · exact follows_pure _
  · obtain ⟨t, atFinish, finishRequires⟩ := narrowed.requires found (.inr rfl)
    rw [← support_event_of_linkWith opened] at atFinish
    exact (follows_linkWith (.inl rfl) atFinish finishRequires).bind fun _ _ _ => follows_pure _

theorem follows_addBranches (choice finish : EventId) (subject : ChoiceVariable)
    (branches : List (String × EpisodeId)) :
    Follows brought (addBranches choice finish subject branches) n := by
  induction branches generalizing n with
  | nil => exact follows_pure []
  | cons entry rest ih =>
    exact (follows_addBranch ..).bind fun _ _ _ => ih.bind fun _ _ _ => follows_pure _

theorem length_addBranches {choice finish : EventId} {subject : ChoiceVariable}
    {entries : List (String × EpisodeId)} {branches : List Branch}
    (done : addBranches choice finish subject entries n = .ok branches m) :
    branches.length = entries.length := by
  induction entries generalizing n m branches with
  | nil =>
    obtain ⟨rfl, _⟩ := Attempt.pure_eq_ok_iff.mp done
    rfl
  | cons entry rest ih =>
    obtain ⟨_, _, _, _, remaining, rfl⟩ := addBranches_cons_eq_ok done
    rw [List.length_cons, List.length_cons, ih remaining]

/-- The end may exist where the choice takes none of the values that end the
execution, unless these are all its values. -/
theorem follows_excludeEnded {finish : EventId} {subject : ChoiceVariable} {ended : List Branch}
    (fewer : ended.length < subject.arity) :
    Follows brought
      (setConjunction (.event finish) (.ofList (ended.map (.isNot subject ·.value)))) n := by
  refine follows_changeGuard fun _ _ _ changed => ?_
  cases changed
  refine .inl (.single ?_)
  have passes := Conjunction.isSatisfiable_ofList_isNot (x := subject)
    (ended.map Branch.value) (by rwa [List.length_map])
  rwa [List.map_map] at passes

/-- What a branching does once it is known that there are as many episodes as
values. -/
theorem follows_branch_steps (choice : EventId) (subject : ChoiceVariable) (ids : List EpisodeId)
    (options : CompositionOptions) :
    Follows brought (do
      let finish ← eventOrNew options.finish
      let branches ← addBranches choice finish subject (subject.domain.zip ids)
      let ended := branches.filter (·.terminal)
      let terminal := ended.length == subject.arity
      if !terminal && !ended.isEmpty then
        setConjunction (.event finish) (.ofList (ended.map (.isNot subject ·.value)))
      addComposite options choice finish (.branching choice ids)
        (branches.flatMap (·.links)) terminal) n := by
  refine (follows_eventOrNew _).bind fun finish _ _ => ?_
  refine (follows_addBranches ..).bind fun branches _ added => ?_
  have within : (branches.filter (·.terminal)).length ≤ subject.arity := by
    have count := length_addBranches added
    have := List.length_filter_le (·.terminal) branches
    rw [List.length_zip] at count
    unfold ChoiceVariable.arity
    omega
  dsimp only
  split
  next some =>
    refine (follows_excludeEnded ?_).bind fun _ _ _ => follows_addComposite ..
    simp only [Bool.and_eq_true, Bool.not_eq_true', beq_eq_false_iff_ne] at some
    omega
  next => exact follows_addComposite ..

theorem follows_branch (choice : EventId) (ids : List EpisodeId) (options : CompositionOptions) :
    Follows brought (branch choice ids options) n := by
  refine follows_read fun data _ => ?_
  by_cases mismatch : data.subject.arity ≠ ids.length
  · rw [if_pos mismatch]
    exact follows_throw _
  rw [if_neg mismatch]
  exact follows_atomically fun n => follows_branch_steps ..

end Edit

end PlanNetwork
