/-
# Making and changing elements leaves trails

A new element exists always, or where its events exist together, or under a
support that some element has. An operation on a network that is not one of
the elementary changes is made of them, apart from replacing the duration, the
constraints or the bounds of an element, of which guards take no notice.
-/

import PlanNetwork.Proofs.Network.Effects
import PlanNetwork.Proofs.Network.Journal

namespace PlanNetwork

variable {brought : Support → Prop} {n m : Network}

namespace Network

theorem Derives.withSerial {s : Support} {nextSerial : Nat} (h : n.Derives s) :
    (n.withSerial nextSerial).Derives s := by
  have same (element : Guarded) :
      (n.withSerial nextSerial).support element = n.support element := by
    cases element <;> rfl
  cases h with
  | held found => exact .held ((same _).trans found)
  | both narrowed => exact .both narrowed
  | single passes => exact .single passes

theorem Admits.withSerial {s : Support} {nextSerial : Nat} (h : n.Admits brought s) :
    (n.withSerial nextSerial).Admits brought s :=
  h.imp_left Derives.withSerial

theorem admits_always : n.Admits brought .always := .inl n.derives_always

theorem derives_of_endpointSupport {start finish : EventId} {s : Support}
    (found : n.endpointSupport start finish = .ok s) : n.Derives s := by
  obtain ⟨_, _, _, _, narrowed⟩ := endpointSupport_eq_ok_iff.mp found
  exact .both narrowed

end Network

open Network

namespace Edit

/-! ## New elements -/

theorem follows_addEventAs (identity : Identity) :
    Follows brought (addEventAs identity) n :=
  .of_change (.event n _ admits_always)

theorem follows_addEvent : Follows brought addEvent n :=
  (follows_allocate _).bind fun _ _ _ => follows_addEventAs _

theorem follows_eventOrNew (given : Option EventId) :
    Follows brought (eventOrNew given) n := by
  cases given with
  | some id => exact follows_pure id
  | none => exact follows_addEvent

theorem follows_addChoice (spec : ChoiceSpec) : Follows brought (addChoice spec) n :=
  follows_read fun _ _ =>
    (follows_allocateAs ..).bind fun _ m _ => .of_change (.event m _ admits_always)

theorem follows_addQuantity (name : String) (domain : StateDomain) :
    Follows brought (addQuantity name domain) n :=
  follows_ofExcept fun _ _ =>
    (follows_allocate _).bind fun _ m _ => .of_change (.quantity m _)

theorem follows_linkUnder {start finish : EventId} {bounds : Bounds} {s : Support}
    (valid : bounds.Valid) (fits : n.Admits brought s) :
    Follows brought (linkUnder start finish bounds s) n := by
  refine follows_ofExcept fun guard made => ?_
  obtain ⟨_, rfl⟩ := Guard.set_eq_ok_iff.mp (refuseClash_eq_ok_iff.mp made)
  refine (follows_allocate _).bind fun identity m result => ?_
  obtain ⟨_, rfl⟩ := allocate_eq_ok_iff.mp result
  exact .of_change (.temporal _ _ fits.withSerial valid)

theorem follows_link (start finish : EventId) {bounds : Bounds} (valid : bounds.Valid) :
    Follows brought (link start finish bounds) n :=
  follows_read fun _ found => follows_linkUnder valid (.inl (derives_of_endpointSupport found))

theorem follows_addTemporal (start finish : EventId) (spec : DurationSpec) :
    Follows brought (addTemporal start finish spec) n :=
  follows_ofExcept fun _ resolved =>
    follows_link start finish (DurationSpec.valid_of_resolve resolved)

theorem follows_addDuration (start finish : EventId) (spec : DurationSpec) :
    Follows brought (addDuration start finish spec) n := by
  refine follows_ofExcept fun bounds resolved => ?_
  refine follows_read fun both _ => ?_
  refine follows_read fun last _ => ?_
  refine follows_ofExcept fun s narrowed => ?_
  exact follows_linkUnder (DurationSpec.valid_of_resolve resolved)
    (.inl (.both (refuseClash_eq_ok_iff.mp narrowed)))

theorem follows_addStateConstraint {scope : List VariableId} {condition : StateCondition}
    (checked : checkScope n [] scope = .ok ()) (suits : condition.Suits n scope) :
    Follows brought (addStateConstraint scope condition) n := by
  refine (follows_allocate _).bind fun identity m result => ?_
  obtain ⟨_, rfl⟩ := allocate_eq_ok_iff.mp result
  have valid : StateConstraint.Valid n ⟨identity, .always, scope, condition⟩ :=
    valid_of_checkScope checked suits
  exact .of_change (.state _ _ admits_always (valid.mono id rfl rfl))

theorem follows_addAssignmentConstraint (scope : List VariableId) (values : List StateValue) :
    Follows brought (addAssignmentConstraint scope values) n := by
  refine follows_read fun _ checked => ?_
  by_cases mismatch : scope.length ≠ values.length
  · rw [if_pos mismatch]
    exact follows_throw _
  · rw [if_neg mismatch]
    refine follows_read fun _ within => follows_addStateConstraint checked ?_
    exact ⟨not_not.mp mismatch, takes_of_checkValues within⟩

theorem follows_addLinearConstraint (scope : List VariableId) (coefficients : List Number)
    (relation : Relation) (bound : Number) :
    Follows brought (addLinearConstraint scope coefficients relation bound) n := by
  refine follows_read fun _ checked => ?_
  by_cases mismatch : scope.length ≠ coefficients.length
  · rw [if_pos mismatch]
    exact follows_throw _
  · rw [if_neg mismatch]
    exact follows_addStateConstraint checked (not_not.mp mismatch)

theorem follows_addChance (constraints : List ConstraintId) (risk : Number) :
    Follows brought (addChance constraints risk) n := by
  unfold addChance
  split
  next likely =>
    obtain ⟨least, greatest⟩ := Bool.and_eq_true_iff.mp likely
    exact follows_read fun _ _ =>
      (follows_allocate _).bind fun _ m _ => .of_change (.chance m _ ⟨least, greatest⟩)
  next => exact follows_throw _

theorem follows_addDraft (draft : EpisodeDraft) {finishing : Episode → Episode}
    (keeps : ∀ e, (finishing e).guard = e.guard) :
    Follows brought (addDraft draft finishing) n := by
  refine follows_read fun _ _ => follows_read fun _ _ => ?_
  refine (follows_addDuration ..).bind fun duration m _ => ?_
  refine .of_change (.episode m _ ?_)
  rw [keeps]
  exact admits_always

theorem follows_addEpisode (spec : EpisodeSpec) : Follows brought (addEpisode spec) n := by
  refine follows_read fun _ _ => follows_read fun _ _ => follows_read fun _ _ =>
    follows_read fun _ _ => follows_read fun _ _ => ?_
  refine follows_atomically fun n => ?_
  refine (follows_eventOrNew _).bind fun _ _ _ => ?_
  refine (follows_eventOrNew _).bind fun _ _ _ => ?_
  refine (follows_allocateAs ..).bind fun _ _ _ => ?_
  exact follows_addDraft _ fun _ => rfl

/-! ## Changes -/

theorem follows_replacementDurations (ids : List EpisodeId) :
    Follows brought (replacementDurations ids) n := by
  induction ids generalizing n with
  | nil => exact follows_pure []
  | cons id rest ih =>
    refine follows_read fun episode _ => ?_
    refine (follows_addDuration ..).bind fun duration m _ => ?_
    exact ih.bind fun _ _ _ => follows_pure _

theorem follows_refreshTemporal (id : TemporalId) :
    Follows brought (refreshTemporal id) n :=
  follows_read fun _ _ => follows_read fun _ found =>
    follows_setSupport (.inl (derives_of_endpointSupport found))

end Edit

end PlanNetwork
