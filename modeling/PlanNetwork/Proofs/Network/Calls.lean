/-
# The calls that a network takes

A network is changed by calls. Whatever call is made, and whether it succeeds or
is refused, the network evolves, and a well-formed network stays well-formed.

A relation between networks is respected if it holds between a network and what
becomes of it by a call, or by one of the steps that a program takes on its own:
a relation that is respected holds of whatever a program does to its network. If
callers keep to some calls, a relation has to hold of these only, and of those that a
program makes on its own.
-/

import PlanNetwork.Proofs.Composition.Upkeep

namespace PlanNetwork

open Network

variable {brought : Support → Prop}

/-- The calls that a network takes. -/
inductive NetworkCall : Type → Type where
  /-- A new event with the identity. -/
  | addEventAs (identity : Identity) : NetworkCall EventId
  /-- A new choice event. -/
  | addChoice (spec : ChoiceSpec) : NetworkCall EventId
  /-- A new state variable. -/
  | addQuantity (name : String) (domain : StateDomain) : NetworkCall VariableId
  /-- A new temporal constraint. -/
  | addTemporal (start finish : EventId) (spec : DurationSpec) : NetworkCall TemporalId
  /-- A new constraint that fixes the value of each variable. -/
  | addAssignmentConstraint (scope : List VariableId) (values : List StateValue) :
      NetworkCall StateConstraintId
  /-- A new constraint on the weighted sum of the variables. -/
  | addLinearConstraint (scope : List VariableId) (coefficients : List Number)
      (relation : Relation) (bound : Number) : NetworkCall StateConstraintId
  /-- A new chance constraint. -/
  | addChance (constraints : List ConstraintId) (risk : Number) : NetworkCall ChanceId
  /-- A new primitive episode. -/
  | addEpisode (spec : EpisodeSpec) : NetworkCall EpisodeId
  /-- Another duration for an episode. -/
  | setDuration (id : EpisodeId) (spec : DurationSpec) : NetworkCall TemporalId
  /-- An internal constraint for an episode. -/
  | attachTemporal (id : EpisodeId) (constraint : TemporalId) : NetworkCall Unit
  /-- A state constraint for an episode. -/
  | attachState (span : Edit.Span) (id : EpisodeId) (constraint : StateConstraintId) :
      NetworkCall Unit
  /-- Let an element exist only where the support holds as well. -/
  | narrow (element : Guarded) (support : Support) : NetworkCall Unit
  /-- Replace the support of an element. -/
  | setSupport (element : Guarded) (support : Support) : NetworkCall Unit
  /-- Add a literal to every conjunction of a support. -/
  | addLiteral (element : Guarded) (literal : Literal) : NetworkCall Unit
  /-- Replace the support of an element by one conjunction. -/
  | setConjunction (element : Guarded) (conjunction : Conjunction) : NetworkCall Unit
  /-- Let an element exist always. -/
  | clearSupport (element : Guarded) : NetworkCall Unit
  /-- Narrow an episode and everything inside it. -/
  | propagate (id : EpisodeId) (support : Support) : NetworkCall Unit
  /-- Execute episodes one after the other. -/
  | sequence (episodes : List EpisodeId) (options : CompositionOptions) : NetworkCall EpisodeId
  /-- Execute episodes side by side. -/
  | parallel (episodes : List EpisodeId) (options : CompositionOptions) : NetworkCall EpisodeId
  /-- Execute one of the episodes, by the value of a choice. -/
  | branch (choice : EventId) (episodes : List EpisodeId) (options : CompositionOptions) :
      NetworkCall EpisodeId

/-- The operation behind a call of a network. -/
def NetworkCall.run {α : Type} : NetworkCall α → Edit α
  | addEventAs identity => Edit.addEventAs identity
  | addChoice spec => Edit.addChoice spec
  | addQuantity name domain => Edit.addQuantity name domain
  | addTemporal start finish spec => Edit.addTemporal start finish spec
  | addAssignmentConstraint scope values => Edit.addAssignmentConstraint scope values
  | addLinearConstraint scope coefficients relation bound =>
    Edit.addLinearConstraint scope coefficients relation bound
  | addChance constraints risk => Edit.addChance constraints risk
  | addEpisode spec => Edit.addEpisode spec
  | setDuration id spec => Edit.setDuration id spec
  | attachTemporal id constraint => Edit.attachTemporal id constraint
  | attachState span id constraint => Edit.attachState span id constraint
  | narrow element support => Edit.narrow element support
  | setSupport element support => Edit.setSupport element support
  | addLiteral element literal => Edit.addLiteral element literal
  | setConjunction element conjunction => Edit.setConjunction element conjunction
  | clearSupport element => Edit.clearSupport element
  | propagate id support => Edit.propagate id support
  | sequence episodes options => Edit.sequence episodes options
  | parallel episodes options => Edit.parallel episodes options
  | branch choice episodes options => Edit.branch choice episodes options

/-- What callers bring along for guards. -/
structure Brought where
  /-- The supports that they write without a check. -/
  written : Support → Prop
  /-- The supports that they narrow others with. -/
  narrowing : Support → Prop
  /-- The literals that they add to supports. -/
  added : Literal → Prop

namespace Brought

/-- Callers write only supports of the kind without a check. -/
def writing (brought : Support → Prop) : Brought where
  written := brought
  narrowing := fun _ => True
  added literal := ∀ support : Support, brought (support.withLiteral literal)

/-- Callers bring what they like. -/
def any : Brought := ⟨fun _ => True, fun _ => True, fun _ => True⟩

end Brought

/-- Whether a call of a network brings only what is among the things brought. -/
def NetworkCall.Brings (brought : Brought) {α : Type} : NetworkCall α → Prop
  | narrow _ support | propagate _ support => brought.narrowing support
  | setSupport _ support => brought.written support
  | addLiteral _ literal => brought.added literal
  | setConjunction _ conjunction => brought.written (.ofConjunction conjunction)
  | _ => True

/-- Whether programs make such calls on their own, whatever callers ask for. -/
def NetworkCall.Routine {α : Type} : NetworkCall α → Prop
  | addQuantity _ _ | addTemporal _ _ _ | addChance _ _ | addEpisode _ | attachState _ _ _
  | sequence _ _ | parallel _ _ | branch _ _ _ => True
  | _ => False

theorem NetworkCall.Routine.brings {α : Type} {call : NetworkCall α} (routine : call.Routine)
    (given : Brought) : call.Brings given := by
  cases call <;> trivial

theorem NetworkCall.evolves_run {α : Type} (call : NetworkCall α)
    (brings : call.Brings (.writing brought)) (n : Network) :
    Edit.Evolves brought call.run n := by
  cases call <;> rw [NetworkCall.run]
  case addEventAs => exact (Edit.follows_addEventAs _).evolves
  case addChoice => exact (Edit.follows_addChoice _).evolves
  case addQuantity => exact (Edit.follows_addQuantity ..).evolves
  case addTemporal => exact (Edit.follows_addTemporal ..).evolves
  case addAssignmentConstraint => exact (Edit.follows_addAssignmentConstraint ..).evolves
  case addLinearConstraint => exact (Edit.follows_addLinearConstraint ..).evolves
  case addChance => exact (Edit.follows_addChance ..).evolves
  case addEpisode => exact (Edit.follows_addEpisode _).evolves
  case setDuration => exact Edit.evolves_setDuration ..
  case attachTemporal => exact Edit.evolves_attachTemporal ..
  case attachState => exact Edit.evolves_attachState ..
  case narrow => exact (Edit.follows_narrow ..).evolves
  case setSupport => exact (Edit.follows_setSupport (.inr brings)).evolves
  case addLiteral element literal =>
    refine (Edit.follows_changeGuard fun old new _ changed => ?_).evolves
    cases changed
    exact .inr (brings old.support)
  case setConjunction =>
    refine (Edit.follows_changeGuard fun _ _ _ changed => ?_).evolves
    cases changed
    exact .inr brings
  case clearSupport => exact (Edit.follows_clearSupport _).evolves
  case propagate => exact (Edit.follows_propagate ..).evolves
  case sequence => exact (Edit.follows_sequence ..).evolves
  case parallel => exact (Edit.follows_parallel ..).evolves
  case branch => exact (Edit.follows_branch ..).evolves

theorem NetworkCall.keeps_run {α : Type} (call : NetworkCall α) (n : Network) :
    Edit.Keeps call.run n := by
  cases call <;> rw [NetworkCall.run]
  case addEventAs => exact Edit.keeps_addEventAs _
  case addChoice => exact Edit.keeps_addChoice _
  case addQuantity => exact Edit.keeps_addQuantity _ _
  case addTemporal => exact Edit.keeps_addTemporal _ _ _
  case addAssignmentConstraint => exact Edit.keeps_addAssignmentConstraint _ _
  case addLinearConstraint => exact Edit.keeps_addLinearConstraint _ _ _ _
  case addChance => exact Edit.keeps_addChance _ _
  case addEpisode => exact Edit.keeps_addEpisode _
  case setDuration => exact Edit.keeps_setDuration _ _
  case attachTemporal => exact Edit.keeps_attachTemporal _ _
  case attachState => exact Edit.keeps_attachState _ _ _
  case narrow => exact Edit.keeps_narrow _ _
  case setSupport => exact Edit.keeps_setSupport _ _
  case addLiteral => exact Edit.keeps_addLiteral _ _
  case setConjunction => exact Edit.keeps_setConjunction _ _
  case clearSupport => exact Edit.keeps_clearSupport _
  case propagate => exact Edit.keeps_propagate _ _
  case sequence => exact Edit.keeps_sequence _ _
  case parallel => exact Edit.keeps_parallel _ _
  case branch => exact Edit.keeps_branch _ _ _

namespace Network

/-- The networks that come about by calls. Others may take serial numbers in
between. -/
inductive Reachable : Network → Prop where
  /-- A network starts without elements. -/
  | empty (tolerance : Number) : Reachable (.empty tolerance)
  /-- Serial numbers are given out elsewhere. -/
  | count {n : Network} {later : Nat} (more : n.nextSerial ≤ later) (before : Reachable n) :
      Reachable (n.withSerial later)
  /-- A call is made, and succeeds or is refused. -/
  | call {n : Network} {α : Type} (call : NetworkCall α) (before : Reachable n) :
      Reachable (call.run.after n)

theorem Reachable.wellFormed {n : Network} (h : n.Reachable) : n.WellFormed := by
  induction h with
  | empty tolerance => exact wellFormed_empty tolerance
  | count _ _ ih => exact ih.withSerial _
  | call call _ ih => exact call.keeps_run _ ih

/-- What becomes of a network by some calls in turn. -/
def afterCalls (n : Network) (calls : List (Sigma NetworkCall)) : Network :=
  calls.foldl (fun n call => call.2.run.after n) n

theorem Reachable.afterCalls {n : Network} (h : n.Reachable) (calls : List (Sigma NetworkCall)) :
    (n.afterCalls calls).Reachable := by
  induction calls generalizing n with
  | nil => exact h
  | cons call rest ih => exact ih (.call call.2 h)

/-! ## What all calls respect -/

/-- The relation holds between a network and what becomes of it by what programs do on
their own, apart from calls. -/
structure Steady (R : Network → Network → Prop) : Prop where
  /-- It holds if nothing happens. -/
  refl : ∀ n, R n n
  /-- It can be chained. -/
  trans : ∀ {n k m}, R n k → R k m → R n m
  /-- It holds if serial numbers are given out. -/
  count : ∀ (n : Network) {later}, n.nextSerial ≤ later → R n (n.withSerial later)
  /-- It does not matter to it that a journal was kept. -/
  whole : ∀ {n m : Network}, n.journal = none → R n.checkpoint m → R n m.commit
  /-- It holds of new events. -/
  event : ∀ n, R n (Edit.addEvent.after n)
  /-- It holds if the guard of a constraint is derived anew. -/
  refresh : ∀ id n, R n ((Edit.refreshTemporal id).after n)
  /-- It holds if a constraint that is the executive's to meet gets other bounds. -/
  bounds : ∀ {id} lower upper {n}, n.Controllable id → R n ((Edit.setBounds id lower upper).after n)
  /-- It holds if a constraint is taken away. -/
  detach : ∀ id n, R n ((Edit.detachTemporal id).after n)

/-- The relation holds between a network and what becomes of it, if callers bring
no more than that. -/
structure Respected (brought : Brought) (R : Network → Network → Prop) : Prop
    extends Steady R where
  /-- It holds of calls. -/
  call : ∀ {α : Type} (call : NetworkCall α) n, call.Brings brought → R n (call.run.after n)

/-- The relation holds between a network and what becomes of it, if callers make only
calls that they may make. -/
structure RespectedUnder (may : ∀ ⦃α : Type⦄, NetworkCall α → Prop)
    (R : Network → Network → Prop) : Prop extends Steady R where
  /-- It holds of the calls that are made. -/
  call : ∀ {α : Type} (call : NetworkCall α) n, call.Routine ∨ may call → R n (call.run.after n)

theorem Respected.under {given : Brought} {R : Network → Network → Prop} (h : Respected given R) :
    RespectedUnder (fun _ call => call.Brings given) R :=
  ⟨h.toSteady, fun call n made => h.call call n (made.elim (·.brings given) id)⟩

theorem respected_evolution : Respected (.writing brought) (Evolution brought) where
  refl _ := .refl
  trans := .trans
  count n _ later := .single (.inl (.count n later))
  whole {n _} idle evolution := by
    have start : n.checkpoint.commit = n := commit_of_journal_eq_none idle
    exact start ▸ Evolution.commit evolution
  call call n brings := call.evolves_run brings n
  event _ := Edit.follows_addEvent.evolves
  refresh id _ := (Edit.follows_refreshTemporal id).evolves
  bounds lower upper _ kind := Edit.evolves_setBounds kind lower upper
  detach id _ := Edit.evolves_detachTemporal id

theorem respected_wellFormed :
    Respected .any fun n m => n.WellFormed → m.WellFormed where
  refl _ := id
  trans first second := second ∘ first
  count _ _ _ whole := whole.withSerial _
  whole _ kept start := (kept (start.of_bare rfl)).of_bare rfl
  call call n _ := call.keeps_run n
  event _ := Edit.keeps_addEvent
  refresh id _ := Edit.keeps_refreshTemporal id
  bounds lower upper _ _ := Edit.keeps_setBounds _ lower upper
  detach id _ := Edit.keeps_detachTemporal id

end Network

end PlanNetwork
