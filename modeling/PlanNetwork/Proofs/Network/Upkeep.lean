/-
# Making and changing elements keeps networks well-formed

Each operation looks up what it is given before it refers to it, or takes it
from an element that is there. So it leaves a well-formed network behind, and it
does so even if it is refused half-way: no step by itself leaves a reference to
nothing.

A new duration is behind all constraints there were, and an episode is put
behind the others with a duration made for it. This is why durations are never
shared.
-/

import PlanNetwork.Proofs.Choice
import PlanNetwork.Proofs.Network.Detachment
import PlanNetwork.Proofs.Network.WellFormed

namespace PlanNetwork

open Network

variable {n m k : Network}

namespace Network

theorem index_lt_of_support {id : EventId} {s : Support} (found : n.support (.event id) = .ok s) :
    id.index < n.events.size := by
  obtain ⟨e, there, _⟩ := guard_event.mp (support_eq_ok_iff.mp found)
  exact (Array.getElem?_eq_some_iff.mp there).1

theorem ends_of_endpointSupport {start finish : EventId} {s : Support}
    (found : n.endpointSupport start finish = .ok s) :
    start.index < n.events.size ∧ finish.index < n.events.size := by
  obtain ⟨_, _, first, second, _⟩ := endpointSupport_eq_ok_iff.mp found
  exact ⟨index_lt_of_support first, index_lt_of_support second⟩

end Network

namespace Edit

variable {α β : Type}

/-- Whatever the outcome, a well-formed network stays well-formed. -/
def Keeps (op : Edit α) (n : Network) : Prop := n.WellFormed → (op.after n).WellFormed

/-! ## Putting operations together -/

theorem Keeps.of_ok {op : Edit α} {a : α} (h : Keeps op n) (whole : n.WellFormed)
    (done : op n = .ok a m) : m.WellFormed :=
  Attempt.after_of_ok done ▸ h whole

/-- An operation that makes elements and writes guards takes nothing away. -/
theorem Follows.covers {op : Edit α} {a : α} (h : Follows (fun _ => True) op n)
    (done : op n = .ok a m) : Covers n m :=
  .trail (h.of_ok done)

theorem Keeps.bind {op : Edit α} {next : α → Edit β} (first : Keeps op n)
    (rest : ∀ a m, op n = .ok a m → Keeps (next a) m) : Keeps (op >>= next) n :=
  Attempt.after_bind (R := fun n m : Network => n.WellFormed → m.WellFormed) (fun left right => right ∘ left)
    first rest

theorem keeps_pure (a : α) : Keeps (pure a : Edit α) n := id

theorem keeps_throw (fault : Fault) : Keeps (throw fault : Edit α) n := id

theorem keeps_read {view : Network → Except Fault α} {next : α → Edit β}
    (rest : ∀ a, view n = .ok a → Keeps (next a) n) : Keeps (Attempt.read view >>= next) n := by
  refine Keeps.bind (fun whole => (Attempt.after_read view).symm ▸ whole) fun a m result => ?_
  obtain ⟨value, rfl⟩ := Attempt.read_eq_ok_iff.mp result
  exact rest a value

theorem keeps_ofExcept {result : Except Fault α} {next : α → Edit β}
    (rest : ∀ a, result = .ok a → Keeps (next a) n) :
    Keeps (Attempt.ofExcept result >>= next) n :=
  keeps_read rest

theorem keeps_modify {change : Network → Network} (keeps : n.WellFormed → (change n).WellFormed) :
    Keeps (modify change) n :=
  keeps

theorem keeps_each {op : β → Edit Unit} (each : ∀ b n, Keeps (op b) n) (items : List β) :
    Keeps (Attempt.each op items) n := by
  induction items generalizing n with
  | nil => exact keeps_pure ()
  | cons item rest ih => exact (each item n).bind fun _ _ _ => ih

/-- An operation that takes effect as a whole keeps the network well-formed if
its steps do, with a journal or without. -/
theorem keeps_atomically {op : Edit α}
    (refused : ∀ {fault k}, op n.checkpoint = .error fault k →
      Trail (fun _ => True) n.checkpoint k)
    (steps : ∀ k, k.bare = n.bare → Keeps op k) : Keeps (atomically op) n :=
  after_atomically (R := fun n m : Network => n.WellFormed → m.WellFormed) refused
    (fun left right => right ∘ left) steps (fun _ whole => whole.of_bare rfl)
    (fun _ whole => whole.of_bare rfl) fun _ later whole => whole.withSerial later

/-! ## Elementary operations -/

theorem keeps_allocate (kind : String) : Keeps (allocate kind) n :=
  fun whole => whole.withSerial _

theorem keeps_allocateAs (kind : String) (id name : Option String) :
    Keeps (allocateAs kind id name) n :=
  (keeps_allocate kind).bind fun _ _ _ => keeps_pure _

/-- What writes guards changes nothing else. -/
theorem bare_changeGuard (element : Guarded) (change : Guard → Except Clash Guard) (n : Network) :
    ((changeGuard element change).after n).bare = n.bare := by
  have trans {a b c : Network} (first : b.bare = a.bare) (second : c.bare = b.bare) :
      c.bare = a.bare := second.trans first
  have read {α : Type} (view : Network → Except Fault α) (n : Network) :
      ((Attempt.read view).after n).bare = n.bare := by rw [Attempt.after_read]
  refine Attempt.after_bind (R := fun n m : Network => m.bare = n.bare) trans (read _ n) fun g m _ => ?_
  refine Attempt.after_bind (R := fun n m : Network => m.bare = n.bare) trans bare_note fun _ m _ => ?_
  exact Attempt.after_bind (R := fun n m : Network => m.bare = n.bare) trans (read _ m) fun _ m _ =>
    bare_setGuard

theorem keeps_changeGuard (element : Guarded) (change : Guard → Except Clash Guard) :
    Keeps (changeGuard element change) n :=
  fun whole => whole.of_bare (bare_changeGuard element change n)

theorem covers_of_changeGuard {element : Guarded} {change : Guard → Except Clash Guard} {u : Unit}
    (done : changeGuard element change n = .ok u m) : Covers n m :=
  .of_bare (Attempt.after_of_ok done ▸ bare_changeGuard element change n)

theorem keeps_narrow (element : Guarded) (s : Support) : Keeps (narrow element s) n :=
  keeps_changeGuard _ _

theorem keeps_setSupport (element : Guarded) (s : Support) : Keeps (setSupport element s) n :=
  keeps_changeGuard _ _

theorem keeps_addLiteral (element : Guarded) (literal : Literal) :
    Keeps (addLiteral element literal) n :=
  keeps_changeGuard _ _

theorem keeps_setConjunction (element : Guarded) (conjunction : Conjunction) :
    Keeps (setConjunction element conjunction) n :=
  keeps_changeGuard _ _

theorem keeps_clearSupport (element : Guarded) : Keeps (clearSupport element) n :=
  keeps_changeGuard _ _

/-! ## Events, variables and constraints -/

theorem keeps_addEventAs (identity : Identity) : Keeps (addEventAs identity) n :=
  fun whole => whole.pushEvent nofun

theorem keeps_addEvent : Keeps addEvent n :=
  (keeps_allocate _).bind fun _ _ _ => keeps_addEventAs _

theorem keeps_eventOrNew (given : Option EventId) : Keeps (eventOrNew given) n := by
  cases given with
  | some id => exact keeps_pure id
  | none => exact keeps_addEvent

theorem keeps_addChoice (spec : ChoiceSpec) : Keeps (addChoice spec) n :=
  keeps_read fun _ accepted => (keeps_allocateAs _ _ _).bind fun _ _ _ whole =>
    whole.pushEvent fun _ same => Option.some.inj same ▸ (ChoiceSpec.of_validate accepted).2.2

theorem keeps_addQuantity (name : String) (domain : StateDomain) :
    Keeps (addQuantity name domain) n :=
  keeps_ofExcept fun _ _ => (keeps_allocate _).bind fun _ _ _ whole => whole.pushQuantity _

theorem keeps_linkUnder {start finish : EventId} {bounds : Bounds} {s : Support}
    (ends : start.index < n.events.size ∧ finish.index < n.events.size) :
    Keeps (linkUnder start finish bounds s) n := by
  refine keeps_ofExcept fun guard _ => (keeps_allocate _).bind fun identity m allocated => ?_
  obtain ⟨_, rfl⟩ := allocate_eq_ok_iff.mp allocated
  exact fun whole => whole.pushTemporal ends

theorem keeps_link (start finish : EventId) (bounds : Bounds) : Keeps (link start finish bounds) n :=
  keeps_read fun _ found => keeps_linkUnder (ends_of_endpointSupport found)

theorem keeps_addTemporal (start finish : EventId) (spec : DurationSpec) :
    Keeps (addTemporal start finish spec) n :=
  keeps_ofExcept fun _ _ => keeps_link _ _ _

theorem keeps_addDuration (start finish : EventId) (spec : DurationSpec) :
    Keeps (addDuration start finish spec) n :=
  keeps_ofExcept fun _ _ => keeps_read fun _ found => keeps_read fun _ _ => keeps_ofExcept fun _ _ =>
    keeps_linkUnder (ends_of_endpointSupport found)

/-- A new duration is behind the constraints there were, between the events. -/
theorem of_addDuration {start finish : EventId} {spec : DurationSpec} {id : TemporalId}
    (done : addDuration start finish spec n = .ok id m) :
    id.index = n.temporals.size ∧ m.episodes = n.episodes ∧ Covers n m ∧
      ∃ c, m.temporal id = .ok c ∧ c.start = start ∧ c.finish = finish := by
  have covers := (follows_addDuration start finish spec).covers done
  obtain ⟨_, _, _, _, _, _, _, _, _, rfl, rfl⟩ := addDuration_eq_ok_iff.mp done
  exact ⟨rfl, rfl, covers, _, lookup_push_self rfl, rfl, rfl⟩

theorem index_lt_of_checkScope {ids : List VariableId} (checked : checkScope n [] ids = .ok ()) :
    ∀ id ∈ ids, id.index < n.quantities.size := by
  intro id member
  obtain ⟨v, found⟩ := there_of_checkScope checked id member
  exact lookup_index_lt found

theorem keeps_addStateConstraint {scope : List VariableId} (condition : StateCondition)
    (there : ∀ v ∈ scope, v.index < n.quantities.size) :
    Keeps (addStateConstraint scope condition) n := by
  refine (keeps_allocate _).bind fun identity m allocated => ?_
  obtain ⟨_, rfl⟩ := allocate_eq_ok_iff.mp allocated
  exact fun whole => whole.pushState there

theorem keeps_addAssignmentConstraint (scope : List VariableId) (values : List StateValue) :
    Keeps (addAssignmentConstraint scope values) n := by
  refine keeps_read fun _ checked => ?_
  by_cases mismatch : scope.length ≠ values.length
  · rw [if_pos mismatch]
    exact keeps_throw _
  · rw [if_neg mismatch]
    exact keeps_read fun _ _ => keeps_addStateConstraint _ (index_lt_of_checkScope checked)

theorem keeps_addLinearConstraint (scope : List VariableId) (coefficients : List Number)
    (relation : Relation) (bound : Number) :
    Keeps (addLinearConstraint scope coefficients relation bound) n := by
  refine keeps_read fun _ checked => ?_
  by_cases mismatch : scope.length ≠ coefficients.length
  · rw [if_pos mismatch]
    exact keeps_throw _
  · rw [if_neg mismatch]
    exact keeps_addStateConstraint _ (index_lt_of_checkScope checked)

theorem checkConstraint_of_checkConstraints {ids : List ConstraintId}
    (checked : checkConstraints n ids = .ok ()) : ∀ id ∈ ids, n.checkConstraint id = .ok () := by
  induction ids with
  | nil => nofun
  | cons id rest ih =>
    obtain ⟨_, first, later⟩ := bind_eq_ok_iff.mp checked
    exact List.forall_mem_cons.mpr ⟨first, ih later⟩

theorem keeps_addChance (constraints : List ConstraintId) (risk : Number) :
    Keeps (addChance constraints risk) n := by
  unfold addChance
  split
  · refine keeps_read fun _ checked => (keeps_allocate _).bind fun identity m allocated => ?_
    obtain ⟨_, rfl⟩ := allocate_eq_ok_iff.mp allocated
    have there := checkConstraint_of_checkConstraints checked
    exact fun whole => whole.pushChance fun id member =>
      (Covers.withSerial n _).checkConstraint (there id member)
  · exact keeps_throw _

/-! ## Episodes -/

/-- A draft becomes an episode that fits if the rest of it does. -/
theorem keeps_addDraft {draft : EpisodeDraft} {finishing : Episode → Episode}
    (fits : ∀ {m d}, Covers n m → draft.start.index < m.events.size →
      draft.finish.index < m.events.size →
      (∃ c, m.temporal d = .ok c ∧ c.start = draft.start ∧ c.finish = draft.finish) →
      m.Fits ⟨n.episodes.size⟩ (finishing (draft.toEpisode d)))
    (lasts : ∀ e, (finishing e).duration = e.duration) : Keeps (addDraft draft finishing) n := by
  intro whole
  refine keeps_read (fun _ starts => keeps_read fun _ finishes => ?_) whole
  refine (keeps_addDuration _ _ _).bind fun d m made whole' => ?_
  obtain ⟨last, same, covers, joined⟩ := of_addDuration made
  refine whole'.pushEpisode ?_ fun {id f} found shared => ?_
  · rw [same]
    exact fits covers (Nat.lt_of_lt_of_le (lookup_index_lt starts) covers.events)
      (Nat.lt_of_lt_of_le (lookup_index_lt finishes) covers.events) joined
  · rw [episode, same] at found
    have older := whole.duration_lt found
    rw [shared, lasts] at older
    exact absurd older (by simp [EpisodeDraft.toEpisode, last])

theorem index_lt_of_checkEntries {entries : List (VariableId × StateValue)}
    (checked : checkEntries n entries = .ok ()) :
    ∀ entry ∈ entries, entry.1.index < n.quantities.size := by
  induction entries with
  | nil => exact List.forall_mem_nil _
  | cons entry rest ih =>
    rw [checkEntries, bind_eq_ok_iff] at checked
    obtain ⟨v, found, later⟩ := checked
    split at later
    next => exact List.forall_mem_cons.mpr ⟨lookup_index_lt found, ih later⟩
    next => cases later

theorem index_lt_of_checkAssignment {a : Assignment} (checked : checkAssignment a n = .ok ()) :
    ∀ v ∈ a.keys, v.index < n.quantities.size := by
  intro v member
  obtain ⟨entry, inside, rfl⟩ := List.mem_map.mp member
  exact index_lt_of_checkEntries checked entry inside

theorem keeps_addEpisode (spec : EpisodeSpec) : Keeps (addEpisode spec) n := by
  refine keeps_read fun _ starts => keeps_read fun _ finishes => keeps_read fun _ startEffects =>
    keeps_read fun _ finishEffects => keeps_read fun _ constraints => ?_
  have assigned : ∀ a ∈ [spec.startConditions, spec.finishConditions, spec.startEffects,
      spec.finishEffects], ∀ v ∈ a.keys, v.index < n.quantities.size := by
    simp only [List.forall_mem_cons, List.not_mem_nil, IsEmpty.forall_iff, implies_true, and_true]
    exact ⟨index_lt_of_checkAssignment starts, index_lt_of_checkAssignment finishes,
      index_lt_of_checkAssignment startEffects, index_lt_of_checkAssignment finishEffects⟩
  have attached : ∀ c ∈ spec.atStart ++ spec.atFinish ++ spec.during ++ spec.overall,
      c.index < n.states.size := fun c member =>
    lookup_isOk_iff.mp (checkConstraint_of_checkConstraints constraints (.state c)
      (List.mem_map_of_mem member))
  refine keeps_atomically (Follows.of_error ?_) fun k same => ?_
  · refine (follows_eventOrNew _).bind fun _ _ _ => (follows_eventOrNew _).bind fun _ _ _ => ?_
    exact (follows_allocateAs ..).bind fun _ _ _ => follows_addDraft _ fun _ => rfl
  have covers : Covers n k := .of_bare same
  refine (keeps_eventOrNew _).bind fun start k₁ first => ?_
  refine (keeps_eventOrNew _).bind fun finish k₂ second => ?_
  refine (keeps_allocateAs _ _ _).bind fun identity k₃ third => ?_
  have covers := ((covers.trans ((follows_eventOrNew _).covers first)).trans
    ((follows_eventOrNew _).covers second)).trans ((follows_allocateAs ..).covers third)
  refine keeps_addDraft (fun {m d} more starts finishes joined => ?_) fun _ => rfl
  have covers := covers.trans more
  refine ⟨starts, finishes, joined, by simp [withStates, EpisodeDraft.toEpisode], fun c member => ?_,
    fun a inside v member => Nat.lt_of_lt_of_le (assigned a inside v member) covers.quantities,
    nofun, nofun⟩
  refine Nat.lt_of_lt_of_le (attached c ?_) covers.states
  simp only [Episode.stateConstraints, withStates, OrdSet.mem_union_iff, OrdSet.mem_ofList_iff,
    List.mem_append] at member
  simp only [List.mem_append]
  tauto

/-! ## Changes -/

theorem episode_modifyEpisode {id other : EpisodeId} {change : Episode → Episode} {f : Episode}
    (found : (n.modifyEpisode id change).episode other = .ok f) :
    other = id ∧ (∃ e, n.episode id = .ok e ∧ f = change e) ∨
      other ≠ id ∧ n.episode other = .ok f := by
  by_cases same : id = other
  · subst same
    rw [episode, lookup_eq_ok_iff] at found
    refine .inl ⟨rfl, ?_⟩
    rw [modifyEpisode, Array.getElem?_modify, if_pos rfl, Option.map_eq_some_iff] at found
    obtain ⟨e, there, rfl⟩ := found
    exact ⟨e, lookup_eq_ok_iff.mpr there, rfl⟩
  · exact .inr ⟨Ne.symm same, (lookup_modify_of_ne same).symm.trans found⟩

/-- An episode can be replaced by one that fits and shares its duration with no
other. -/
theorem wellFormed_modifyEpisode (whole : n.WellFormed) {id : EpisodeId}
    {change : Episode → Episode}
    (fits : ∀ {e}, n.episode id = .ok e → n.Fits id (change e))
    (apart : ∀ {e other f}, n.episode id = .ok e → n.episode other = .ok f → other ≠ id →
      f.duration ≠ (change e).duration) : (n.modifyEpisode id change).WellFormed := by
  refine whole.of_episodes rfl rfl rfl rfl rfl (Array.size_modify ..) (fun found => ?_)
    fun first second same => ?_
  · rcases episode_modifyEpisode found with ⟨rfl, e, there, rfl⟩ | ⟨_, there⟩
    · exact fits there
    · exact whole.episode there
  · rcases episode_modifyEpisode first with ⟨rfl, e, there, rfl⟩ | ⟨differ, there⟩ <;>
      rcases episode_modifyEpisode second with ⟨rfl, f, there', rfl⟩ | ⟨differ', there'⟩
    · rfl
    · exact absurd same.symm (apart there there' differ')
    · exact absurd same (apart there' there differ)
    · exact whole.apart there there' same

theorem keeps_setDuration (id : EpisodeId) (spec : DurationSpec) : Keeps (setDuration id spec) n := by
  intro whole
  refine keeps_read (fun episode found => ?_) whole
  refine (keeps_addDuration _ _ _).bind fun d m made => ?_
  obtain ⟨last, same, covers, joined⟩ := of_addDuration made
  have old {other : EpisodeId} {f : Episode} (there : m.episode other = .ok f) :
      n.episode other = .ok f := by
    rwa [Network.episode, same] at there
  refine Keeps.bind (keeps_modify fun whole' => ?_) fun _ _ _ => keeps_pure _
  refine wellFormed_modifyEpisode whole' (fun {e} there => ?_) fun _ there _ shared => ?_
  · obtain rfl := Except.ok.inj (found.symm.trans (old there))
    have fits := whole'.episode there
    exact ⟨fits.start, fits.finish, joined, fits.constraints, fits.states, fits.quantities,
      fits.children, fits.choice⟩
  · have older := whole.duration_lt (old there)
    rw [shared, last] at older
    exact Nat.lt_irrefl _ older

/-- What keeps durations keeps them apart. -/
theorem wellFormed_modifyEpisode_of_duration (whole : n.WellFormed) {id : EpisodeId}
    {change : Episode → Episode}
    (fits : ∀ {e}, n.episode id = .ok e → n.Fits id (change e))
    (keeps : ∀ e, (change e).duration = e.duration) : (n.modifyEpisode id change).WellFormed :=
  wellFormed_modifyEpisode whole fits fun there there' differ shared =>
    differ (whole.apart there' there (shared.trans (keeps _)))

theorem keeps_attachTemporal (id : EpisodeId) (constraint : TemporalId) :
    Keeps (attachTemporal id constraint) n := by
  refine keeps_read fun _ attached => keeps_read fun _ _ => keeps_modify fun whole => ?_
  refine wellFormed_modifyEpisode_of_duration whole (fun {e} found => ?_) fun _ => rfl
  have fits := whole.episode found
  refine ⟨fits.start, fits.finish, fits.duration, fun c member => ?_, fits.states,
    fits.quantities, fits.children, fits.choice⟩
  rcases OrdSet.mem_insert_iff.mp member with rfl | old
  · exact lookup_index_lt attached
  · exact fits.constraints c old

theorem mem_stateConstraints_withState {span : Span} {constraint c : StateConstraintId}
    {e : Episode} (member : c ∈ (withState span constraint e).stateConstraints.toList) :
    c = constraint ∨ c ∈ e.stateConstraints.toList := by
  cases span <;>
    simp only [Episode.stateConstraints, withState, OrdSet.mem_union_iff, OrdSet.mem_insert_iff]
      at member ⊢ <;> tauto

theorem wellFormed_withState (whole : n.WellFormed) (span : Span) (id : EpisodeId)
    {constraint : StateConstraintId} (there : constraint.index < n.states.size) :
    (n.modifyEpisode id (withState span constraint)).WellFormed := by
  refine wellFormed_modifyEpisode_of_duration whole (fun {e} found => ?_) fun e => by
    cases span <;> rfl
  have fits := whole.episode found
  have states : ∀ c ∈ (withState span constraint e).stateConstraints.toList,
      c.index < n.states.size := fun c member => by
    rcases mem_stateConstraints_withState member with rfl | old
    · exact there
    · exact fits.states c old
  cases span <;> exact ⟨fits.start, fits.finish, fits.duration, fits.constraints, states,
    fits.quantities, fits.children, fits.choice⟩

theorem wellFormed_attachOverall (whole : n.WellFormed) {constraint : StateConstraintId}
    (there : constraint.index < n.states.size) (ids : List EpisodeId) :
    (attachOverall constraint n ids).WellFormed := by
  induction ids generalizing n with
  | nil => exact whole
  | cons id rest ih => exact ih (wellFormed_withState whole .overall id there) there

theorem keeps_attachState (span : Span) (id : EpisodeId) (constraint : StateConstraintId) :
    Keeps (attachState span id constraint) n := by
  refine keeps_read fun _ attached => keeps_read fun _ _ => keeps_modify fun whole => ?_
  have there := lookup_index_lt attached
  have here := wellFormed_withState whole span id there
  cases span with
  | start | finish => exact here
  | during | overall => exact wellFormed_attachOverall here there _

theorem keeps_setBounds (id : TemporalId) (lower upper : Number) :
    Keeps (setBounds id lower upper) n := by
  refine keeps_read fun _ _ => keeps_ofExcept fun _ _ => keeps_modify fun whole => ?_
  have temporal {other : TemporalId} {c : TemporalConstraint}
      (found : n.temporal other = .ok c) : ∃ c', (n.modifyTemporal id fun c =>
        { c with bounds := { c.bounds with lower, upper } }).temporal other = .ok c' ∧
        c'.start = c.start ∧ c'.finish = c.finish := by
    by_cases same : id = other
    · subst same
      exact ⟨_, lookup_eq_ok_iff.mpr (getElem?_modify_self _ (lookup_eq_ok_iff.mp found)), rfl, rfl⟩
    · exact ⟨c, (lookup_modify_of_ne same).trans found, rfl, rfl⟩
  have covers : Covers n (n.modifyTemporal id fun c =>
      { c with bounds := { c.bounds with lower, upper } }) :=
    ⟨Nat.le_refl _, Nat.le_refl _, Nat.le_of_eq (Array.size_modify ..).symm, Nat.le_refl _,
      Nat.le_refl _, Nat.le_refl _, temporal, fun found => found⟩
  refine whole.of_covers covers (fun e member => .inl ⟨e, member, rfl⟩)
    (fun {_ e} found => ⟨e.guard, found⟩) (fun c member => .inr ?_) (fun c member => .inl ⟨c, member, rfl⟩) fun _ => .inl
  have joins : ∀ c : TemporalConstraint, n.temporals[id.index]? = some c → n.Joins c →
      n.Joins { c with bounds := { c.bounds with lower, upper } } := fun _ _ joins => joins
  exact covers.joins (forall_mem_modify whole.temporal joins c member)

theorem keeps_refreshTemporal (id : TemporalId) : Keeps (refreshTemporal id) n :=
  keeps_read fun _ _ => keeps_read fun _ _ => keeps_setSupport _ _

/-! ## Taking constraints away -/

theorem keeps_replacementDurations (ids : List EpisodeId) :
    Keeps (replacementDurations ids) n := by
  induction ids generalizing n with
  | nil => exact keeps_pure []
  | cons id rest ih =>
    exact keeps_read fun _ _ => (keeps_addDuration _ _ _).bind fun _ _ _ =>
      ih.bind fun _ _ _ => keeps_pure _

theorem wellFormed_strike {r : TemporalId} {renewals : List (EpisodeId × TemporalId)}
    (whole : n.WellFormed) (whole' : k.WellFormed)
    (renews : Renews (episodesLasting n r) renewals n k) : (strike r renewals k).WellFormed := by
  obtain ⟨episodes, frame, size⟩ := strike_frame r renewals k
  -- what an episode is now is known from what it was
  have old {id : EpisodeId} {e' : Episode} (found : (strike r renewals k).episode id = .ok e') :
      ∃ e, n.episode id = .ok e := by
    apply exists_episode
    have inside := lookup_index_lt found
    rwa [frame, size, renews.episodes] at inside
  have kept {id : EpisodeId} {e : Episode} (found : n.episode id = .ok e) : k.Fits id e := by
    apply whole'.episode
    rwa [Network.episode, renews.episodes]
  refine whole'.of_episodes (by rw [frame]) (by rw [frame]) (by rw [frame]) (by rw [frame])
    (by rw [frame]) (by rw [frame, size]) (fun {id e'} found => ?_)
    fun {a b e' f'} first second shared => ?_
  · obtain ⟨e, there⟩ := old found
    have fits := kept there
    have fewer : ∀ c ∈ (e.constraints.erase r).toList, c.index < k.temporals.size :=
      fun c member => fits.constraints c (OrdSet.mem_erase_iff.mp member).1
    rcases episode_strike renews there with ⟨_, last⟩ | ⟨_, d, member, last⟩
    · obtain rfl := Except.ok.inj (last.symm.trans found)
      exact ⟨fits.start, fits.finish, fits.duration, fewer, fits.states, fits.quantities,
        fits.children, fits.choice⟩
    · obtain rfl := Except.ok.inj (last.symm.trans found)
      obtain ⟨_, e', there', ⟨c, renewed, start, finish, _⟩, _⟩ := renews.fresh _ member
      obtain rfl := Except.ok.inj (there.symm.trans there')
      exact ⟨fits.start, fits.finish, ⟨c, renewed, start, finish⟩, fewer, fits.states,
        fits.quantities, fits.children, fits.choice⟩
  · obtain ⟨e, here⟩ := old first
    obtain ⟨f, there⟩ := old second
    rcases episode_strike renews here with ⟨_, last⟩ | ⟨_, d, member, last⟩ <;>
      rcases episode_strike renews there with ⟨_, last'⟩ | ⟨_, d', member', last'⟩ <;>
      obtain rfl := Except.ok.inj (last.symm.trans first) <;>
      obtain rfl := Except.ok.inj (last'.symm.trans second)
    · exact whole.apart here there shared
    · have older := whole.duration_lt here
      have newer : n.temporals.size ≤ d'.index := (renews.fresh _ member').1
      have same : e.duration = d' := shared
      exact absurd newer (by rw [← same]; omega)
    · have older := whole.duration_lt there
      have newer : n.temporals.size ≤ d.index := (renews.fresh _ member).1
      have same : d = f.duration := shared
      exact absurd newer (by rw [same]; omega)
    · exact congrArg Prod.fst (List.inj_on_of_nodup_map renews.apart member member' shared)

theorem keeps_detachTemporal (id : TemporalId) : Keeps (detachTemporal id) n := by
  intro whole
  refine keeps_read (fun lasting listed => ?_) whole
  obtain rfl := Except.ok.inj listed
  exact (keeps_replacementDurations _).bind fun renewals k made whole' =>
    wellFormed_strike whole whole' (renews_of_eq_ok made)

end Edit

end PlanNetwork
