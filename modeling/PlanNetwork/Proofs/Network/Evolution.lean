/-
# Changes that guards take no notice of

An episode can get another duration and more constraints, and a constraint other
bounds. No guard changes with them, and they are not noted in the journal, so
none of them can be undone. Where one stands in an operation that takes effect
as a whole, nothing after it can be refused.

An evolution of a network is made of these and of the elementary changes. Constraints
stay valid as it goes on, for only the executive's get other bounds.
-/

import PlanNetwork.Proofs.Network.Operations

namespace PlanNetwork

variable {brought : Support → Prop} {n m : Network}

namespace Network

/-- The bounds of all temporal constraints are in order. -/
def Ordered (n : Network) : Prop := ∀ c ∈ n.temporals, c.bounds.Ordered

theorem Valid.ordered (h : n.Valid) : n.Ordered := fun c member => (h.temporal c member).ordered

/-- The constraint is for the executive to meet. -/
def Controllable (n : Network) (id : TemporalId) : Prop :=
  ∃ c, n.temporal id = .ok c ∧ c.bounds.kind = .controllable

theorem Controllable.kind {id : TemporalId} {c : TemporalConstraint} (h : n.Controllable id)
    (found : n.temporal id = .ok c) : c.bounds.kind = .controllable := by
  obtain ⟨c', found', kind⟩ := h
  rwa [Except.ok.inj (found.symm.trans found')]

/-- Networks with the same guards and the same journal. -/
structure Alike (n m : Network) : Prop where
  /-- Every element has the guard that it had. -/
  guards : ∀ element, m.guard element = n.guard element
  /-- The journal has not been written. -/
  journal : m.journal = n.journal
  /-- Constraints that were valid still are. -/
  valid : n.Valid → m.Valid

/-- Elementary changes, and changes that guards take no notice of. -/
abbrev Evolution (brought : Support → Prop) : Network → Network → Prop :=
  Relation.ReflTransGen fun n m => Change brought n m ∨ Alike n m

theorem Trail.evolution (trail : Trail brought n m) : Evolution brought n m :=
  Relation.ReflTransGen.mono (fun _ _ => .inl) _ _ trail

theorem Alike.evolution (alike : Alike n m) : Evolution brought n m := .single (.inr alike)

theorem Alike.commit (alike : Alike n m) : Alike n.commit m.commit :=
  ⟨fun element => by rw [guard_commit, guard_commit, alike.guards], rfl,
    fun valid => (alike.valid (valid.withJournal n.journal)).withJournal none⟩

theorem Evolution.commit (h : Evolution brought n m) : Evolution brought n.commit m.commit :=
  Relation.ReflTransGen.lift Network.commit
    (fun _ _ step => step.imp Change.commit Alike.commit) _ _ h

/-- The journal is only written while there is one. -/
theorem Evolution.journal_eq_none (h : Evolution brought n m) (idle : n.journal = none) :
    m.journal = none := by
  induction h with
  | refl => exact idle
  | tail _ step ih =>
    rcases step with change | alike
    · exact Trail.journal_eq_none (.single change) ih
    · exact alike.journal.trans ih

theorem forall_mem_push {α : Type} {entries : Array α} {a : α} {P : α → Prop}
    (old : ∀ x ∈ entries, P x) (new : P a) : ∀ x ∈ entries.push a, P x := by
  intro x member
  rcases Array.mem_push.mp member with there | rfl
  · exact old x there
  · exact new

/-- An entry that is replaced is as good as the one before it. -/
theorem forall_mem_modify {α : Type} {entries : Array α} {i : Nat} {change : α → α} {P : α → Prop}
    (all : ∀ a ∈ entries, P a) (keeps : ∀ a, entries[i]? = some a → P a → P (change a)) :
    ∀ a ∈ entries.modify i change, P a := by
  intro a member
  obtain ⟨j, within, rfl⟩ := Array.mem_iff_getElem.mp member
  rw [Array.getElem_modify]
  rw [Array.size_modify] at within
  have old := all _ (Array.getElem_mem within)
  split
  next same => exact keeps _ (same ▸ Array.getElem?_eq_getElem within) old
  next => exact old

theorem Valid.setGuard {element : Guarded} {g : Guard} (h : n.Valid) :
    (n.setGuard element g).Valid := by
  have states : ∀ c ∈ n.states, c.Valid (n.setGuard element g) := by
    cases element <;> exact fun c member => (h.state c member).mono id rfl rfl
  cases element with
  | event | episode => exact ⟨h.temporal, states, h.chance⟩
  | temporal id =>
    have kept : ∀ c : TemporalConstraint, n.temporals[id.index]? = some c → c.bounds.Valid →
        { c with guard := g }.bounds.Valid := fun _ _ valid => valid
    exact ⟨forall_mem_modify h.temporal kept, states, h.chance⟩
  | state id =>
    have kept : ∀ c : StateConstraint, n.states[id.index]? = some c →
        c.Valid (n.setGuard (.state id) g) →
        StateConstraint.Valid (n.setGuard (.state id) g) { c with guard := g } :=
      fun _ _ valid => valid.mono (fun found => found) rfl rfl
    exact ⟨h.temporal, forall_mem_modify states kept, h.chance⟩

theorem temporals_note {element : Guarded} {g : Guard} :
    (n.note element g).temporals = n.temporals := by
  unfold Network.note
  cases n.journal with
  | none => rfl
  | some j => dsimp only; split <;> rfl

theorem Valid.note {element : Guarded} {g : Guard} (h : n.Valid) : (n.note element g).Valid := by
  unfold Network.note
  cases n.journal with
  | none => exact h
  | some j =>
    dsimp only
    split
    · exact h.withJournal _
    · exact h

/-- An elementary change keeps constraints valid. -/
theorem Valid.change (h : n.Valid) (change : Change brought n m) : m.Valid := by
  have states {m : Network} (keeps : ∀ {id v}, n.quantity id = .ok v → m.quantity id = .ok v) :
      ∀ c ∈ n.states, c.Valid m := fun c member => (h.state c member).mono keeps rfl rfl
  cases change with
  | count | event | episode => exact ⟨h.temporal, states id, h.chance⟩
  | temporal c _ valid =>
    have all := forall_mem_push (P := fun c : TemporalConstraint => c.bounds.Valid) h.temporal valid
    exact ⟨all, states id, h.chance⟩
  | state c _ valid =>
    exact ⟨h.temporal, forall_mem_push (states id) (valid.mono id rfl rfl), h.chance⟩
  | chance c valid => exact ⟨h.temporal, states id, forall_mem_push h.chance valid⟩
  | quantity v => exact ⟨h.temporal, states lookup_push, h.chance⟩
  | note => exact h.note
  | guard => exact h.note.setGuard

theorem Valid.evolution (h : n.Valid) (evolution : Evolution brought n m) : m.Valid := by
  induction evolution with
  | refl => exact h
  | tail _ step ih =>
    rcases step with change | alike
    · exact ih.change change
    · exact alike.valid ih

/-! ## Replacing elements -/

theorem lookup_modify_map {kind : ElementKind} {α β : Type} {entries : Array α} {i : Nat}
    {id : Handle kind} {change : α → α} {view : α → β} (keeps : ∀ a, view (change a) = view a) :
    (lookup (entries.modify i change) id).map view = (lookup entries id).map view := by
  unfold lookup
  rw [Array.getElem?_modify]
  by_cases here : i = id.index
  · rw [if_pos here]
    cases entries[id.index]? <;> simp [Except.map, keeps]
  · rw [if_neg here]

theorem lookup_map_map {kind : ElementKind} {α β : Type} {entries : Array α}
    {id : Handle kind} {change : α → α} {view : α → β} (keeps : ∀ a, view (change a) = view a) :
    (lookup (entries.map change) id).map view = (lookup entries id).map view := by
  unfold lookup
  rw [Array.getElem?_map]
  cases entries[id.index]? <;> simp [Except.map, keeps]

theorem alike_modifyEpisode {id : EpisodeId} {change : Episode → Episode}
    (keeps : ∀ e, (change e).guard = e.guard) : Alike n (n.modifyEpisode id change) := by
  refine ⟨fun element => ?_, rfl, fun valid => ⟨valid.temporal, fun c member => ?_, valid.chance⟩⟩
  · cases element with
    | episode id => exact lookup_modify_map keeps
    | _ => rfl
  · exact (valid.state c member).mono (fun found => found) rfl rfl

theorem alike_modifyTemporal {id : TemporalId} {change : TemporalConstraint → TemporalConstraint}
    (keeps : ∀ c, (change c).guard = c.guard)
    (bounds : ∀ c, n.temporal id = .ok c → c.bounds.Valid → (change c).bounds.Valid) :
    Alike n (n.modifyTemporal id change) := by
  refine ⟨fun element => ?_, rfl, fun valid => ⟨?_, fun c member => ?_, valid.chance⟩⟩
  · cases element with
    | temporal id => exact lookup_modify_map keeps
    | _ => rfl
  · exact forall_mem_modify valid.temporal fun c found => bounds c (lookup_eq_ok_iff.mpr found)
  · exact (valid.state c member).mono (fun found => found) rfl rfl

/-- A constraint that changes stays the executive's to meet. -/
theorem Controllable.modifyTemporal {id other : TemporalId}
    {change : TemporalConstraint → TemporalConstraint} (h : n.Controllable other)
    (keeps : ∀ c, (change c).bounds.kind = c.bounds.kind) :
    (n.modifyTemporal id change).Controllable other := by
  obtain ⟨c, found, kind⟩ := h
  have same : ((n.modifyTemporal id change).temporal other).map (·.bounds.kind) =
      (n.temporal other).map (·.bounds.kind) := lookup_modify_map keeps
  rw [found] at same
  obtain ⟨c', found', kinds⟩ := map_eq_ok_iff.mp same
  exact ⟨c', found', kinds.trans kind⟩

theorem alike_mapEpisodes {change : Episode → Episode}
    (keeps : ∀ e, (change e).guard = e.guard) :
    Alike n { n with episodes := n.episodes.map change } := by
  refine ⟨fun element => ?_, rfl, fun valid => ⟨valid.temporal, fun c member => ?_, valid.chance⟩⟩
  · cases element with
    | episode id => exact lookup_map_map keeps
    | _ => rfl
  · exact (valid.state c member).mono id rfl rfl

theorem Alike.refl (n : Network) : Alike n n := ⟨fun _ => rfl, rfl, id⟩

theorem Alike.trans {k : Network} (first : Alike n m) (second : Alike m k) : Alike n k :=
  ⟨fun element => (second.guards element).trans (first.guards element),
    second.journal.trans first.journal, second.valid ∘ first.valid⟩

/-- Replacing entries one after the other. -/
theorem alike_foldl {β : Type} {step : Network → β → Network} (each : ∀ n b, Alike n (step n b))
    (items : List β) : Alike n (items.foldl step n) := by
  induction items generalizing n with
  | nil => exact .refl n
  | cons item rest ih => exact (each n item).trans ih

end Network

open Network

namespace Edit

variable {α β : Type}

/-- Whatever the outcome, the network evolves. -/
def Evolves (brought : Support → Prop) (op : Edit α) (n : Network) : Prop :=
  Evolution brought n (op.after n)

theorem Follows.evolves {op : Edit α} (h : Follows brought op n) : Evolves brought op n :=
  h.evolution

theorem Evolves.bind {op : Edit α} {next : α → Edit β} (first : Evolves brought op n)
    (rest : ∀ a m, op n = .ok a m → Evolves brought (next a) m) :
    Evolves brought (op >>= next) n :=
  Attempt.after_bind (R := Evolution brought) Relation.ReflTransGen.trans first rest

theorem evolves_modify {change : Network → Network} (alike : Alike n (change n)) :
    Evolves brought (modify change) n :=
  alike.evolution

theorem evolves_read {view : Network → Except Fault α} {next : α → Edit β}
    (rest : ∀ a, view n = .ok a → Evolves brought (next a) n) :
    Evolves brought (Attempt.read view >>= next) n := by
  refine Evolves.bind (Follows.of_unchanged (Attempt.after_read view)).evolves fun a m result => ?_
  obtain ⟨value, rfl⟩ := Attempt.read_eq_ok_iff.mp result
  exact rest a value

theorem evolves_setDuration (id : EpisodeId) (spec : DurationSpec) :
    Evolves brought (setDuration id spec) n := by
  refine evolves_read fun episode _ => ?_
  refine (follows_addDuration ..).evolves.bind fun duration m _ => ?_
  refine Evolves.bind (evolves_modify ?_) fun _ _ _ => (follows_pure _).evolves
  exact alike_modifyEpisode fun _ => rfl

theorem evolves_attachTemporal (id : EpisodeId) (constraint : TemporalId) :
    Evolves brought (attachTemporal id constraint) n :=
  evolves_read fun _ _ => evolves_read fun _ _ =>
    evolves_modify (alike_modifyEpisode fun _ => rfl)

theorem withState_guard (span : Span) (constraint : StateConstraintId) (e : Episode) :
    (withState span constraint e).guard = e.guard := by
  cases span <;> rfl

theorem evolves_attachState (span : Span) (id : EpisodeId) (constraint : StateConstraintId) :
    Evolves brought (attachState span id constraint) n := by
  refine evolves_read fun _ _ => evolves_read fun _ _ => evolves_modify ?_
  have here : Alike n (n.modifyEpisode id (withState span constraint)) :=
    alike_modifyEpisode (withState_guard span constraint)
  have inside : Alike (n.modifyEpisode id (withState span constraint))
      (attachOverall constraint (n.modifyEpisode id (withState span constraint))
        (n.unfolding id).tail) :=
    alike_foldl (fun _ _ => alike_modifyEpisode (withState_guard .overall constraint)) _
  cases span with
  | start | finish => exact here
  | during | overall => exact here.trans inside

theorem evolves_setBounds {id : TemporalId} (kind : n.Controllable id) (lower upper : Number) :
    Evolves brought (setBounds id lower upper) n :=
  evolves_read fun _ _ => evolves_read fun _ checked =>
    evolves_modify (alike_modifyTemporal (fun _ => rfl) fun _ found valid =>
      valid.rebound (kind.kind found) (checkBounds_eq_ok_iff.mp checked))

theorem evolves_detachTemporal (id : TemporalId) :
    Evolves brought (detachTemporal id) n := by
  refine evolves_read fun lasting _ => ?_
  refine (follows_replacementDurations lasting).evolves.bind fun replacements m _ => ?_
  refine Evolves.bind (evolves_modify ?_) fun _ _ _ => evolves_modify ?_
  · exact alike_mapEpisodes fun _ => rfl
  · refine alike_foldl (fun _ _ => ?_) replacements
    exact alike_modifyEpisode fun _ => rfl

/-- Taking a constraint away can only be refused before any episode is changed. -/
theorem trail_of_detachTemporal_eq_error {id : TemporalId} {fault : Fault}
    (refused : detachTemporal id n = .error fault m) : Trail brought n m := by
  rcases Attempt.bind_eq_error_iff.mp refused with read | ⟨lasting, _, read, rest⟩
  · obtain ⟨_, rfl⟩ := Attempt.read_eq_error_iff.mp read
    exact .refl
  obtain ⟨_, rfl⟩ := Attempt.read_eq_ok_iff.mp read
  rcases Attempt.bind_eq_error_iff.mp rest with failed | ⟨_, _, _, changed⟩
  · exact (follows_replacementDurations lasting).of_error failed
  · rcases Attempt.bind_eq_error_iff.mp changed with ⟨⟨⟩⟩ | ⟨_, _, _, ⟨⟨⟩⟩⟩

end Edit

end PlanNetwork
