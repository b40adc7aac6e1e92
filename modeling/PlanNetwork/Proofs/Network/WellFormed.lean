/-
# Well-formed networks

A handle is a position, and nothing about it says that there is an element
behind it. In a well-formed network there always is: whatever an element refers
to is there, an episode is newer than those inside it, its duration is its own
and lies between its events, and a branching starts where its choice is made. No
choice has a value twice.

What there is does not go away when a network gets more elements, nor when
guards are written or constraints get other bounds. An element that fits into a
network therefore fits into those that it turns into, and only what is new has
to be looked at.
-/

import PlanNetwork.Proofs.Network.Retention

namespace PlanNetwork

variable {n m k : Network} {brought : Support → Prop}

/-- What an episode says about state variables. -/
def Episode.assignments (e : Episode) : List Assignment :=
  [e.startConditions, e.finishConditions, e.startEffects, e.finishEffects]

namespace Network

/-- All that an episode with the handle refers to is there, and is as it should
be. -/
structure Fits (n : Network) (id : EpisodeId) (e : Episode) : Prop where
  /-- Its start is there. -/
  start : e.start.index < n.events.size
  /-- Its end is there. -/
  finish : e.finish.index < n.events.size
  /-- Its duration is there, from its start to its end. -/
  duration : ∃ c, n.temporal e.duration = .ok c ∧ c.start = e.start ∧ c.finish = e.finish
  /-- Its constraints are there. -/
  constraints : ∀ c ∈ e.constraints.toList, c.index < n.temporals.size
  /-- Its state constraints are there. -/
  states : ∀ c ∈ e.stateConstraints.toList, c.index < n.states.size
  /-- The variables of its conditions and effects are there. -/
  quantities : ∀ a ∈ e.assignments, ∀ v ∈ a.keys, v.index < n.quantities.size
  /-- The episodes inside it are older. -/
  children : ∀ child ∈ e.composition.episodes, child.index < id.index
  /-- It starts at its choice, which is one. -/
  choice : ∀ c, e.composition.choice? = some c → e.start = c ∧ ∃ data, n.choice c = .ok data

/-- Both events of a constraint are there. -/
def Joins (n : Network) (c : TemporalConstraint) : Prop :=
  c.start.index < n.events.size ∧ c.finish.index < n.events.size

/-- Whatever an element refers to is there. -/
structure WellFormed (n : Network) : Prop where
  /-- No choice has a value twice. -/
  event : ∀ e ∈ n.events, ∀ c, e.choice = some c → c.subject.domain.Nodup
  /-- Episodes fit. -/
  episode : ∀ {id e}, n.episode id = .ok e → n.Fits id e
  /-- No two of them have the same duration. -/
  apart : ∀ {a b e f}, n.episode a = .ok e → n.episode b = .ok f → e.duration = f.duration → a = b
  /-- Temporal constraints are between events that are there. -/
  temporal : ∀ c ∈ n.temporals, n.Joins c
  /-- The variables of state constraints are there. -/
  state : ∀ c ∈ n.states, ∀ v ∈ c.scope, v.index < n.quantities.size
  /-- The members of chance constraints are there. -/
  chance : ∀ c ∈ n.chances, ∀ id ∈ c.constraints, n.checkConstraint id = .ok ()

theorem wellFormed_empty (tolerance : Number) : (Network.empty tolerance).WellFormed := by
  constructor <;> simp [Network.empty, Network.episode, lookup]

/-! ## What stays -/

/-- What was there is still there, and what others rely on is as it was. -/
structure Covers (n m : Network) : Prop where
  /-- No event is gone. -/
  events : n.events.size ≤ m.events.size
  /-- No episode is gone. -/
  episodes : n.episodes.size ≤ m.episodes.size
  /-- No temporal constraint is gone. -/
  temporals : n.temporals.size ≤ m.temporals.size
  /-- No state constraint is gone. -/
  states : n.states.size ≤ m.states.size
  /-- No chance constraint is gone. -/
  chances : n.chances.size ≤ m.chances.size
  /-- No state variable is gone. -/
  quantities : n.quantities.size ≤ m.quantities.size
  /-- Temporal constraints are between the same events. -/
  temporal : ∀ {id c}, n.temporal id = .ok c →
    ∃ c', m.temporal id = .ok c' ∧ c'.start = c.start ∧ c'.finish = c.finish
  /-- Choices are still choices. -/
  choice : ∀ {id data}, n.choice id = .ok data → m.choice id = .ok data

theorem lookup_isOk_iff {kind : ElementKind} {α : Type} {entries : Array α} {id : Handle kind} :
    (lookup entries id).map (fun _ => ()) = .ok () ↔ id.index < entries.size := by
  unfold lookup
  cases there : entries[id.index]? with
  | none => simpa [Except.map] using Array.getElem?_eq_none_iff.mp there
  | some a => simpa [Except.map] using (Array.getElem?_eq_some_iff.mp there).1

namespace Covers

theorem refl (n : Network) : Covers n n :=
  ⟨Nat.le_refl _, Nat.le_refl _, Nat.le_refl _, Nat.le_refl _, Nat.le_refl _, Nat.le_refl _,
    fun {_ c} found => ⟨c, found, rfl, rfl⟩, id⟩

theorem trans (first : Covers n k) (second : Covers k m) : Covers n m := by
  refine ⟨Nat.le_trans first.events second.events, Nat.le_trans first.episodes second.episodes,
    Nat.le_trans first.temporals second.temporals, Nat.le_trans first.states second.states,
    Nat.le_trans first.chances second.chances, Nat.le_trans first.quantities second.quantities,
    fun found => ?_, second.choice ∘ first.choice⟩
  obtain ⟨c', found', start, finish⟩ := first.temporal found
  obtain ⟨c'', found'', start', finish'⟩ := second.temporal found'
  exact ⟨c'', found'', start'.trans start, finish'.trans finish⟩

/-- The temporal constraints and the events are as they were. -/
theorem of_same (events : m.events = n.events) (temporals : m.temporals = n.temporals)
    (episodes : n.episodes.size ≤ m.episodes.size) (states : n.states.size ≤ m.states.size)
    (chances : n.chances.size ≤ m.chances.size)
    (quantities : n.quantities.size ≤ m.quantities.size) : Covers n m := by
  refine ⟨Nat.le_of_eq (by rw [events]), episodes, Nat.le_of_eq (by rw [temporals]), states,
    chances, quantities, fun {_ c} found => ⟨c, ?_, rfl, rfl⟩, fun found => ?_⟩
  · rwa [Network.temporal, temporals]
  · rwa [Network.choice, Network.event, events]

theorem withSerial (n : Network) (later : Nat) : Covers n (n.withSerial later) :=
  of_same rfl rfl (Nat.le_refl _) (Nat.le_refl _) (Nat.le_refl _) (Nat.le_refl _)

/-- Guards and the journal do not matter. -/
theorem of_bare (same : m.bare = n.bare) : Covers n m := by
  have size {α β : Type} {entries entries' : Array α} {strip : α → β}
      (same : entries'.map strip = entries.map strip) : entries.size ≤ entries'.size := by
    simpa using Nat.le_of_eq (congrArg Array.size same).symm
  refine ⟨size (congrArg Network.events same), size (congrArg Network.episodes same),
    size (congrArg Network.temporals same), size (congrArg Network.states same),
    Nat.le_of_eq (congrArg (·.chances.size) same).symm,
    Nat.le_of_eq (congrArg (·.quantities.size) same).symm, fun found => ?_, fun found => ?_⟩
  · obtain ⟨g, found'⟩ := temporal_of_bare same found
    exact ⟨_, found', rfl, rfl⟩
  · obtain ⟨e, there, carried⟩ := choice_eq_ok_iff.mp found
    obtain ⟨g, there'⟩ := event_of_bare same there
    exact choice_eq_ok_iff.mpr ⟨_, there', carried⟩

theorem pushEvent (n : Network) (e : Event) : Covers n { n with events := n.events.push e } := by
  refine ⟨by simp, Nat.le_refl _, Nat.le_refl _, Nat.le_refl _, Nat.le_refl _, Nat.le_refl _,
    fun {_ c} found => ⟨c, found, rfl, rfl⟩, fun found => ?_⟩
  obtain ⟨e, there, carried⟩ := choice_eq_ok_iff.mp found
  exact choice_eq_ok_iff.mpr ⟨e, lookup_push there, carried⟩

theorem pushTemporal (n : Network) (c : TemporalConstraint) :
    Covers n { n with temporals := n.temporals.push c } :=
  ⟨Nat.le_refl _, Nat.le_refl _, by simp, Nat.le_refl _, Nat.le_refl _, Nat.le_refl _,
    fun {_ c} found => ⟨c, lookup_push found, rfl, rfl⟩, id⟩

theorem change (change : Change brought n m) : Covers n m := by
  cases change with
  | count later => exact .withSerial n _
  | event e _ => exact .pushEvent n e
  | temporal c _ _ => exact .pushTemporal n c
  | note found => exact .of_bare bare_note
  | guard found _ => exact .of_bare (bare_setGuard.trans bare_note)
  | _ => apply of_same <;> first | rfl | simp

/-- Operations that make elements and write guards take nothing away. -/
theorem trail (trail : Trail brought n m) : Covers n m := by
  induction trail with
  | refl => exact .refl n
  | tail _ change ih => exact ih.trans (.change change)

theorem joins (h : Covers n m) {c : TemporalConstraint} (joins : n.Joins c) : m.Joins c :=
  ⟨Nat.lt_of_lt_of_le joins.1 h.events, Nat.lt_of_lt_of_le joins.2 h.events⟩

theorem checkConstraint (h : Covers n m) {id : ConstraintId}
    (there : n.checkConstraint id = .ok ()) : m.checkConstraint id = .ok () := by
  cases id with
  | temporal id =>
    exact lookup_isOk_iff.mpr (Nat.lt_of_lt_of_le (lookup_isOk_iff.mp there) h.temporals)
  | state id => exact lookup_isOk_iff.mpr (Nat.lt_of_lt_of_le (lookup_isOk_iff.mp there) h.states)
  | chance id => exact lookup_isOk_iff.mpr (Nat.lt_of_lt_of_le (lookup_isOk_iff.mp there) h.chances)

end Covers

theorem Fits.mono {id : EpisodeId} {e : Episode} (h : n.Fits id e) (covers : Covers n m) :
    m.Fits id e := by
  refine ⟨Nat.lt_of_lt_of_le h.start covers.events, Nat.lt_of_lt_of_le h.finish covers.events, ?_,
    fun c member => Nat.lt_of_lt_of_le (h.constraints c member) covers.temporals,
    fun c member => Nat.lt_of_lt_of_le (h.states c member) covers.states,
    fun a inside v member => Nat.lt_of_lt_of_le (h.quantities a inside v member) covers.quantities,
    h.children, fun c selects => ?_⟩
  · obtain ⟨c, found, start, finish⟩ := h.duration
    obtain ⟨c', found', start', finish'⟩ := covers.temporal found
    exact ⟨c', found', start'.trans start, finish'.trans finish⟩
  · obtain ⟨here, data, found⟩ := h.choice c selects
    exact ⟨here, data, covers.choice found⟩

/-- When an episode exists does not matter. -/
theorem Fits.reguard {id : EpisodeId} {e : Episode} {g : Guard}
    (h : n.Fits id { e with guard := g }) : n.Fits id e :=
  ⟨h.start, h.finish, h.duration, h.constraints, h.states, h.quantities, h.children, h.choice⟩

namespace WellFormed

theorem duration_lt (h : n.WellFormed) {id : EpisodeId} {e : Episode}
    (found : n.episode id = .ok e) : e.duration.index < n.temporals.size := by
  obtain ⟨c, there, _⟩ := (h.episode found).duration
  exact lookup_index_lt there

theorem nodup_domain (h : n.WellFormed) {id : EventId} {data : Choice}
    (found : n.choice id = .ok data) : data.subject.domain.Nodup := by
  obtain ⟨e, there, carried⟩ := choice_eq_ok_iff.mp found
  exact h.event e (Array.mem_of_getElem? (lookup_eq_ok_iff.mp there)) data carried

/-- If the episodes are as they were and nothing else is gone, only new elements
of the other kinds have to be looked at. -/
theorem of_covers (h : n.WellFormed) (covers : Covers n m)
    (events : ∀ e ∈ m.events, (∃ e' ∈ n.events, e'.choice = e.choice) ∨
      ∀ c, e.choice = some c → c.subject.domain.Nodup)
    (episodes : ∀ {id e}, m.episode id = .ok e → ∃ g, n.episode id = .ok { e with guard := g })
    (temporals : ∀ c ∈ m.temporals,
      (∃ c' ∈ n.temporals, c'.start = c.start ∧ c'.finish = c.finish) ∨ m.Joins c)
    (states : ∀ c ∈ m.states,
      (∃ c' ∈ n.states, c'.scope = c.scope) ∨ ∀ v ∈ c.scope, v.index < m.quantities.size)
    (chances : ∀ c ∈ m.chances,
      c ∈ n.chances ∨ ∀ id ∈ c.constraints, m.checkConstraint id = .ok ()) : m.WellFormed := by
  refine ⟨fun e member => ?_, fun found => ?_, fun first second same => ?_, fun c member => ?_,
    fun c member => ?_, fun c member => ?_⟩
  · rcases events e member with ⟨e', old, same⟩ | new
    · exact same ▸ h.event e' old
    · exact new
  · obtain ⟨g, there⟩ := episodes found
    exact ((h.episode there).mono covers).reguard
  · obtain ⟨_, there⟩ := episodes first
    obtain ⟨_, there'⟩ := episodes second
    exact h.apart there there' same
  · rcases temporals c member with ⟨c', old, start, finish⟩ | new
    · rw [Joins, ← start, ← finish]
      exact covers.joins (h.temporal c' old)
    · exact new
  · rcases states c member with ⟨c', old, same⟩ | new
    · intro v inside
      exact Nat.lt_of_lt_of_le (h.state c' old v (same ▸ inside)) covers.quantities
    · exact new
  · rcases chances c member with old | new
    · exact fun id inside => covers.checkConstraint (h.chance c old id inside)
    · exact new

theorem withSerial (h : n.WellFormed) (later : Nat) : (n.withSerial later).WellFormed :=
  h.of_covers (.withSerial n later) (fun e member => .inl ⟨e, member, rfl⟩) (fun {_ e} found => ⟨e.guard, found⟩)
    (fun c member => .inl ⟨c, member, rfl, rfl⟩) (fun c member => .inl ⟨c, member, rfl⟩)
    fun _ => .inl

/-- Guards and the journal do not matter. -/
theorem of_bare (h : n.WellFormed) (same : m.bare = n.bare) : m.WellFormed := by
  have old {α β : Type} {entries entries' : Array α} {strip : α → β}
      (same : entries'.map strip = entries.map strip) {a : α} (member : a ∈ entries') :
      ∃ b ∈ entries, strip b = strip a :=
    Array.mem_map.mp (same ▸ Array.mem_map.mpr ⟨a, member, rfl⟩)
  refine h.of_covers (.of_bare same) (fun e member => .inl ?_) (episode_of_bare same.symm)
    (fun c member => .inl ?_) (fun c member => .inl ?_) fun c member => .inl ?_
  · obtain ⟨e', there, stripped⟩ := old (congrArg Network.events same) member
    have choice := congrArg Event.choice stripped
    exact ⟨e', there, choice⟩
  · obtain ⟨c', there, stripped⟩ := old (congrArg Network.temporals same) member
    have start := congrArg TemporalConstraint.start stripped
    have finish := congrArg TemporalConstraint.finish stripped
    exact ⟨c', there, start, finish⟩
  · obtain ⟨c', there, stripped⟩ := old (congrArg Network.states same) member
    have scope := congrArg StateConstraint.scope stripped
    exact ⟨c', there, scope⟩
  · exact (congrArg Network.chances same) ▸ member

theorem pushEvent (h : n.WellFormed) {e : Event}
    (distinct : ∀ c, e.choice = some c → c.subject.domain.Nodup) :
    ({ n with events := n.events.push e } : Network).WellFormed :=
  h.of_covers (.pushEvent n e)
    (forall_mem_push (fun e member => .inl ⟨e, member, rfl⟩) (.inr distinct)) (fun {_ e} found => ⟨e.guard, found⟩)
    (fun c member => .inl ⟨c, member, rfl, rfl⟩) (fun c member => .inl ⟨c, member, rfl⟩)
    fun _ => .inl

theorem pushTemporal (h : n.WellFormed) {c : TemporalConstraint} (joins : n.Joins c) :
    ({ n with temporals := n.temporals.push c } : Network).WellFormed := by
  refine h.of_covers (.pushTemporal n c) (fun e member => .inl ⟨e, member, rfl⟩) (fun {_ e} found => ⟨e.guard, found⟩)
    (forall_mem_push (fun c member => .inl ⟨c, member, rfl, rfl⟩) (.inr joins))
    (fun c member => .inl ⟨c, member, rfl⟩) fun _ => .inl

theorem pushState (h : n.WellFormed) {c : StateConstraint}
    (there : ∀ v ∈ c.scope, v.index < n.quantities.size) :
    ({ n with states := n.states.push c } : Network).WellFormed := by
  refine h.of_covers ?_ (fun e member => .inl ⟨e, member, rfl⟩) (fun {_ e} found => ⟨e.guard, found⟩)
    (fun c member => .inl ⟨c, member, rfl, rfl⟩)
    (forall_mem_push (fun c member => .inl ⟨c, member, rfl⟩) (.inr there)) fun _ => .inl
  apply Covers.of_same <;> first | rfl | simp

theorem pushChance (h : n.WellFormed) {c : ChanceConstraint}
    (there : ∀ id ∈ c.constraints, n.checkConstraint id = .ok ()) :
    ({ n with chances := n.chances.push c } : Network).WellFormed := by
  have covers : Covers n { n with chances := n.chances.push c } := by
    apply Covers.of_same <;> first | rfl | simp
  exact h.of_covers covers (fun e member => .inl ⟨e, member, rfl⟩) (fun {_ e} found => ⟨e.guard, found⟩)
    (fun c member => .inl ⟨c, member, rfl, rfl⟩) (fun c member => .inl ⟨c, member, rfl⟩)
    (forall_mem_push (fun _ => .inl)
      (.inr fun id member => covers.checkConstraint (there id member)))

theorem pushQuantity (h : n.WellFormed) (v : StateVariable) :
    ({ n with quantities := n.quantities.push v } : Network).WellFormed := by
  refine h.of_covers ?_ (fun e member => .inl ⟨e, member, rfl⟩) (fun {_ e} found => ⟨e.guard, found⟩)
    (fun c member => .inl ⟨c, member, rfl, rfl⟩) (fun c member => .inl ⟨c, member, rfl⟩)
    fun _ => .inl
  apply Covers.of_same <;> first | rfl | simp

theorem pushEpisode (h : n.WellFormed) {e : Episode} (fits : n.Fits ⟨n.episodes.size⟩ e)
    (new : ∀ {id f}, n.episode id = .ok f → f.duration ≠ e.duration) :
    ({ n with episodes := n.episodes.push e } : Network).WellFormed := by
  have covers : Covers n { n with episodes := n.episodes.push e } := by
    apply Covers.of_same <;> first | rfl | simp
  -- an episode is an old one, or it is the one behind them
  have split {id : EpisodeId} {f : Episode}
      (found : lookup (n.episodes.push e) id = .ok f) :
      n.episode id = .ok f ∨ id = ⟨n.episodes.size⟩ ∧ f = e := by
    rw [lookup_eq_ok_iff, Array.getElem?_push] at found
    split at found
    next last => exact .inr ⟨congrArg Handle.mk last, (Option.some.inj found).symm⟩
    next => exact .inl (lookup_eq_ok_iff.mpr found)
  refine ⟨h.event, fun found => ?_, fun {a b _ _} first second same => ?_,
    fun c member => covers.joins (h.temporal c member), h.state,
    fun c member id inside => covers.checkConstraint (h.chance c member id inside)⟩
  · rcases split found with old | ⟨rfl, rfl⟩
    · exact (h.episode old).mono covers
    · exact fits.mono covers
  · rcases split first with old | ⟨rfl, rfl⟩ <;> rcases split second with old' | ⟨rfl, rfl⟩
    · exact h.apart old old' same
    · exact absurd same (new old)
    · exact absurd same.symm (new old')
    · rfl

/-- If nothing but episodes has changed, and temporal constraints that are new,
the episodes have to be looked at. -/
theorem of_episodes (h : n.WellFormed) (events : m.events = n.events)
    (temporals : m.temporals = n.temporals) (states : m.states = n.states)
    (chances : m.chances = n.chances) (quantities : m.quantities = n.quantities)
    (size : m.episodes.size = n.episodes.size)
    (fits : ∀ {id e}, m.episode id = .ok e → n.Fits id e)
    (apart : ∀ {a b e f}, m.episode a = .ok e → m.episode b = .ok f → e.duration = f.duration →
      a = b) : m.WellFormed := by
  have covers : Covers n m := .of_same events temporals (Nat.le_of_eq size.symm)
    (Nat.le_of_eq (by rw [states])) (Nat.le_of_eq (by rw [chances]))
    (Nat.le_of_eq (by rw [quantities]))
  refine ⟨?_, fun found => (fits found).mono covers, apart, ?_, ?_, ?_⟩
  · rw [events]
    exact h.event
  · rw [temporals]
    exact fun c member => covers.joins (h.temporal c member)
  · rw [states, quantities]
    exact h.state
  · rw [chances]
    exact fun c member id inside => covers.checkConstraint (h.chance c member id inside)

end WellFormed

end Network

end PlanNetwork
