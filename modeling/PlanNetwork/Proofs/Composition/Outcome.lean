/-
# What comes of a composition

If no events are given, then what a composition does to the occurrence of elements
depends on little. An old element goes on to occur where the composition lets it:
in a sequence where all episodes before the one that it is inside end, in a branching
where the choice takes the value of its branch. The new end occurs where the
composition is got through: all episodes of a sequence or of a parallel composition
end, and a branching selects none of the branches that end the execution if there are
others. The ends of its branches do not matter to the end of a branching.
-/

import Mathlib.Data.List.Pairwise
import PlanNetwork.Proofs.Composition.Made
import PlanNetwork.Proofs.Composition.Survival
import PlanNetwork.Proofs.Program.Recursion

namespace PlanNetwork

open Network

variable {V : Vocabulary} {v : Valuation V} {n m k : Network} {x : Guarded} {id : EpisodeId}
  {e : Episode} {start finish : EventId} {composition : Composition} {terminal : Bool}

namespace Network

/-- The valuation selects the episode among those of a branching. -/
def Picks (n : Network) (v : Valuation V) (choice : EventId) (ids : List EpisodeId)
    (id : EpisodeId) : Prop :=
  ∃ data, n.choice choice = .ok data ∧
    (v.value data.subject.key, id) ∈ data.subject.domain.zip ids

/-- If the execution goes on after some of the episodes, it does after the one that is
selected. -/
def Continues (n : Network) (v : Valuation V) (choice : EventId) (ids : List EpisodeId) : Prop :=
  (∃ id ∈ ids, n.isTerminal id = false) → ∀ id, n.Picks v choice ids id → n.isTerminal id = false

/-- A composition is got through if the episodes inside that have to be are. -/
def Through (n : Network) (v : Valuation V) (inside : EpisodeId → Prop) : Composition → Prop
  | .primitive => True
  | .sequence ids | .parallel ids => ∀ id ∈ ids, inside id
  | .branching choice ids => n.Continues v choice ids

/-- What is inside some of the episodes goes on to occur when they are composed. -/
def Lets (n : Network) (v : Valuation V) (some : EpisodeId → Prop) : Composition → Prop
  | .primitive | .parallel _ => True
  | .sequence ids => ids.Pairwise fun other id => some id → n.Ends v other
  | .branching choice ids => ∀ data, n.choice choice = .ok data →
    ∀ entry ∈ data.subject.domain.zip ids, some entry.2 → v.value data.subject.key = entry.1

/-- An event at an end of a composition is that of an episode inside, or it is new. -/
def Inherits (n m : Network) (composition : Composition) (endpoint : Episode → EventId)
    (event : EventId) : Prop :=
  (∃ child ∈ composition.episodes, ∃ f, n.episode child = .ok f ∧ event = endpoint f) ∨
    ¬ n.Has (.event event) ∧ m.NoChoice event

/-- A branching has an episode for each value, and unless it ends the execution it has
one that does not. -/
def HasBranches (n : Network) (composition : Composition) (terminal : Bool) : Prop :=
  ∀ choice ids, composition = .branching choice ids →
    (∃ data, n.choice choice = .ok data ∧ data.subject.arity = ids.length) ∧
      (terminal = false → ∃ id ∈ ids, n.isTerminal id = false)

/-- What has become of a network when episodes have been composed between two events. -/
structure Outcome (n m : Network) (v : Valuation V) (start finish : EventId)
    (composition : Composition) (terminal : Bool) : Prop where
  /-- What was there is there. -/
  grows : Grows (fun _ => True) n m
  /-- The start is that of an episode inside, or new, or the choice. -/
  opening : n.Inherits m composition Episode.start start ∨ composition.choice? = some start
  /-- The end is that of an episode inside, or new. -/
  closing : n.Inherits m composition Episode.finish finish
  /-- The end is there. -/
  there : m.Has (.event finish)
  /-- Old elements occur where they did and the composition lets them. -/
  kept : ∀ {x}, n.Has x → (m.Occurs v x ↔ n.Occurs v x ∧ n.Lets v (x ∈ n.parts ·) composition)
  /-- The end occurs where the composition is got through. -/
  ends : m.Occurs v (.event finish) ↔ n.Through v (n.Ends v) composition
  /-- A branching has its branches. -/
  branches : n.HasBranches composition terminal

/-- A new episode, and what has become of the network. -/
structure Makes (n m : Network) (v : Valuation V) (id : EpisodeId) (e : Episode) : Prop extends
    Outcome n m v e.start e.finish e.composition e.terminal where
  /-- It is there. -/
  found : m.episode id = .ok e
  /-- It is new. -/
  new : ¬ n.Has (.episode id)
  /-- It occurs. -/
  always : m.Occurs v (.episode id)

/-- It may not matter what has been touched. -/
theorem Tightened.loosened {narrowed replaced : Guarded → Prop}
    (step : Tightened narrowed replaced n m) : Grows (fun _ => True) n m :=
  step.toGrows.mono fun _ _ _ => trivial

theorem Inherits.grows {touched : Guarded → Prop} {endpoint : Episode → EventId} {event : EventId}
    (h : n.Inherits k composition endpoint event) (step : Grows touched k m) :
    n.Inherits m composition endpoint event :=
  h.imp_right fun ⟨new, plain⟩ => ⟨new, plain.grows step⟩

/-- Steps that leave guards alone can be taken afterwards. -/
theorem Outcome.later (outcome : Outcome n k v start finish composition terminal)
    (step : Tightened (fun _ => False) (fun _ => False) k m) :
    Outcome n m v start finish composition terminal where
  grows := outcome.grows.trans step.loosened
  opening := outcome.opening.imp_left (·.grows step.toGrows)
  closing := outcome.closing.grows step.toGrows
  there := step.has outcome.there
  kept old := (step.occurs_iff not_false not_false (outcome.grows.has old)).trans (outcome.kept old)
  ends := (step.occurs_iff not_false not_false outcome.there).trans outcome.ends
  branches := outcome.branches

theorem Makes.of_same (makes : n.Makes k v id e) (same : Same k m) : n.Makes m v id e where
  toOutcome := makes.later (.of_same same)
  found := same.episode makes.found
  new := makes.new
  always := same.occurs_iff.mpr makes.always

theorem ends_iff_of_tightened (whole : n.WellFormed) (same : SameEpisodes n m)
    (step : Tightened (fun _ => False) (fun _ => False) n m) : m.Ends v id ↔ n.Ends v id := by
  rw [same.ends_iff]
  refine exists_congr fun e => and_congr_right fun found => ?_
  exact step.occurs_iff not_false not_false (WellFormed.has_event (whole.episode found).finish)

theorem has_finish {touched : Guarded → Prop} (whole : n.WellFormed) (same : SameEpisodes n m)
    (step : Grows touched n m) (id : EpisodeId) (e : Episode) (found : m.episode id = .ok e) :
    m.Has (.event e.finish) := by
  obtain ⟨g, found'⟩ := same.symm.episode found
  exact step.has (WellFormed.has_event (whole.episode found').finish)

end Network

namespace Edit

/-- An event that is not given is new. -/
theorem made_of_eventOrNew {given : Option EventId} {event : EventId} (none : given = none)
    (done : eventOrNew given n = .ok event m) :
    ¬ n.Has (.event event) ∧ m.NoChoice event ∧ m.Occurs v (.event event) := by
  subst none
  obtain ⟨_, new, support, plain⟩ := yields_addEvent.of_eq_ok done
  exact ⟨new, plain, (occurs_iff_of_support support).mpr (Support.holds_always v)⟩

/-- An episode is put behind the others once it has been composed. -/
theorem makes_of_addDraft {draft : EpisodeDraft} {finishing : Episode → Episode}
    (done : addDraft draft finishing k = .ok id m)
    (keeps : ∀ e, (finishing e).guard = e.guard ∧ (finishing e).start = e.start ∧
      (finishing e).finish = e.finish ∧ (finishing e).composition = e.composition ∧
      (finishing e).terminal = e.terminal)
    (outcome : Outcome n k v draft.start draft.finish draft.composition draft.terminal) :
    ∃ e, n.Makes m v id e ∧ e.composition = draft.composition := by
  have step : Tightened (fun _ => False) (fun _ => False) k m := (tightens_addDraft ..).of_ok done
  obtain ⟨_, _, done⟩ := Attempt.read_bind_eq_ok_iff.mp done
  obtain ⟨_, _, done⟩ := Attempt.read_bind_eq_ok_iff.mp done
  obtain ⟨d, k', timed, pushed⟩ := Attempt.bind_eq_ok_iff.mp done
  have duration : Tightened (fun _ => False) (fun _ => False) k k' := (tightens_addDuration ..).of_ok timed
  obtain ⟨rfl, rfl⟩ := pushEpisode_eq_ok_iff.mp pushed
  obtain ⟨guard, start, finish, composition, terminal⟩ := keeps (draft.toEpisode d)
  refine ⟨finishing (draft.toEpisode d), ⟨?_, lookup_push_self rfl, ?_, ?_⟩, composition⟩
  · rw [start, finish, composition, terminal]
    exact outcome.later step
  · exact not_has_episode rfl ∘ duration.has ∘ outcome.grows.has
  · refine ⟨.always, support_eq_ok_iff.mpr (guard_episode.mpr ⟨_, ?_, guard⟩), Support.holds_always v⟩
    exact lookup_eq_ok_iff.mp (lookup_push_self rfl)

theorem makes_of_addComposite {options : CompositionOptions} {constraints : List TemporalId}
    (done : addComposite options start finish composition constraints terminal k = .ok id m)
    (outcome : Outcome n k v start finish composition terminal) :
    ∃ e, n.Makes m v id e ∧ e.composition = composition := by
  obtain ⟨_, k', allocated, drafted⟩ := Attempt.bind_eq_ok_iff.mp done
  have step : Tightened (fun _ => False) (fun _ => False) k k' :=
    (tightens_allocateAs ..).of_ok allocated
  exact makes_of_addDraft drafted (fun _ => ⟨rfl, rfl, rfl, rfl, rfl⟩) (outcome.later step)

/-! ## Primitive episodes -/

theorem makes_addEpisode {spec : EpisodeSpec} (start : spec.start = none)
    (finish : spec.finish = none) (done : addEpisode spec n = .ok id m) :
    ∃ e, n.Makes m v id e ∧ e.composition = .primitive := by
  obtain ⟨_, _, done⟩ := Attempt.read_bind_eq_ok_iff.mp done
  obtain ⟨_, _, done⟩ := Attempt.read_bind_eq_ok_iff.mp done
  obtain ⟨_, _, done⟩ := Attempt.read_bind_eq_ok_iff.mp done
  obtain ⟨_, _, done⟩ := Attempt.read_bind_eq_ok_iff.mp done
  obtain ⟨_, _, done⟩ := Attempt.read_bind_eq_ok_iff.mp done
  obtain ⟨n', m', begins, steps, ends⟩ := exists_same_of_atomically_eq_ok done
  obtain ⟨first, k₁, opened, steps⟩ := Attempt.bind_eq_ok_iff.mp steps
  obtain ⟨last, k₂, closed, steps⟩ := Attempt.bind_eq_ok_iff.mp steps
  obtain ⟨_, k₃, allocated, drafted⟩ := Attempt.bind_eq_ok_iff.mp steps
  have before : Tightened (fun _ => False) (fun _ => False) n k₁ :=
    .trans (.of_same begins) ((tightens_eventOrNew _).of_ok opened)
  have between : Tightened (fun _ => False) (fun _ => False) k₁ k₂ := (tightens_eventOrNew _).of_ok closed
  have after : Tightened (fun _ => False) (fun _ => False) k₂ k₃ := (tightens_allocateAs ..).of_ok allocated
  have steps := before.trans (between.trans after)
  obtain ⟨new, plain, _⟩ := made_of_eventOrNew (v := v) start opened
  obtain ⟨new', plain', occurs⟩ := made_of_eventOrNew (v := v) finish closed
  have occurs' : k₃.Occurs v (.event last) := after.occurs not_false not_false occurs
  have outcome : Outcome n k₃ v first last .primitive spec.terminal := {
    grows := steps.loosened
    opening := .inl (.inr ⟨new ∘ begins.adds.has, plain.grows (between.trans after).toGrows⟩)
    closing := .inr ⟨new' ∘ before.has, plain'.grows after.toGrows⟩
    there := occurs'.has
    kept := fun old => (steps.occurs_iff not_false not_false old).trans (and_iff_left trivial).symm
    ends := iff_of_true occurs' trivial
    branches := nofun }
  obtain ⟨e, makes, primitive⟩ :=
    makes_of_addDraft drafted (fun _ => ⟨rfl, rfl, rfl, rfl, rfl⟩) outcome
  exact ⟨e, makes.of_same ends, primitive⟩

/-! ## Parallel compositions -/

theorem makes_parallel {ids : List EpisodeId} {options : CompositionOptions}
    (unanchored : options.Unanchored) (whole : n.WellFormed) (uses : n.Uses (Literal.Within V))
    (done : parallel ids options n = .ok id m) :
    ∃ e, n.Makes m v id e ∧ e.composition = .parallel ids := by
  obtain ⟨_, n', m', begins, ends, start, k₁, finish, k₂, links, k₃, joint, k₄, first, second, joined,
    _, closed, made⟩ := parallel_eq_ok done
  have before : Tightened (fun _ => False) (fun _ => False) n k₁ :=
    .trans (.of_same begins) ((tightens_eventOrNew _).of_ok first)
  have between : Tightened (fun _ => False) (fun _ => False) k₁ k₂ := (tightens_eventOrNew _).of_ok second
  have ready := before.trans between
  have episodes : SameEpisodes n k₂ := ((SameEpisodes.of_bare begins.bare).trans
    (sameEpisodes_eventOrNew first)).trans (sameEpisodes_eventOrNew second)
  have uses₂ : k₂.Uses (Literal.Within V) := (repeats_eventOrNew _).of_ok second
    ((repeats_eventOrNew _).of_ok first (uses.of_same begins))
  have joins : Tightened (.event finish = ·) (fun _ => False) k₂ k₃ :=
    (tightens_joinBranches (.inl rfl)).of_ok joined
  have closes := tightened_closeLinks closed
  obtain ⟨new, plain, _⟩ := made_of_eventOrNew (v := v) unanchored.start first
  obtain ⟨new', plain', occurs⟩ := made_of_eventOrNew (v := v) unanchored.finish second
  have outcome : Outcome n k₄ v start finish (.parallel ids) false := {
    grows := ready.loosened.trans (joins.loosened.trans closes.loosened)
    opening := .inl (.inr ⟨new ∘ begins.adds.has, plain.grows
      (between.loosened.trans (joins.loosened.trans closes.loosened))⟩)
    closing := .inr ⟨new' ∘ before.has, plain'.grows (joins.loosened.trans closes.loosened)⟩
    there := closes.has (joins.has occurs.has)
    kept := fun {x} old => by
      have apart : ¬ ∃ l ∈ links, Guarded.temporal l.2 = x := fun ⟨l, member, same⟩ =>
        new_of_joinBranches joined l member (same ▸ ready.has old)
      have differ : Guarded.event finish ≠ x := fun same => new' (same ▸ before.has old)
      rw [closes.occurs_iff not_false apart (joins.has (ready.has old)),
        joins.occurs_iff differ not_false (ready.has old), ready.occurs_iff not_false not_false old]
      exact (and_iff_left trivial).symm
    ends := by
      rw [closes.occurs_iff not_false (fun ⟨_, _, same⟩ => Guarded.noConfusion same)
        (joins.has occurs.has), occurs_joinBranches_iff joined uses₂
        (has_finish whole episodes ready.toGrows) occurs.has, and_iff_right occurs]
      simp only [forall_true_left, ends_iff_of_tightened whole episodes ready]
      rfl
    branches := nofun }
  obtain ⟨e, makes, composition⟩ := makes_of_addComposite made outcome
  exact ⟨e, makes.of_same ends, composition⟩

/-! ## Sequences -/

section Sequence

variable {ids : List EpisodeId} {options : CompositionOptions} {firstStart lastFinish : EventId}

/-- The events at the ends are those of the episodes, or both are new. -/
theorem made_of_openSequence {opened : EventId × EventId × List TemporalId}
    (unanchored : options.Unanchored)
    (done : openSequence options firstStart lastFinish n = .ok opened m) :
    options.mode.getD .shared = .shared ∧ opened.1 = firstStart ∧ opened.2.1 = lastFinish ∨
      options.mode.getD .shared = .boundary ∧ (¬ n.Has (.event opened.1) ∧ m.NoChoice opened.1) ∧
        ¬ n.Has (.event opened.2.1) ∧ m.NoChoice opened.2.1 := by
  rcases openSequence_eq_ok done with ⟨mode, _, rfl⟩ |
    ⟨mode, start, finish, _, k₁, k₂, begins, ends, linked, rfl⟩
  · rw [unanchored.start, unanchored.finish]
    exact .inl ⟨mode, rfl, rfl⟩
  have first : Tightened (fun _ => False) (fun _ => False) n k₁ := (tightens_eventOrNew _).of_ok begins
  have second : Tightened (fun _ => False) (fun _ => False) k₁ k₂ := (tightens_eventOrNew _).of_ok ends
  have links : Tightened (fun _ => False) (fun _ => False) k₂ m := (tightens_link ..).of_ok linked
  obtain ⟨new, plain, _⟩ := made_of_eventOrNew (v := Valuation.first) unanchored.start begins
  obtain ⟨new', plain', _⟩ := made_of_eventOrNew (v := Valuation.first) unanchored.finish ends
  exact .inr ⟨mode, ⟨new, plain.grows (second.trans links).toGrows⟩, new' ∘ first.has,
    plain'.grows links.toGrows⟩

/-- The last episode ends where all do. -/
theorem occurs_last_followAll_iff {gap : Number} {links : List TemporalId} {last : EpisodeId}
    (done : followAll gap ids n = .ok links m) (uses : n.Uses (Literal.Within V))
    (ending : ∀ id e, n.episode id = .ok e → n.Has (.event e.finish))
    (isLast : ids.getLast? = some last) (found : n.episode last = .ok e) :
    m.Occurs v (.event e.finish) ↔ ∀ id ∈ ids, n.Ends v id := by
  rw [occurs_followAll_iff done uses ending (ending last e found), ← ends_iff found]
  obtain ⟨front, rfl⟩ := List.getLast?_eq_some_iff.mp isLast
  constructor
  · rintro ⟨ends, between⟩ id member
    rcases List.mem_append.mp member with earlier | isLast
    · exact (List.pairwise_append.mp between).2.2 id earlier last (List.mem_singleton_self last)
        (mem_parts_finish found)
    · exact List.mem_singleton.mp isLast ▸ ends
  · intro ends
    exact ⟨ends last (List.mem_append_right front (List.mem_singleton_self last)),
      List.pairwise_of_forall_mem_list fun id member _ _ _ => ends id member⟩

/-- The end of a sequence occurs where that of its last episode does. -/
theorem occurs_closeSequence_iff {links : List TemporalId}
    (done : closeSequence options lastFinish finish n = .ok links m)
    (shared : options.mode.getD .shared = .shared → finish = lastFinish) :
    m.Occurs v (.event finish) ↔ n.Occurs v (.event lastFinish) := by
  rcases closeSequence_eq_ok done with ⟨mode, rfl, _⟩ | ⟨_, s, k, _, there, written, linked, _⟩
  · rw [shared mode]
  have links : Tightened (fun _ => False) (fun _ => False) k m := (tightens_linkUnder ..).of_ok linked
  have here := support_of_setSupport written
  rw [occurs_iff_of_support there, ← occurs_iff_of_support here]
  exact links.occurs_iff not_false not_false (has_of_support here)

theorem makes_sequence (unanchored : options.Unanchored) (whole : n.WellFormed)
    (uses : n.Uses (Literal.Within V)) (done : sequence ids options n = .ok id m) :
    ∃ e, n.Makes m v id e ∧ e.composition = .sequence ids := by
  obtain ⟨first, last, n', m', firstEpisode, lastEpisode, isFirst, isLast, begins, ends, opens, closes,
    opened, k₁, links, k₂, closing, k₃, opening, following, closed, made⟩ := sequence_eq_ok done
  have first₀ := begins.episode_iff.mp opens
  have last₀ := begins.episode_iff.mp closes
  have episodes : SameEpisodes n k₁ :=
    (SameEpisodes.of_bare begins.bare).trans (sameEpisodes_openSequence opening)
  have ready : Tightened (fun _ => False) (fun _ => False) n k₁ :=
    .trans (.of_same begins) ((tightens_openSequence ..).of_ok opening)
  have uses₁ : k₁.Uses (Literal.Within V) :=
    (repeats_openSequence _ _ _).of_ok opening (uses.of_same begins)
  have ending := has_finish whole episodes ready.toGrows
  have follows : Tightened (fun _ => True) (fun _ => False) k₁ k₂ :=
    (tightens_followAll fun _ _ _ _ => .inl trivial).of_ok following
  have closes := tightened_closeSequence closed
  have steps : Grows (fun _ => True) k₁ k₃ := follows.loosened.trans closes.loosened
  obtain ⟨g, last₁⟩ := episodes.episode last₀
  have bounds := made_of_openSequence unanchored opening
  have shared (mode : options.mode.getD .shared = .shared) : opened.2.1 = lastEpisode.finish := by
    rcases bounds with ⟨_, _, same⟩ | ⟨boundary, _⟩
    · exact same
    · rw [mode] at boundary
      cases boundary
  have outcome : Outcome n k₃ v opened.1 opened.2.1 (.sequence ids) lastEpisode.terminal := {
    grows := ready.loosened.trans steps
    opening := by
      rcases bounds with ⟨_, same, _⟩ | ⟨_, ⟨new, plain⟩, _⟩
      · exact .inl (.inl ⟨first, List.mem_of_head? isFirst, _, first₀, same⟩)
      · exact .inl (.inr ⟨new ∘ begins.adds.has, plain.grows steps⟩)
    closing := by
      rcases bounds with ⟨_, _, same⟩ | ⟨_, _, new, plain⟩
      · exact .inl ⟨last, List.mem_of_getLast? isLast, _, last₀, same⟩
      · exact .inr ⟨new ∘ begins.adds.has, plain.grows steps⟩
    there := by
      rcases bounds with ⟨_, _, same⟩ | ⟨_, _, _, plain⟩
      · exact same ▸ steps.has (ending last { lastEpisode with guard := g } last₁)
      · exact steps.has plain.has
    kept := fun {x} old => by
      have apart : ¬ ∃ event ∈ closingEvent options opened.2.1, Guarded.event event = x := by
        rintro ⟨event, is, rfl⟩
        obtain ⟨mode, rfl⟩ := mem_closingEvent_iff.mp is
        rcases finish_of_openSequence opening mode with given | new
        · rw [unanchored.finish] at given
          cases given
        · exact new (begins.adds.has old)
      rw [closes.occurs_iff not_false apart (follows.has (ready.has old)),
        occurs_followAll_iff following uses₁ ending (ready.has old),
        ready.occurs_iff not_false not_false old]
      simp only [episodes.parts, ends_iff_of_tightened whole episodes ready]
      rfl
    ends := by
      rw [occurs_closeSequence_iff closed shared,
        occurs_last_followAll_iff following uses₁ ending isLast last₁]
      simp only [ends_iff_of_tightened whole episodes ready]
      rfl
    branches := nofun }
  obtain ⟨e, makes, composition⟩ := makes_of_addComposite made outcome
  exact ⟨e, makes.of_same ends, composition⟩

end Sequence

/-! ## Branchings -/

theorem not_mem_endedValues_iff {subject : ChoiceVariable} {ids : List EpisodeId} {value : String} :
    value ∉ endedValues n subject ids ↔
      ∀ id, (value, id) ∈ subject.domain.zip ids → n.isTerminal id = false := by
  simp [endedValues]

/-- When the values whose branches end the execution have been ruled out, an end that is reached
occurs where the execution goes on. -/
theorem occurs_excludeEnded_iff {choice : EventId} {data : Choice} {ids : List EpisodeId}
    {branches : List Branch} {u : Unit} (chosen : n.choice choice = .ok data)
    (same : data.subject.arity = ids.length)
    (flags : branches.map (fun b => (b.value, b.terminal)) =
      (data.subject.domain.zip ids).map fun entry => (entry.1, n.isTerminal entry.2))
    (writes : Divided data.subject branches ∧ setConjunction (.event finish)
        (.ofList ((branches.filter (·.terminal)).map (.isNot data.subject ·.value))) k = .ok u m ∨
      ¬ Divided data.subject branches ∧ m = k)
    (reached : k.Occurs v (.event finish)) :
    m.Occurs v (.event finish) ↔ n.Continues v choice ids := by
  rcases writes with ⟨some, written⟩ | ⟨none, rfl⟩
  · have divided := (divided_iff same flags).mp some
    rw [map_isNot_of_flags flags] at written
    rw [occurs_iff_of_support (support_of_setConjunction written), Support.holds_exclusion,
      not_mem_endedValues_iff]
    constructor
    · rintro goes _ id ⟨data', chosen', selected⟩
      obtain rfl := Except.ok.inj (chosen.symm.trans chosen')
      exact goes id selected
    · exact fun goes id selected => goes divided.2 id ⟨data, chosen, selected⟩
  · refine iff_of_true reached fun goes id ⟨_, _, selected⟩ => ?_
    by_contra terminal
    refine none ((divided_iff same flags).mpr ⟨⟨id, (List.of_mem_zip selected).2, ?_⟩, goes⟩)
    simpa using terminal

theorem makes_branch {choice : EventId} {ids : List EpisodeId} {options : CompositionOptions}
    (unanchored : options.Unanchored) (whole : n.WellFormed) (uses : n.Uses (Literal.Within V))
    (done : branch choice ids options n = .ok id m) :
    ∃ e, n.Makes m v id e ∧ e.composition = .branching choice ids := by
  obtain ⟨data, chosen, same, n', m', begins, ends, finish, k₁, branches, k₂, k₃, first, added, writes,
    made⟩ := branch_eq_ok done
  have episodes : SameEpisodes n k₁ :=
    (SameEpisodes.of_bare begins.bare).trans (sameEpisodes_eventOrNew first)
  have flags := flags_of_sameEpisodes episodes added
  have within (entry) (member : entry ∈ data.subject.domain.zip ids) :
      (Literal.is data.subject entry.1).Within V := uses.is_of_mem_zip chosen member
  have uses₁ : k₁.Uses (Literal.Within V) :=
    (repeats_eventOrNew _).of_ok first (uses.of_same begins)
  have ready : Tightened (fun _ => False) (fun _ => False) n k₁ :=
    .trans (.of_same begins) ((tightens_eventOrNew _).of_ok first)
  have branching : Tightened (fun _ => True) (fun _ => False) k₁ k₂ :=
    (tightens_addBranches fun _ _ _ _ => .inl trivial).of_ok added
  have excludes := tightened_excludeEnded writes
  have steps := branching.loosened.trans excludes.loosened
  obtain ⟨new, plain, occurs⟩ := made_of_eventOrNew (v := v) unanchored.finish first
  have outcome : Outcome n k₃ v choice finish (.branching choice ids)
      ((branches.filter (·.terminal)).length == data.subject.arity) := {
    grows := ready.loosened.trans steps
    opening := .inr rfl
    closing := .inr ⟨new ∘ begins.adds.has, plain.grows steps⟩
    there := steps.has occurs.has
    kept := fun {x} old => by
      have apart : Guarded.event finish ≠ x := fun same => new (begins.adds.has (same ▸ old))
      rw [excludes.occurs_iff not_false apart (branching.has (ready.has old)),
        occurs_addBranches_iff added uses₁ within (ready.has old),
        ready.occurs_iff not_false not_false old]
      simp only [episodes.parts]
      refine and_congr_right fun _ => ⟨fun taken data' chosen' => ?_, fun taken => taken data chosen⟩
      exact Except.ok.inj (chosen.symm.trans chosen') ▸ taken
    ends := by
      have reached : k₂.Occurs v (.event finish) := by
        refine (occurs_addBranches_iff added uses₁ within occurs.has).mpr
          ⟨occurs, fun entry _ part => ?_⟩
        rw [episodes.parts] at part
        exact absurd (begins.adds.has (whole.has_of_mem_parts part)) new
      exact occurs_excludeEnded_iff chosen same flags writes reached
    branches := fun _ _ is => by
      obtain ⟨rfl, rfl⟩ := Composition.branching.inj is
      exact ⟨⟨data, chosen, same⟩, fun goes =>
        (exists_going_iff same flags).mp (ne_of_beq_false goes)⟩ }
  obtain ⟨e, makes, composition⟩ := makes_of_addComposite made outcome
  exact ⟨e, makes.of_same ends, composition⟩

end Edit

namespace Composing

/-- How the new episode is built. -/
def built : Composing → Composition
  | sequence ids _ => .sequence ids
  | parallel ids _ => .parallel ids
  | branch choice ids _ => .branching choice ids

/-- What the caller says about it. -/
def options : Composing → CompositionOptions
  | sequence _ options | parallel _ options | branch _ _ options => options

/-- What comes of a composition for which no events are given. -/
theorem makes {composing : Composing} (unanchored : composing.options.Unanchored)
    (whole : n.WellFormed) (uses : n.Uses (Literal.Within V))
    (done : composing.call.run n = .ok id m) :
    ∃ e, n.Makes m v id e ∧ e.composition = composing.built := by
  cases composing with
  | sequence ids options => exact Edit.makes_sequence unanchored whole uses done
  | parallel ids options => exact Edit.makes_parallel unanchored whole uses done
  | branch choice ids options => exact Edit.makes_branch unanchored whole uses done

end Composing

end PlanNetwork
