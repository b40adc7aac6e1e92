/-
# Networks without their guards

Much of what an operation reads does not depend on guards: what an episode is
made of, which events it has, and all that is inside it. Networks that differ
only in guards, and in what the journal knows of them, agree on it. Writing
guards stays within such networks.
-/

import PlanNetwork.Composition.Propagation
import PlanNetwork.Proofs.Network.Effects

namespace PlanNetwork

variable {n m : Network} {element other : Guarded} {g : Guard}

/-- The event if it existed always. -/
def Event.bare (e : Event) : Event := { e with guard := .always }

/-- The episode if it existed always. -/
def Episode.bare (e : Episode) : Episode := { e with guard := .always }

/-- The constraint if it applied always. -/
def TemporalConstraint.bare (c : TemporalConstraint) : TemporalConstraint :=
  { c with guard := .always }

/-- The constraint if it applied always. -/
def StateConstraint.bare (c : StateConstraint) : StateConstraint := { c with guard := .always }

namespace Network

/-- The network if all elements existed always, without the journal. -/
def bare (n : Network) : Network :=
  { n with
    events := n.events.map Event.bare
    episodes := n.episodes.map Episode.bare
    temporals := n.temporals.map TemporalConstraint.bare
    states := n.states.map StateConstraint.bare
    journal := none }

/-! ## What leaves it alone -/

theorem map_modify_of_absorbs {α β : Type} {entries : Array α} {i : Nat} {change : α → α}
    {view : α → β} (absorbs : ∀ a, view (change a) = view a) :
    (entries.modify i change).map view = entries.map view := by
  ext k hk hk'
  · simp
  · rw [Array.getElem_map, Array.getElem_map, Array.getElem_modify]
    split
    · exact absorbs _
    · rfl

theorem bare_setGuard : (n.setGuard element g).bare = n.bare := by
  cases element with
  | event id =>
    have : (n.events.modify id.index ({ · with guard := g })).map Event.bare =
        n.events.map Event.bare := map_modify_of_absorbs fun _ => rfl
    simp only [setGuard, bare, this]
  | episode id =>
    have : (n.episodes.modify id.index ({ · with guard := g })).map Episode.bare =
        n.episodes.map Episode.bare := map_modify_of_absorbs fun _ => rfl
    simp only [setGuard, bare, this]
  | temporal id =>
    have : (n.temporals.modify id.index ({ · with guard := g })).map TemporalConstraint.bare =
        n.temporals.map TemporalConstraint.bare := map_modify_of_absorbs fun _ => rfl
    simp only [setGuard, bare, this]
  | state id =>
    have : (n.states.modify id.index ({ · with guard := g })).map StateConstraint.bare =
        n.states.map StateConstraint.bare := map_modify_of_absorbs fun _ => rfl
    simp only [setGuard, bare, this]

theorem bare_note : (n.note element g).bare = n.bare := by
  unfold note
  cases n.journal with
  | none => rfl
  | some j => dsimp only; split <;> rfl

theorem guard_note : (n.note element g).guard other = n.guard other := by
  have : ∀ j, ({ n with journal := j } : Network).guard other = n.guard other := by
    intro j
    cases other <;> rfl
  unfold note
  cases n.journal with
  | none => rfl
  | some j => dsimp only; split <;> simp only [this]

theorem bare_checkpoint : n.checkpoint.bare = n.bare := rfl

/-! ## What depends on it alone -/

theorem lookup_map_strip {kind : ElementKind} {α β : Type} {entries entries' : Array α}
    {id : Handle kind} {strip : α → β} (same : entries'.map strip = entries.map strip) {a : α}
    (found : lookup entries id = .ok a) : ∃ b, lookup entries' id = .ok b ∧ strip b = strip a := by
  have there := congrArg (·[id.index]?) same
  simp only [Array.getElem?_map, lookup_eq_ok_iff.mp found, Option.map_some] at there
  obtain ⟨b, found', stripped⟩ := Option.map_eq_some_iff.mp there
  exact ⟨b, lookup_eq_ok_iff.mpr found', stripped⟩

/-- The episodes are the same apart from their guards. -/
def SameEpisodes (n m : Network) : Prop :=
  m.episodes.map Episode.bare = n.episodes.map Episode.bare

namespace SameEpisodes

theorem of_eq (same : m.episodes = n.episodes) : SameEpisodes n m := congrArg _ same

theorem of_bare (same : m.bare = n.bare) : SameEpisodes n m := congrArg episodes same

theorem symm (same : SameEpisodes n m) : SameEpisodes m n := Eq.symm same

theorem trans {k : Network} (first : SameEpisodes n k) (second : SameEpisodes k m) :
    SameEpisodes n m :=
  Eq.trans second first

/-- An episode keeps everything but its guard. -/
theorem episode (same : SameEpisodes n m) {id : EpisodeId} {e : Episode}
    (found : n.episode id = .ok e) : ∃ g, m.episode id = .ok { e with guard := g } := by
  obtain ⟨e', found', stripped⟩ := lookup_map_strip same found
  refine ⟨e'.guard, found'.trans (congrArg Except.ok ?_)⟩
  calc e' = { e'.bare with guard := e'.guard } := rfl
    _ = { e.bare with guard := e'.guard } := by rw [stripped]

end SameEpisodes

theorem episode_of_bare (same : m.bare = n.bare) {id : EpisodeId} {e : Episode}
    (found : n.episode id = .ok e) : ∃ g, m.episode id = .ok { e with guard := g } :=
  (SameEpisodes.of_bare same).episode found

/-- An event keeps everything but its guard. -/
theorem event_of_bare (same : m.bare = n.bare) {id : EventId} {e : Event}
    (found : n.event id = .ok e) : ∃ g, m.event id = .ok { e with guard := g } := by
  obtain ⟨e', found', stripped⟩ := lookup_map_strip (congrArg events same) found
  refine ⟨e'.guard, found'.trans (congrArg Except.ok ?_)⟩
  calc e' = { e'.bare with guard := e'.guard } := rfl
    _ = { e.bare with guard := e'.guard } := by rw [stripped]

/-- A temporal constraint keeps everything but its guard. -/
theorem temporal_of_bare (same : m.bare = n.bare) {id : TemporalId} {c : TemporalConstraint}
    (found : n.temporal id = .ok c) : ∃ g, m.temporal id = .ok { c with guard := g } := by
  obtain ⟨c', found', stripped⟩ := lookup_map_strip (congrArg temporals same) found
  refine ⟨c'.guard, found'.trans (congrArg Except.ok ?_)⟩
  calc c' = { c'.bare with guard := c'.guard } := rfl
    _ = { c.bare with guard := c'.guard } := by rw [stripped]

theorem internalEpisodes_bare (id : EpisodeId) :
    n.bare.internalEpisodes id = n.internalEpisodes id := by
  unfold internalEpisodes bare
  rw [Array.getElem?_map]
  cases n.episodes[id.index]? <;> rfl

theorem ownParts_bare (id : EpisodeId) : n.bare.ownParts id = n.ownParts id := by
  unfold ownParts bare
  rw [Array.getElem?_map]
  cases n.episodes[id.index]? <;> rfl

namespace SameEpisodes

theorem internalEpisodes (same : SameEpisodes n m) (id : EpisodeId) :
    m.internalEpisodes id = n.internalEpisodes id := by
  have there : m.bare.episodes = n.bare.episodes := same
  rw [← internalEpisodes_bare, ← internalEpisodes_bare id (n := n), Network.internalEpisodes, there,
    Network.internalEpisodes]

theorem ownParts (same : SameEpisodes n m) (id : EpisodeId) : m.ownParts id = n.ownParts id := by
  have there : m.bare.episodes = n.bare.episodes := same
  rw [← ownParts_bare, ← ownParts_bare id (n := n), Network.ownParts, there, Network.ownParts]

theorem unfoldingTo (same : SameEpisodes n m) (depth : Nat) (id : EpisodeId) :
    m.unfoldingTo depth id = n.unfoldingTo depth id := by
  induction depth generalizing id with
  | zero => rfl
  | succ depth ih =>
    rw [Network.unfoldingTo, Network.unfoldingTo, same.internalEpisodes, funext ih]

/-- What is narrowed with an episode is the same. -/
theorem parts (same : SameEpisodes n m) (id : EpisodeId) : m.parts id = n.parts id := by
  rw [Network.parts, Network.parts, unfolding, unfolding, same.unfoldingTo, funext same.ownParts]

end SameEpisodes

theorem parts_of_bare (same : m.bare = n.bare) (id : EpisodeId) : m.parts id = n.parts id :=
  (SameEpisodes.of_bare same).parts id

/-- An episode with its events and its duration is narrowed with itself. -/
theorem ownParts_subset_parts (n : Network) (id : EpisodeId) : n.ownParts id ⊆ n.parts id := by
  intro element member
  refine List.mem_flatMap.mpr ⟨id, ?_, member⟩
  unfold unfolding
  cases id.index <;> exact List.mem_cons_self ..

theorem mem_parts_start {id : EpisodeId} {e : Episode} (found : n.episode id = .ok e) :
    Guarded.event e.start ∈ n.parts id := by
  apply ownParts_subset_parts
  simp [ownParts, lookup_eq_ok_iff.mp found]

theorem mem_parts_finish {id : EpisodeId} {e : Episode} (found : n.episode id = .ok e) :
    Guarded.event e.finish ∈ n.parts id := by
  apply ownParts_subset_parts
  simp [ownParts, lookup_eq_ok_iff.mp found]

end Network

end PlanNetwork
