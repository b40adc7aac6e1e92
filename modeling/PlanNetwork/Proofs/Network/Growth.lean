/-
# Growing networks

An operation that makes elements leaves the old ones where they are. It may
change their guards, though only those of some elements that it touches. What is
inside an old episode stays inside it, and nothing else gets inside.
-/

import PlanNetwork.Proofs.Network.Bare
import PlanNetwork.Proofs.Network.Journal

namespace PlanNetwork

variable {n m k : Network} {touched : Guarded → Prop} {element : Guarded}

namespace Network

/-- Whether an element is there. -/
def Has (n : Network) (element : Guarded) : Prop := ∃ g, n.guard element = .ok g

/-- What is there has a support. -/
theorem Has.exists_support (there : n.Has element) : ∃ s, n.support element = .ok s := by
  obtain ⟨g, guarded⟩ := there
  exact ⟨g.support, map_eq_ok_iff.mpr ⟨g, guarded, rfl⟩⟩

theorem has_of_support {s : Support} (found : n.support element = .ok s) : n.Has element :=
  ⟨_, support_eq_ok_iff.mp found⟩

/-- The network has grown to another one, and of the old elements only some
have been touched. -/
structure Grows (touched : Guarded → Prop) (n m : Network) : Prop where
  /-- Old events keep everything but their guards. -/
  event : ∀ {id e}, n.event id = .ok e → ∃ g, m.event id = .ok { e with guard := g }
  /-- Old episodes keep everything but their guards. -/
  episode : ∀ {id e}, n.episode id = .ok e → ∃ g, m.episode id = .ok { e with guard := g }
  /-- Old temporal constraints keep everything but their guards. -/
  temporal : ∀ {id c}, n.temporal id = .ok c → ∃ g, m.temporal id = .ok { c with guard := g }
  /-- Old elements that are not touched keep their guards. -/
  guard : ∀ {element g}, ¬ touched element → n.guard element = .ok g → m.guard element = .ok g
  /-- Old elements are still there. -/
  has : ∀ {element}, n.Has element → m.Has element
  /-- Serial numbers are only given out. -/
  serial : n.nextSerial ≤ m.nextSerial

namespace Grows

theorem refl (n : Network) : Grows touched n n :=
  ⟨fun {_ e} found => ⟨e.guard, found⟩, fun {_ e} found => ⟨e.guard, found⟩,
    fun {_ c} found => ⟨c.guard, found⟩, fun _ => id, id, Nat.le_refl _⟩

theorem trans (first : Grows touched n m) (second : Grows touched m k) : Grows touched n k := by
  refine ⟨fun found => ?_, fun found => ?_, fun found => ?_,
    fun apart found => second.guard apart (first.guard apart found), second.has ∘ first.has,
    Nat.le_trans first.serial second.serial⟩
  · obtain ⟨_, found⟩ := first.event found
    obtain ⟨g, found⟩ := second.event found
    exact ⟨g, found⟩
  · obtain ⟨_, found⟩ := first.episode found
    obtain ⟨g, found⟩ := second.episode found
    exact ⟨g, found⟩
  · obtain ⟨_, found⟩ := first.temporal found
    obtain ⟨g, found⟩ := second.temporal found
    exact ⟨g, found⟩

theorem mono {more : Guarded → Prop} (h : Grows touched n m)
    (implies : ∀ element, n.Has element → touched element → more element) : Grows more n m :=
  { h with guard := fun apart found => h.guard (fun t => apart (implies _ ⟨_, found⟩ t)) found }

theorem support (h : Grows touched n m) {s : Support} (apart : ¬ touched element)
    (found : n.support element = .ok s) : m.support element = .ok s :=
  support_eq_ok_iff.mpr (h.guard apart (support_eq_ok_iff.mp found))

/-- If no old element has changed at all, the network has grown. -/
theorem of_lookups (events : ∀ {id e}, n.event id = .ok e → m.event id = .ok e)
    (episodes : ∀ {id e}, n.episode id = .ok e → m.episode id = .ok e)
    (temporals : ∀ {id c}, n.temporal id = .ok c → m.temporal id = .ok c)
    (states : ∀ {id c}, n.state id = .ok c → m.state id = .ok c)
    (serial : n.nextSerial ≤ m.nextSerial) : Grows touched n m := by
  have guards : ∀ {element g}, n.guard element = .ok g → m.guard element = .ok g := by
    intro element g found
    cases element with
    | event id =>
      obtain ⟨e, there, same⟩ := map_eq_ok_iff.mp found
      exact map_eq_ok_iff.mpr ⟨e, events there, same⟩
    | episode id =>
      obtain ⟨e, there, same⟩ := map_eq_ok_iff.mp found
      exact map_eq_ok_iff.mpr ⟨e, episodes there, same⟩
    | temporal id =>
      obtain ⟨c, there, same⟩ := map_eq_ok_iff.mp found
      exact map_eq_ok_iff.mpr ⟨c, temporals there, same⟩
    | state id =>
      obtain ⟨c, there, same⟩ := map_eq_ok_iff.mp found
      exact map_eq_ok_iff.mpr ⟨c, states there, same⟩
  exact ⟨fun {_ e} found => ⟨e.guard, events found⟩, fun {_ e} found => ⟨e.guard, episodes found⟩,
    fun {_ c} found => ⟨c.guard, temporals found⟩, fun _ => guards, Exists.imp fun _ => guards,
    serial⟩

theorem has_of_bare (same : m.bare = n.bare) (there : n.Has element) : m.Has element := by
  obtain ⟨g, found⟩ := there
  cases element with
  | event id =>
    obtain ⟨e, found, _⟩ := map_eq_ok_iff.mp found
    obtain ⟨e', found', _⟩ := lookup_map_strip (congrArg events same) found
    exact ⟨e'.guard, map_eq_ok_iff.mpr ⟨e', found', rfl⟩⟩
  | episode id =>
    obtain ⟨e, found, _⟩ := map_eq_ok_iff.mp found
    obtain ⟨e', found', _⟩ := lookup_map_strip (congrArg episodes same) found
    exact ⟨e'.guard, map_eq_ok_iff.mpr ⟨e', found', rfl⟩⟩
  | temporal id =>
    obtain ⟨c, found, _⟩ := map_eq_ok_iff.mp found
    obtain ⟨c', found', _⟩ := lookup_map_strip (congrArg temporals same) found
    exact ⟨c'.guard, map_eq_ok_iff.mpr ⟨c', found', rfl⟩⟩
  | state id =>
    obtain ⟨c, found, _⟩ := map_eq_ok_iff.mp found
    obtain ⟨c', found', _⟩ := lookup_map_strip (congrArg states same) found
    exact ⟨c'.guard, map_eq_ok_iff.mpr ⟨c', found', rfl⟩⟩

/-- If only guards have changed, the network has grown. -/
theorem of_bare (same : m.bare = n.bare)
    (outside : ∀ element, ¬ touched element → m.guard element = n.guard element) :
    Grows touched n m :=
  ⟨event_of_bare same, episode_of_bare same, temporal_of_bare same,
    fun apart found => (outside _ apart).trans found, has_of_bare same,
    Nat.le_of_eq (congrArg nextSerial same).symm⟩

end Grows

/-- The network has grown, but not by an episode. -/
structure Extends (touched : Guarded → Prop) (n m : Network) : Prop extends
    Grows touched n m where
  /-- There are as many episodes. -/
  size : m.episodes.size = n.episodes.size

theorem Extends.refl (n : Network) : Extends touched n n := ⟨.refl n, rfl⟩

theorem Extends.trans (first : Extends touched n m) (second : Extends touched m k) :
    Extends touched n k :=
  ⟨first.toGrows.trans second.toGrows, second.size.trans first.size⟩

theorem Extends.mono {more : Guarded → Prop} (h : Extends touched n m)
    (implies : ∀ element, n.Has element → touched element → more element) : Extends more n m :=
  ⟨h.toGrows.mono implies, h.size⟩

/-- If only guards have changed, there is no new episode. -/
theorem Extends.of_bare (same : m.bare = n.bare)
    (outside : ∀ element, ¬ touched element → m.guard element = n.guard element) :
    Extends touched n m := by
  refine ⟨.of_bare same outside, ?_⟩
  have sizes := congrArg (·.episodes.size) same
  simpa only [bare, Array.size_map] using sizes

/-- The networks differ in nothing but the journal. -/
structure Same (n m : Network) : Prop where
  /-- The elements are the same apart from their guards. -/
  bare : m.bare = n.bare
  /-- The guards are the same. -/
  guards : ∀ element, m.guard element = n.guard element

theorem Same.extends (h : Same n m) : Extends touched n m :=
  .of_bare h.bare fun element _ => h.guards element

theorem Same.trans (first : Same n m) (second : Same m k) : Same n k :=
  ⟨second.bare.trans first.bare, fun element =>
    (second.guards element).trans (first.guards element)⟩

theorem Same.symm (h : Same n m) : Same m n := ⟨h.bare.symm, fun element => (h.guards element).symm⟩

/-- What is the same apart from guards, and has the same guards, is the same. -/
theorem eq_of_guards {kind : ElementKind} {α : Type} {xs ys : Array α} (strip : α → α)
    {guard : α → Guard} (fill : Guard → α → α) (whole : ∀ a, fill (guard a) (strip a) = a)
    (stripped : ys.map strip = xs.map strip)
    (guards : ∀ id : Handle kind, (lookup ys id).map guard = (lookup xs id).map guard) :
    ys = xs := by
  have sizes : ys.size = xs.size := by simpa using congrArg Array.size stripped
  refine Array.ext sizes fun i left right => ?_
  have same : strip ys[i] = strip xs[i] := by
    have there := congrArg (·[i]?) stripped
    simpa [left, right] using there
  have guarded := guards ⟨i⟩
  rw [lookup_eq_ok_iff.mpr (Array.getElem?_eq_getElem left),
    lookup_eq_ok_iff.mpr (Array.getElem?_eq_getElem right)] at guarded
  rw [← whole ys[i], ← whole xs[i], same, Except.ok.inj guarded]

/-- Networks are the same if they have the same journal as well. -/
theorem Same.eq (h : Same n m) (journal : m.journal = n.journal) : m = n := by
  have events : m.events = n.events :=
    eq_of_guards Event.bare (fun g e => { e with guard := g }) (fun _ => rfl)
      (congrArg Network.events h.bare) fun id => h.guards (.event id)
  have episodes : m.episodes = n.episodes :=
    eq_of_guards Episode.bare (fun g e => { e with guard := g }) (fun _ => rfl)
      (congrArg Network.episodes h.bare) fun id => h.guards (.episode id)
  have temporals : m.temporals = n.temporals :=
    eq_of_guards TemporalConstraint.bare (fun g c => { c with guard := g }) (fun _ => rfl)
      (congrArg Network.temporals h.bare) fun id => h.guards (.temporal id)
  have states : m.states = n.states :=
    eq_of_guards StateConstraint.bare (fun g c => { c with guard := g }) (fun _ => rfl)
      (congrArg Network.states h.bare) fun id => h.guards (.state id)
  calc m = { m.bare with
        events := m.events, episodes := m.episodes, temporals := m.temporals
        states := m.states, journal := m.journal } := rfl
    _ = { n.bare with
        events := n.events, episodes := n.episodes, temporals := n.temporals
        states := n.states, journal := n.journal } := by
      rw [h.bare, events, episodes, temporals, states, journal]

theorem same_checkpoint (n : Network) : Same n n.checkpoint :=
  ⟨rfl, fun element => by cases element <;> rfl⟩

theorem same_commit (n : Network) : Same n n.commit := ⟨rfl, fun _ => guard_commit⟩

/-- Elements may have been made, but nothing has happened to the old ones. -/
def Adds (n m : Network) : Prop := Extends (fun _ => False) n m

namespace Adds

theorem refl (n : Network) : Adds n n := Extends.refl n

theorem trans (first : Adds n m) (second : Adds m k) : Adds n k := Extends.trans first second

theorem mono (h : Adds n m) : Extends touched n m := Extends.mono h fun _ _ => False.elim

theorem support (h : Adds n m) {s : Support} (found : n.support element = .ok s) :
    m.support element = .ok s :=
  h.toGrows.support not_false found

theorem not_has (h : Adds n m) (new : ¬ m.Has element) : ¬ n.Has element := new ∘ h.has

end Adds

theorem Same.adds (h : Same n m) : Adds n m := h.extends

theorem Same.temporal (h : Same n m) {id : TemporalId} {c : TemporalConstraint}
    (found : n.temporal id = .ok c) : m.temporal id = .ok c := by
  obtain ⟨g, found'⟩ := temporal_of_bare h.bare found
  have guards := h.guards (.temporal id)
  simp only [guard, found, found', Except.map, Except.ok.injEq] at guards
  rw [found', guards]

theorem Same.episode (h : Same n m) {id : EpisodeId} {e : Episode}
    (found : n.episode id = .ok e) : m.episode id = .ok e := by
  obtain ⟨g, found'⟩ := episode_of_bare h.bare found
  have guards := h.guards (.episode id)
  simp only [guard, found, found', Except.map, Except.ok.injEq] at guards
  rw [found', guards]

theorem Same.temporal_iff (h : Same n m) {id : TemporalId} {c : TemporalConstraint} :
    m.temporal id = .ok c ↔ n.temporal id = .ok c :=
  ⟨h.symm.temporal, h.temporal⟩

theorem Same.episode_iff (h : Same n m) {id : EpisodeId} {e : Episode} :
    m.episode id = .ok e ↔ n.episode id = .ok e :=
  ⟨h.symm.episode, h.episode⟩

theorem Same.endpointSupport (h : Same n m) (start finish : EventId) :
    m.endpointSupport start finish = n.endpointSupport start finish := by
  simp only [Network.endpointSupport, support, h.guards]

end Network

end PlanNetwork
