/-
# What a traversal depends on

A traversal reads the episodes of a network, and where its temporal constraints
begin and end. Of what it finds, the guards of temporal constraints are written
and nothing else, so a second traversal meets the same as the first.

An operation that makes elements, or that changes the bounds of a constraint,
leaves alone what a traversal reads and also the guards that a traversal has
derived. This is what it means to retain a network.
-/

import PlanNetwork.Proofs.Network.Evolution
import PlanNetwork.Proofs.Network.Preservation
import PlanNetwork.Proofs.Network.Success

namespace PlanNetwork

variable {n m k : Network}

namespace Network

/-- A traversal of the one network is a traversal of the other. -/
structure Reads (n m : Network) : Prop where
  /-- Episodes are what they were. -/
  episode : ∀ {id e}, n.episode id = .ok e → m.episode id = .ok e
  /-- Temporal constraints are between the same events. -/
  temporal : ∀ {id c}, n.temporal id = .ok c →
    ∃ g b, m.temporal id = .ok { c with guard := g, bounds := b }

/-- Elements are what they were, apart from the bounds of temporal constraints. -/
structure Retains (n m : Network) : Prop where
  /-- Events are what they were. -/
  event : ∀ {id e}, n.event id = .ok e → m.event id = .ok e
  /-- Episodes are what they were. -/
  episode : ∀ {id e}, n.episode id = .ok e → m.episode id = .ok e
  /-- Temporal constraints are what they were, apart from their bounds. -/
  temporal : ∀ {id c}, n.temporal id = .ok c → ∃ b, m.temporal id = .ok { c with bounds := b }

/-- Nothing but guards of temporal constraints has been changed. -/
structure Reguards (n m : Network) : Prop where
  /-- The events are the same. -/
  events : m.events = n.events
  /-- The episodes are the same. -/
  episodes : m.episodes = n.episodes
  /-- The temporal constraints are the same apart from their guards. -/
  temporals : m.temporals.map TemporalConstraint.bare = n.temporals.map TemporalConstraint.bare

/-- A constraint applies exactly where both its events exist. -/
def Derived (n : Network) (id : TemporalId) : Prop :=
  ∃ c, n.temporal id = .ok c ∧ n.endpointSupport c.start c.finish = .ok c.guard.support

/-- What has not changed at all has been retained. -/
theorem Preserves.retains (h : Preserves n m) : Retains n m :=
  ⟨h.event, h.episode, fun {_ c} found => ⟨c.bounds, h.temporal found⟩⟩

namespace Retains

theorem refl (n : Network) : Retains n n := (Preserves.refl n).retains

theorem trans (first : Retains n m) (second : Retains m k) : Retains n k := by
  refine ⟨second.event ∘ first.event, second.episode ∘ first.episode, fun found => ?_⟩
  obtain ⟨_, found⟩ := first.temporal found
  obtain ⟨b, found⟩ := second.temporal found
  exact ⟨b, found⟩

theorem reads (h : Retains n m) : Reads n m := by
  refine ⟨h.episode, fun {id c} found => ?_⟩
  obtain ⟨b, found⟩ := h.temporal found
  exact ⟨c.guard, b, found⟩

theorem endpointSupport (h : Retains n m) {start finish : EventId} {s : Support}
    (found : n.endpointSupport start finish = .ok s) :
    m.endpointSupport start finish = .ok s := by
  have support {id : EventId} {s : Support} (found : n.support (.event id) = .ok s) :
      m.support (.event id) = .ok s := by
    obtain ⟨e, there, same⟩ := map_eq_ok_iff.mp (support_eq_ok_iff.mp found)
    exact support_eq_ok_iff.mpr (map_eq_ok_iff.mpr ⟨e, h.event there, same⟩)
  obtain ⟨first, second, starts, finishes, both⟩ := endpointSupport_eq_ok_iff.mp found
  exact endpointSupport_eq_ok_iff.mpr ⟨first, second, support starts, support finishes, both⟩

theorem derived (h : Retains n m) {id : TemporalId} (derived : n.Derived id) : m.Derived id := by
  obtain ⟨c, found, both⟩ := derived
  obtain ⟨b, found'⟩ := h.temporal found
  exact ⟨_, found', h.endpointSupport both⟩

end Retains

namespace Reguards

theorem refl (n : Network) : Reguards n n := ⟨rfl, rfl, rfl⟩

theorem trans (first : Reguards n m) (second : Reguards m k) : Reguards n k :=
  ⟨second.events.trans first.events, second.episodes.trans first.episodes,
    second.temporals.trans first.temporals⟩

theorem reads (h : Reguards n m) : Reads n m := by
  refine ⟨fun found => ?_, fun {id c} found => ?_⟩
  · rwa [Network.episode, h.episodes]
  · obtain ⟨c', found', stripped⟩ := lookup_map_strip h.temporals found
    refine ⟨c'.guard, c.bounds, found'.trans (congrArg Except.ok ?_)⟩
    calc c' = { c'.bare with guard := c'.guard } := rfl
      _ = { c.bare with guard := c'.guard } := by rw [stripped]

theorem endpointSupport (h : Reguards n m) (start finish : EventId) :
    m.endpointSupport start finish = n.endpointSupport start finish :=
  endpointSupport_congr h.events start finish

theorem note (n : Network) (element : Guarded) (g : Guard) : Reguards n (n.note element g) := by
  unfold Network.note
  cases n.journal with
  | none => exact refl n
  | some j => dsimp only; split <;> exact ⟨rfl, rfl, rfl⟩

theorem setGuard (n : Network) (id : TemporalId) (g : Guard) :
    Reguards n (n.setGuard (.temporal id) g) := by
  refine ⟨rfl, rfl, ?_⟩
  have absorbs : ∀ c : TemporalConstraint, { c with guard := g }.bare = c.bare := fun _ => rfl
  exact map_modify_of_absorbs absorbs

end Reguards

/-- The constraints of a list have been derived anew, and nothing else has been
changed. -/
structure Refreshed (ids : List TemporalId) (n m : Network) : Prop extends Reguards n m where
  /-- Those of the list apply where their events exist. -/
  inside : ∀ id ∈ ids, m.Derived id
  /-- Others are what they were. -/
  outside : ∀ id, id ∉ ids → m.temporal id = n.temporal id

end Network

open Network

namespace Edit

variable {α β : Type} {id : TemporalId}

/-! ## Refreshing constraints -/

theorem refreshTemporal_eq_ok_iff {u : Unit} : refreshTemporal id n = .ok u m ↔
    ∃ c s, n.temporal id = .ok c ∧ n.endpointSupport c.start c.finish = .ok s ∧
      m = (n.note (.temporal id) c.guard).setGuard (.temporal id) (.ofSupport s) := by
  unfold refreshTemporal
  simp only [Attempt.bind_eq_ok_iff, Attempt.read_eq_ok_iff, setSupport_eq_ok_iff]
  constructor
  · rintro ⟨c, _, ⟨found, rfl⟩, s, _, ⟨both, rfl⟩, g, there, _, rfl⟩
    obtain ⟨c', found', rfl⟩ := map_eq_ok_iff.mp there
    obtain rfl : c' = c := Except.ok.inj (found'.symm.trans found)
    exact ⟨c', s, found, both, rfl⟩
  · rintro ⟨c, s, found, both, rfl⟩
    obtain ⟨_, _, _, _, narrowed⟩ := endpointSupport_eq_ok_iff.mp both
    exact ⟨c, n, ⟨found, rfl⟩, s, n, ⟨both, rfl⟩, c.guard, map_eq_ok_iff.mpr ⟨c, found, rfl⟩,
      Support.isEmpty_eq_false_of_tryAnd narrowed, rfl⟩

theorem refreshed_refreshTemporal {u : Unit} (done : refreshTemporal id n = .ok u m) :
    Refreshed [id] n m := by
  obtain ⟨c, s, found, both, rfl⟩ := refreshTemporal_eq_ok_iff.mp done
  have reguards : Reguards n ((n.note (.temporal id) c.guard).setGuard (.temporal id) (.ofSupport s)) :=
    (Reguards.note n _ _).trans (.setGuard _ id _)
  have there : (n.note (.temporal id) c.guard).temporal id = .ok c := by
    rwa [temporal, temporals_note]
  refine ⟨reguards, fun other member => ?_, fun other apart => ?_⟩
  · obtain rfl := List.mem_singleton.mp member
    refine ⟨{ c with guard := .ofSupport s }, ?_, (reguards.endpointSupport ..).trans both⟩
    exact lookup_eq_ok_iff.mpr (getElem?_modify_self _ (lookup_eq_ok_iff.mp there))
  · have differ : id ≠ other := fun same => apart (List.mem_singleton.mpr same.symm)
    show lookup ((n.note _ _).temporals.modify _ _) other = _
    rw [lookup_modify_of_ne differ, temporals_note]
    rfl

theorem refreshed_each {ids : List TemporalId} {u : Unit}
    (done : Attempt.each refreshTemporal ids n = .ok u m) : Refreshed ids n m := by
  induction ids generalizing n with
  | nil =>
    obtain ⟨_, rfl⟩ := Attempt.pure_eq_ok_iff.mp done
    exact ⟨.refl m, nofun, fun _ _ => rfl⟩
  | cons first rest ih =>
    obtain ⟨_, k, once, later⟩ := Attempt.bind_eq_ok_iff.mp done
    have here := refreshed_refreshTemporal once
    have there := ih later
    refine ⟨here.toReguards.trans there.toReguards, fun other member => ?_, fun other apart => ?_⟩
    · by_cases again : other ∈ rest
      · exact there.inside other again
      · -- the later constraints are others, and no event changes with them
        obtain rfl : other = first := (List.mem_cons.mp member).resolve_right again
        obtain ⟨c, found, both⟩ := here.inside other (List.mem_singleton.mpr rfl)
        exact ⟨c, (there.outside other again).trans found,
          (there.toReguards.endpointSupport ..).trans both⟩
    · obtain ⟨differ, later⟩ := not_or.mp (List.mem_cons.not.mp apart)
      rw [there.outside other later, here.outside other (List.mem_singleton.not.mpr differ)]

theorem reguards_read (view : Network → Except Fault α) :
    n.Reguards ((Attempt.read view).after n) := by
  rw [Attempt.after_read]
  exact .refl n

/-- What is refused has noted the guard at most. -/
theorem reguards_setSupport (id : TemporalId) (s : Support) :
    n.Reguards ((setSupport (.temporal id) s).after n) := by
  refine Attempt.after_bind (R := Network.Reguards) .trans (reguards_read _) fun g m _ => ?_
  refine Attempt.after_bind (R := Network.Reguards) .trans (.note m _ g) fun _ m _ => ?_
  exact Attempt.after_bind (R := Network.Reguards) .trans (reguards_read _) fun _ m _ =>
    .setGuard m id _

theorem reguards_refreshTemporal (id : TemporalId) :
    n.Reguards ((refreshTemporal id).after n) := by
  refine Attempt.after_bind (R := Network.Reguards) .trans (reguards_read _) fun _ _ _ => ?_
  exact Attempt.after_bind (R := Network.Reguards) .trans (reguards_read _) fun s _ _ =>
    reguards_setSupport id s

theorem reguards_each (ids : List TemporalId) :
    n.Reguards ((Attempt.each refreshTemporal ids).after n) := by
  induction ids generalizing n with
  | nil => exact .refl n
  | cons id rest ih =>
    exact Attempt.after_bind (R := Network.Reguards) .trans (reguards_refreshTemporal id)
      fun _ _ _ => ih

theorem reguards_atomically (ids : List TemporalId) :
    n.Reguards ((atomically (Attempt.each refreshTemporal ids)).after n) :=
  after_atomically (follows_each (fun id _ => follows_refreshTemporal id) ids).of_error .trans
    (fun _ _ => reguards_each ids) (fun _ => ⟨rfl, rfl, rfl⟩) (fun _ => ⟨rfl, rfl, rfl⟩)
    fun _ _ => ⟨rfl, rfl, rfl⟩

theorem refreshed_atomically {ids : List TemporalId} {u : Unit}
    (done : atomically (Attempt.each refreshTemporal ids) n = .ok u m) : Refreshed ids n m := by
  rcases of_atomically_eq_ok done with plain | ⟨k, inner, rfl⟩
  · exact refreshed_each plain
  · obtain ⟨⟨events, episodes, temporals⟩, inside, outside⟩ := refreshed_each inner
    refine ⟨⟨events, episodes, temporals⟩, fun id member => ?_, outside⟩
    exact (Preserves.commit k).retains.derived (inside id member)

/-- Deriving constraints anew that are derived changes nothing. -/
theorem yields_refreshTemporal (derived : n.Derived id) (same : Same n k) :
    (refreshTemporal id).Yields k fun _ m => Same n m := by
  obtain ⟨c, found, both⟩ := derived
  have there := same.temporal found
  have guard : k.guard (.temporal id) = .ok c.guard := map_eq_ok_iff.mpr ⟨c, there, rfl⟩
  refine ⟨(), _, refreshTemporal_eq_ok_iff.mpr ⟨c, c.guard.support, there, ?_, rfl⟩, ?_⟩
  · rw [same.endpointSupport, both]
  · rw [← c.guard.eq_ofSupport]
    exact same.trans (same_setGuard guard)

theorem yields_refresh {ids : List TemporalId} (derived : ∀ id ∈ ids, n.Derived id) :
    (atomically (Attempt.each refreshTemporal ids)).Yields n fun _ m => Same n m := by
  refine yields_atomically (fun k same => ?_) fun _ m same => same.trans (same_commit m)
  refine Attempt.yields_each (fun id member k same => ?_) same
  exact yields_refreshTemporal (derived id member) same

/-! ## Operations that retain the network -/

/-- Whatever the outcome, the network is retained. -/
def Retains (op : Edit α) (n : Network) : Prop := Network.Retains n (op.after n)

theorem Preserves.retains {op : Edit α} (h : Preserves op n) : Retains op n :=
  Network.Preserves.retains h

theorem Retains.bind {op : Edit α} {next : α → Edit β} (first : Retains op n)
    (rest : ∀ a m, Retains (next a) m) : Retains (op >>= next) n :=
  Attempt.after_bind (R := Network.Retains) Network.Retains.trans first fun a m _ => rest a m

theorem retains_setBounds (id : TemporalId) (lower upper : Number) :
    Retains (setBounds id lower upper) n := by
  refine (preserves_read _).retains.bind fun _ _ => (preserves_ofExcept _).retains.bind fun _ m => ?_
  refine ⟨fun found => found, fun found => found, fun {other c} found => ?_⟩
  show ∃ b, lookup (m.temporals.modify _ _) other = _
  by_cases here : id = other
  · subst here
    exact ⟨_, lookup_eq_ok_iff.mpr (getElem?_modify_self _ (lookup_eq_ok_iff.mp found))⟩
  · rw [lookup_modify_of_ne here]
    exact ⟨c.bounds, found⟩

/-- Taking a constraint away is refused before any episode is changed. -/
theorem preserves_of_detachTemporal_eq_error {id : TemporalId} {fault : Fault}
    (refused : atomically (detachTemporal id) n = .error fault m) : n.Preserves m := by
  by_cases nested : n.journal.isSome = true
  · rw [atomically_of_nested nested] at refused
    rcases Attempt.bind_eq_error_iff.mp refused with stopped | ⟨lasting, _, read, rest⟩
    · obtain ⟨_, rfl⟩ := Attempt.read_eq_error_iff.mp stopped
      exact .refl m
    obtain ⟨_, rfl⟩ := Attempt.read_eq_ok_iff.mp read
    rcases Attempt.bind_eq_error_iff.mp rest with failed | ⟨_, _, _, changed⟩
    · exact (preserves_replacementDurations lasting).of_error failed
    · rcases Attempt.bind_eq_error_iff.mp changed with ⟨⟨⟩⟩ | ⟨_, _, _, ⟨⟨⟩⟩⟩
  · have steps (k : Network) (stopped : detachTemporal id n.checkpoint = .error fault k) :
        Trail (fun _ => True) n.checkpoint k :=
      trail_of_detachTemporal_eq_error stopped
    obtain ⟨later, _, rfl⟩ := atomically_eq_error (by simpa using nested) steps refused
    exact .withSerial n later

/-- An attachment is refused before anything is changed. -/
theorem attachState_eq_error {span : Span} {id : EpisodeId} {constraint : StateConstraintId}
    {fault : Fault} (refused : attachState span id constraint n = .error fault m) : m = n := by
  rcases Attempt.bind_eq_error_iff.mp refused with stopped | ⟨_, _, read, rest⟩
  · exact (Attempt.read_eq_error_iff.mp stopped).2
  obtain ⟨_, rfl⟩ := Attempt.read_eq_ok_iff.mp read
  rcases Attempt.bind_eq_error_iff.mp rest with stopped | ⟨_, _, _, ⟨⟨⟩⟩⟩
  exact (Attempt.read_eq_error_iff.mp stopped).2

end Edit

end PlanNetwork
