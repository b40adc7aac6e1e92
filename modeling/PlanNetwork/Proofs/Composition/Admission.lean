/-
# When links and durations can be had

If the guards of a network hold nothing that cannot be met, then every element exists under
some valuation of the choices. A link applies where both its events exist. It can be had if
and only if both exist under some valuation, and otherwise it is refused for their supports
alone. An episode is put between two events on the same condition, provided that its
duration can be resolved: the end is counted twice in the support of the duration, but this
takes no valuation away.
-/

import PlanNetwork.Proofs.Composition.Exactness
import PlanNetwork.Proofs.Composition.Literals
import PlanNetwork.Proofs.Composition.Made
import PlanNetwork.Proofs.Program.Propagation
import PlanNetwork.Proofs.Program.Viability
import PlanNetwork.Proofs.Support.Product

namespace PlanNetwork

open Network

variable {V : Vocabulary} {n m : Network} {start finish : EventId} {bounds : Bounds}
  {fault : Fault} {s t : Support}

/-- Supports that hold together can be narrowed to each other. -/
theorem Support.tryAnd_of_holds {v : Valuation V} (hs : s.Within V) (ht : t.Within V)
    (left : s.Holds v) (right : t.Holds v) : s.tryAnd t = .ok (s.and t) := by
  refine tryAnd_eq_ok_iff.mpr ⟨?_, rfl⟩
  rw [← Bool.not_eq_true, isEmpty_and_iff hs ht]
  exact fun nothing => nothing v ⟨left, right⟩

namespace Network

/-! ## Guards that are in order -/

/-- The guards speak of the choices of the network and of their values only, and every
conjunction in them can be met. -/
structure Sensible (n : Network) : Prop where
  /-- No other choices or values are spoken of. -/
  live : ∀ element g, n.guard element = .ok g → g.support.Only n.Live
  /-- Every conjunction passes the check. -/
  met : ∀ element g, n.guard element = .ok g → ∀ c ∈ g.support.toList, c.isSatisfiable = true

theorem Sensible.uses (sensible : n.Sensible) (suits : V.Suits n) : n.Uses (Literal.Within V) :=
  Uses.mono ⟨offers_live n, sensible.live⟩ fun _ live => live.within suits

/-- No guard is without conjunctions in a network that has come about. -/
theorem Sensible.viable (sensible : n.Sensible)
    (reachable : n.Reachable ∨ ∃ p : Program, p.Reachable .free ∧ p.network = n) : n.Viable :=
  fun element g found => ⟨Support.filled_iff.mp (filled_of_reachable reachable element g found),
    sensible.met element g found⟩

/-- A key stands for one choice of the network. -/
theorem Keyed.unambiguous (keyed : n.Keyed) : Literal.Unambiguous n.Live := by
  rintro a b ⟨id, data, found, same, _⟩ ⟨id', data', found', same', _⟩ key
  rw [← same, ← same'] at key ⊢
  obtain rfl := keyed.distinct found found' key
  rw [Except.ok.inj (found.symm.trans found')]

theorem Viable.of_same (viable : n.Viable) (same : Same n m) : m.Viable :=
  Guards.of_guards viable same.guards

/-- What can exist does so under some valuation. -/
theorem Viable.exists_occurs {x : Guarded} (viable : n.Viable) (speaks : n.Speaks V)
    (there : n.Has x) : ∃ v : Valuation V, n.Occurs v x := by
  obtain ⟨g, found⟩ := there
  obtain ⟨some, all⟩ := viable x g found
  obtain ⟨c, member⟩ := List.exists_mem_of_ne_nil _ some
  obtain ⟨v, holds⟩ :=
    Conjunction.exists_holds_of_isSatisfiable (speaks x g found c member) (all c member)
  exact ⟨v, g.support, map_eq_ok_iff.mpr ⟨g, found, rfl⟩, c, member, holds⟩

/-! ## Events that exist together -/

/-- Under some valuation both events exist. -/
def Together (V : Vocabulary) (n : Network) (start finish : EventId) : Prop :=
  ∃ v : Valuation V, n.Occurs v (.event start) ∧ n.Occurs v (.event finish)

/-- The supports of both events can be narrowed to each other if there is a valuation for
both. -/
theorem Together.exists_tryAnd (together : n.Together V start finish) (speaks : n.Speaks V) :
    ∃ s t, n.support (.event start) = .ok s ∧ n.support (.event finish) = .ok t ∧
      s.tryAnd t = .ok (s.and t) := by
  obtain ⟨v, ⟨s, starts, holds⟩, t, finishes, holds'⟩ := together
  exact ⟨s, t, starts, finishes,
    Support.tryAnd_of_holds (speaks.support starts) (speaks.support finishes) holds holds'⟩

end Network

namespace Edit

/-! ## Links -/

theorem yields_link_of_together (together : n.Together V start finish) (speaks : n.Speaks V)
    (bounds : Bounds) : (link start finish bounds).Yields n fun id m => Adds n m ∧
      ∀ v : Valuation V, m.Occurs v (.temporal id) ↔
        n.Occurs v (.event start) ∧ n.Occurs v (.event finish) := by
  obtain ⟨s, t, starts, finishes, both⟩ := together.exists_tryAnd speaks
  refine (yields_link bounds starts finishes both).mono fun id m ⟨added, _, support, _⟩ =>
    ⟨added, fun v => ?_⟩
  rw [occurs_iff_of_support support, occurs_iff_of_support starts, occurs_iff_of_support finishes,
    Support.holds_and (speaks.support starts) (speaks.support finishes)]

/-- A link between events that are there is refused for the supports of both, and only if
they have no valuation in common. -/
theorem of_link_eq_error (starts : n.Has (.event start)) (finishes : n.Has (.event finish))
    (refused : link start finish bounds n = .error fault m) (speaks : n.Speaks V) :
    (∃ clash, fault = .inconsistent clash) ∧ ¬ n.Together V start finish := by
  refine ⟨?_, fun together => (yields_link_of_together together speaks bounds).ne_error refused⟩
  obtain ⟨s, starts⟩ := starts.exists_support
  obtain ⟨t, finishes⟩ := finishes.exists_support
  cases both : s.tryAnd t with
  | ok u => exact absurd refused (yields_link bounds starts finishes both).ne_error
  | error clash =>
    have ends : n.endpointSupport start finish = .error (.inconsistent clash) := by
      simp only [Network.endpointSupport, starts, finishes]
      exact refuseClash_eq_error_iff.mpr ⟨clash, both, rfl⟩
    rcases Attempt.bind_eq_error_iff.mp refused with stopped | ⟨_, _, read, _⟩
    · rw [Attempt.read_eq_error_iff, ends] at stopped
      exact ⟨clash, (Except.error.inj stopped.1).symm⟩
    · rw [Attempt.read_eq_ok_iff, ends] at read
      cases read.1

/-! ## Durations -/

theorem yields_addDuration_of_together {spec : DurationSpec} (resolved : spec.resolve = .ok bounds)
    (together : n.Together V start finish) (speaks : n.Speaks V) :
    (addDuration start finish spec).Yields n fun _ _ => True := by
  obtain ⟨v, ⟨s, starts, holds⟩, t, finishes, holds'⟩ := together
  have left := speaks.support starts
  have right := speaks.support finishes
  have both := Support.tryAnd_of_holds left right holds holds'
  have again : (s.and t).tryAnd t = .ok ((s.and t).and t) := by
    refine Support.tryAnd_of_holds (left.and right) right ?_ holds'
    exact (Support.holds_and left right v).mpr ⟨holds, holds'⟩
  refine ⟨_, _, addDuration_eq_ok_iff.mpr ⟨bounds, _, t, _, resolved,
    endpointSupport_eq_ok_iff.mpr ⟨s, t, starts, finishes, both⟩, finishes, again,
    Support.isEmpty_eq_false_of_tryAnd again, rfl, rfl⟩, trivial⟩

/-- A composite can be put between events that exist under one valuation. -/
theorem yields_addComposite_of_together {options : CompositionOptions}
    (resolved : (options.duration.getD .unconstrained).resolve = .ok bounds)
    (together : n.Together V start finish) (uses : n.Uses (Literal.Within V))
    (composition : Composition) (constraints : List TemporalId) (terminal : Bool) :
    (addComposite options start finish composition constraints terminal).Yields n
      fun _ _ => True := by
  have numbered : (allocateAs "Episode" options.id options.name).Yields n
      fun _ k => k = n.withSerial (n.nextSerial + 1) :=
    ⟨_, _, allocateAs_eq_ok_iff.mpr ⟨rfl, rfl⟩, rfl⟩
  refine numbered.bind fun identity k counted => ?_
  subst counted
  obtain ⟨v, ⟨s, starts, holds⟩, t, finishes, holds'⟩ := together
  obtain ⟨first, found⟩ := exists_event_of_support starts
  obtain ⟨last, found'⟩ := exists_event_of_support finishes
  refine Attempt.yields_read found (Attempt.yields_read found' ?_)
  refine (yields_addDuration_of_together resolved ?_ (uses.withSerial _).speaks).bind
    fun duration m _ => ⟨_, _, pushEpisode_eq_ok_iff.mpr ⟨rfl, rfl⟩, trivial⟩
  have added := adds_withSerial (Nat.le_succ n.nextSerial)
  exact ⟨v, ⟨s, added.support starts, holds⟩, t, added.support finishes, holds'⟩

end Edit

end PlanNetwork
