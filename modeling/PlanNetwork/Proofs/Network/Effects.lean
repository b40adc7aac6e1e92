/-
# What the elementary operations do

An operation that changes a guard notes the old one and writes the new one; an
operation that makes an element puts it behind the others. The lemmas say when
such an operation succeeds and what the network is then.
-/

import PlanNetwork.Network.Revision
import PlanNetwork.Proofs.Attempt
import PlanNetwork.Proofs.Network.Guards

namespace PlanNetwork

open Network

namespace Edit

variable {n m : Network} {element : Guarded}

theorem allocate_eq_ok_iff {kind : String} {identity : Identity} :
    allocate kind n = .ok identity m ↔
      identity = .fresh kind n.nextSerial ∧ m = n.withSerial (n.nextSerial + 1) := by
  show EStateM.Result.ok _ _ = _ ↔ _
  rw [EStateM.Result.ok.injEq]
  exact and_congr eq_comm eq_comm

theorem allocateAs_eq_ok_iff {kind : String} {id name : Option String} {identity : Identity} :
    allocateAs kind id name n = .ok identity m ↔
      identity = (Identity.fresh kind n.nextSerial).override id name ∧
        m = n.withSerial (n.nextSerial + 1) := by
  show EStateM.Result.ok _ _ = _ ↔ _
  rw [EStateM.Result.ok.injEq]
  exact and_congr eq_comm eq_comm

/-! ## Guards -/

theorem changeGuard_eq_ok_iff {change : Guard → Except Clash Guard} {u : Unit} :
    changeGuard element change n = .ok u m ↔ ∃ old new, n.guard element = .ok old ∧
      change old = .ok new ∧ m = (n.note element old).setGuard element new := by
  unfold changeGuard
  simp only [Attempt.bind_eq_ok_iff, Attempt.read_eq_ok_iff, Attempt.modify_eq_ok_iff,
    Attempt.ofExcept_eq_ok_iff, refuseClash_eq_ok_iff]
  constructor
  · rintro ⟨old, _, ⟨found, rfl⟩, _, _, rfl, new, _, ⟨changed, rfl⟩, rfl⟩
    exact ⟨old, new, found, changed, rfl⟩
  · rintro ⟨old, new, found, changed, rfl⟩
    exact ⟨old, n, ⟨found, rfl⟩, (), _, rfl, new, _, ⟨changed, rfl⟩, rfl⟩

theorem narrow_eq_ok_iff {s : Support} {u : Unit} :
    narrow element s n = .ok u m ↔ ∃ old new, n.support element = .ok old ∧
      old.tryAnd s = .ok new ∧ m = (n.note element (.ofSupport old)).setGuard element (.ofSupport new) := by
  simp only [narrow, changeGuard_eq_ok_iff, Guard.and_eq_ok_iff, support_eq_ok_iff]
  constructor
  · rintro ⟨g, _, found, ⟨new, narrowed, rfl⟩, rfl⟩
    rw [g.eq_ofSupport] at found ⊢
    exact ⟨g.support, new, found, narrowed, rfl⟩
  · rintro ⟨old, new, found, narrowed, rfl⟩
    exact ⟨.ofSupport old, _, found, ⟨new, narrowed, rfl⟩, rfl⟩

theorem setSupport_eq_ok_iff {s : Support} {u : Unit} :
    setSupport element s n = .ok u m ↔ ∃ old, n.guard element = .ok old ∧
      s.isEmpty = false ∧ m = (n.note element old).setGuard element (.ofSupport s) := by
  simp only [setSupport, changeGuard_eq_ok_iff, Guard.set_eq_ok_iff]
  constructor
  · rintro ⟨old, _, found, ⟨some, rfl⟩, rfl⟩
    exact ⟨old, found, some, rfl⟩
  · rintro ⟨old, found, some, rfl⟩
    exact ⟨old, _, found, ⟨some, rfl⟩, rfl⟩

/-! ## New elements -/

theorem pushEvent_eq_ok_iff {e : Event} {id : EventId} :
    pushEvent e n = .ok id m ↔
      id = ⟨n.events.size⟩ ∧ m = { n with events := n.events.push e } := by
  show EStateM.Result.ok _ _ = _ ↔ _
  rw [EStateM.Result.ok.injEq]
  exact and_congr eq_comm eq_comm

theorem pushEpisode_eq_ok_iff {e : Episode} {id : EpisodeId} :
    pushEpisode e n = .ok id m ↔
      id = ⟨n.episodes.size⟩ ∧ m = { n with episodes := n.episodes.push e } := by
  show EStateM.Result.ok _ _ = _ ↔ _
  rw [EStateM.Result.ok.injEq]
  exact and_congr eq_comm eq_comm

theorem pushTemporal_eq_ok_iff {c : TemporalConstraint} {id : TemporalId} :
    pushTemporal c n = .ok id m ↔
      id = ⟨n.temporals.size⟩ ∧ m = { n with temporals := n.temporals.push c } := by
  show EStateM.Result.ok _ _ = _ ↔ _
  rw [EStateM.Result.ok.injEq]
  exact and_congr eq_comm eq_comm

/-- The network with one more temporal constraint, whose serial number is the
next one. -/
def withLink (n : Network) (start finish : EventId) (bounds : Bounds) (s : Support) : Network :=
  { n with
    temporals := n.temporals.push
      ⟨.fresh "TemporalConstraint" n.nextSerial, .ofSupport s, start, finish, bounds⟩
    nextSerial := n.nextSerial + 1 }

theorem size_withLink {start finish : EventId} {bounds : Bounds} {s : Support} :
    (withLink n start finish bounds s).temporals.size = n.temporals.size + 1 :=
  Array.size_push _

theorem linkUnder_eq_ok_iff {start finish : EventId} {bounds : Bounds} {s : Support}
    {id : TemporalId} :
    linkUnder start finish bounds s n = .ok id m ↔ s.isEmpty = false ∧
      id = ⟨n.temporals.size⟩ ∧ m = withLink n start finish bounds s := by
  unfold linkUnder
  simp only [Attempt.bind_eq_ok_iff, Attempt.ofExcept_eq_ok_iff, refuseClash_eq_ok_iff,
    Guard.set_eq_ok_iff, allocate_eq_ok_iff, pushTemporal_eq_ok_iff]
  constructor
  · rintro ⟨_, _, ⟨⟨some, rfl⟩, rfl⟩, _, _, ⟨rfl, rfl⟩, rfl, rfl⟩
    exact ⟨some, rfl, rfl⟩
  · rintro ⟨some, rfl, rfl⟩
    exact ⟨_, _, ⟨⟨some, rfl⟩, rfl⟩, _, _, ⟨rfl, rfl⟩, rfl, rfl⟩

theorem link_eq_ok_iff {start finish : EventId} {bounds : Bounds} {id : TemporalId} :
    link start finish bounds n = .ok id m ↔ ∃ s, n.endpointSupport start finish = .ok s ∧
      s.isEmpty = false ∧ id = ⟨n.temporals.size⟩ ∧ m = withLink n start finish bounds s := by
  unfold link
  simp only [Attempt.bind_eq_ok_iff, Attempt.read_eq_ok_iff, linkUnder_eq_ok_iff]
  constructor
  · rintro ⟨s, _, ⟨found, rfl⟩, rest⟩
    exact ⟨s, found, rest⟩
  · rintro ⟨s, found, rest⟩
    exact ⟨s, n, ⟨found, rfl⟩, rest⟩

/-- The duration of an episode exists where both its events do, and its end does
once more. -/
theorem addDuration_eq_ok_iff {start finish : EventId} {spec : DurationSpec} {id : TemporalId} :
    addDuration start finish spec n = .ok id m ↔ ∃ bounds both last s, spec.resolve = .ok bounds ∧
      n.endpointSupport start finish = .ok both ∧ n.support (.event finish) = .ok last ∧
      both.tryAnd last = .ok s ∧ s.isEmpty = false ∧ id = ⟨n.temporals.size⟩ ∧
      m = withLink n start finish bounds s := by
  unfold addDuration
  simp only [Attempt.bind_eq_ok_iff, Attempt.ofExcept_eq_ok_iff, Attempt.read_eq_ok_iff,
    refuseClash_eq_ok_iff, linkUnder_eq_ok_iff]
  constructor
  · rintro ⟨bounds, _, ⟨resolved, rfl⟩, both, _, ⟨ends, rfl⟩, last, _, ⟨closes, rfl⟩, s, _,
      ⟨narrowed, rfl⟩, rest⟩
    exact ⟨bounds, both, last, s, resolved, ends, closes, narrowed, rest⟩
  · rintro ⟨bounds, both, last, s, resolved, ends, closes, narrowed, rest⟩
    exact ⟨bounds, n, ⟨resolved, rfl⟩, both, n, ⟨ends, rfl⟩, last, n, ⟨closes, rfl⟩, s, n,
      ⟨narrowed, rfl⟩, rest⟩

end Edit

end PlanNetwork
