/-
# What propagation leaves of the valuations

An element can be narrowed to a support if some valuation meets its guard and the
support, and it is left with just these valuations. Propagation does this to every part
of an episode, so it is refused just where one of the parts has no valuation left. The
parts that came first have been narrowed by then, and are written back.

A part that is reached along several ways is narrowed several times. The support of its
guard may become another one each time, since intersecting a support with itself pairs
different conjunctions as well, but it goes on being met by the same valuations. With a
support of a single conjunction there is nothing to pair, and narrowing again leaves the
guard as it is.
-/

import PlanNetwork.Proofs.Composition.Survival
import PlanNetwork.Proofs.Program.Recursion

namespace PlanNetwork

open Network

variable {V : Vocabulary} {n m k : Network} {s t u : Support} {element : Guarded}
  {id : EpisodeId} {e : Episode} {fault : Fault}

/-! ## Intersecting twice -/

namespace Support

/-- A single conjunction has done all it can the first time. -/
theorem tryAnd_again (single : t.size = 1) (narrowed : s.tryAnd t = .ok u) :
    u.tryAnd t = .ok u := by
  obtain ⟨d, only⟩ := List.length_eq_one_iff.mp single
  have only : t.toList = [d] := only
  obtain ⟨nonempty, rfl⟩ := tryAnd_eq_ok_iff.mp narrowed
  have idle : ∀ m ∈ (s.and t).toList, t.toList.filterMap m.and? = [m] := by
    intro m member
    obtain ⟨d', inside, covers⟩ := refines_and_right s t m member
    obtain rfl : d' = d := List.mem_singleton.mp (only ▸ inside)
    have same : m.merge d' = m := congrArg Conjunction.mk (OrdSet.insertAll_eq_self covers)
    rw [only, List.filterMap_cons, Conjunction.and?_eq, same,
      if_pos (isSatisfiable_of_mem_and member)]
    rfl
  have again : (s.and t).and t = s.and t := by
    calc (s.and t).and t = ofList ((s.and t).toList.flatMap fun m => [m]) :=
          congrArg ofList (List.flatMap_congr idle)
      _ = ofList (s.and t).toList := congrArg ofList (List.flatMap_singleton' _)
      _ = s.and t := congrArg mk (s.and t).conjunctions.ofList_toList
  exact tryAnd_eq_ok_iff.mpr ⟨again.symm ▸ nonempty, again.symm⟩

/-- Narrowing leaves something that can be met. -/
theorem exists_holds_of_tryAnd (left : s.Within V) (right : t.Within V)
    (narrowed : s.tryAnd t = .ok u) : ∃ v : Valuation V, s.Holds v ∧ t.Holds v := by
  by_contra nothing
  have empty := (isEmpty_and_iff left right).mpr fun v both => nothing ⟨v, both⟩
  rw [(tryAnd_eq_ok_iff.mp narrowed).1] at empty
  cases empty

end Support

/-! ## Narrowing -/

namespace Network

/-- Under some valuation the element occurs and the support holds. -/
def Compatible (V : Vocabulary) (n : Network) (s : Support) (element : Guarded) : Prop :=
  ∃ v : Valuation V, n.Occurs v element ∧ s.Holds v

end Network

namespace Edit

theorem compatible_of_narrow {x : Unit} (done : narrow element s n = .ok x m) (speaks : n.Speaks V)
    (within : s.Within V) : n.Compatible V s element := by
  obtain ⟨old, new, found, narrowed, _⟩ := narrow_eq_ok_iff.mp done
  obtain ⟨v, before, holds⟩ :=
    Support.exists_holds_of_tryAnd (speaks.support found) within narrowed
  exact ⟨v, ⟨old, found, before⟩, holds⟩

theorem not_compatible_of_narrow (there : n.Has element)
    (refused : narrow element s n = .error fault m) (speaks : n.Speaks V)
    (within : s.Within V) : ¬ n.Compatible V s element := by
  obtain ⟨_, old, found, empty, _⟩ := of_narrow_eq_error there refused
  rintro ⟨v, occurs, holds⟩
  exact (Support.isEmpty_and_iff (speaks.support found) within).mp empty v
    ⟨(occurs_iff_of_support found).mp occurs, holds⟩

/-! ## Narrowing one after the other -/

theorem compatible_of_each_narrow {L : List Guarded} {x : Unit}
    (done : Attempt.each (narrow · s) L n = .ok x m) (speaks : n.Speaks V)
    (within : s.Within V) : ∀ element ∈ L, n.Compatible V s element := by
  induction L generalizing n with
  | nil => exact fun _ => nofun
  | cons part rest ih =>
    obtain ⟨_, k, first, later⟩ := Attempt.bind_eq_ok_iff.mp done
    have step := sparesUnder_narrow first speaks within
    have here := compatible_of_narrow first speaks within
    refine List.forall_mem_cons.mpr ⟨here, fun element member => ?_⟩
    obtain ⟨v, occurs, holds⟩ := ih later step.speaks element member
    exact ⟨v, ((occurs_narrow_iff first speaks within).mp occurs).1, holds⟩

/-- If narrowing is refused, then for one of the elements, and it is not because of those
that came first: what they have been narrowed to is only the support itself. -/
theorem of_each_narrow_eq_error {L : List Guarded} (there : ∀ element ∈ L, n.Has element)
    (refused : Attempt.each (narrow · s) L n = .error fault m) (speaks : n.Speaks V)
    (within : s.Within V) : m.bare = n.bare ∧ (∃ old, fault = .inconsistent ⟨old, s⟩) ∧
      ∃ element ∈ L, ¬ n.Compatible V s element := by
  induction L generalizing n with
  | nil => cases refused
  | cons part rest ih =>
    obtain ⟨has, others⟩ := List.forall_mem_cons.mp there
    rcases Attempt.bind_eq_error_iff.mp refused with failed | ⟨_, k, first, later⟩
    · obtain ⟨same, old, _, _, clash⟩ := of_narrow_eq_error has failed
      exact ⟨same, ⟨old, clash⟩, part, List.mem_cons_self ..,
        not_compatible_of_narrow has failed speaks within⟩
    · have same : k.bare = n.bare := Attempt.after_of_ok first ▸ bare_changeGuard _ _ n
      obtain ⟨same', clash, element, member, apart⟩ :=
        ih (fun element member => Grows.has_of_bare same (others element member)) later
          (sparesUnder_narrow first speaks within).speaks
      refine ⟨same'.trans same, clash, element, List.mem_cons_of_mem _ member, ?_⟩
      rintro ⟨v, occurs, holds⟩
      exact apart ⟨v, (occurs_narrow_iff first speaks within).mpr ⟨occurs, fun _ => holds⟩, holds⟩

/-! ## Propagation -/

theorem compatible_of_propagate {x : Unit} (done : propagate id s n = .ok x m)
    (speaks : n.Speaks V) (within : s.Within V) :
    ∀ element ∈ n.parts id, n.Compatible V s element := by
  obtain ⟨n', m', begins, narrows, _⟩ := exists_each_of_propagate done
  intro element part
  obtain ⟨v, occurs, holds⟩ :=
    compatible_of_each_narrow narrows (speaks.of_same begins) within element part
  exact ⟨v, begins.occurs_iff.mp occurs, holds⟩

/-- If propagation is refused, then for a part that no valuation is left of, and nothing
has changed, not even a serial number. -/
theorem of_propagate_eq_error (idle : n.journal = none) (whole : n.WellFormed)
    (found : n.episode id = .ok e) (refused : propagate id s n = .error fault m)
    (speaks : n.Speaks V) (within : s.Within V) :
    m = n ∧ (∃ old, fault = .inconsistent ⟨old, s⟩) ∧
      ∃ element ∈ n.parts id, ¬ n.Compatible V s element := by
  rw [propagate_eq found, atomically_of_idle idle] at refused
  obtain ⟨k, stopped, rfl⟩ := Attempt.bracket_eq_error_iff.mp refused
  have begins : Same n n.checkpoint := same_checkpoint n
  have trail : Trail (fun _ => True) n.checkpoint k :=
    (follows_each (fun _ _ => follows_narrow _ s) _).of_error stopped
  have there : ∀ element ∈ n.parts id, n.checkpoint.Has element := fun element part =>
    Grows.has_of_bare begins.bare (whole.has_of_mem_parts part)
  obtain ⟨same, clash, element, part, apart⟩ :=
    of_each_narrow_eq_error there stopped (speaks.of_same begins) within
  have serial : k.bare.nextSerial = n.checkpoint.bare.nextSerial := congrArg Network.nextSerial same
  refine ⟨?_, clash, element, part, ?_⟩
  · calc k.rollback = (n.withSerial k.nextSerial).commit := trail.rollback_eq.1
      _ = n.commit := congrArg (fun later => (n.withSerial later).commit) serial
      _ = n := commit_of_journal_eq_none idle
  · rintro ⟨v, occurs, holds⟩
    exact apart ⟨v, begins.occurs_iff.mpr occurs, holds⟩

theorem journal_of_propagate {x : Unit} (idle : n.journal = none)
    (done : propagate id s n = .ok x m) : m.journal = none := by
  have trail : Trail (fun _ => True) n m := (follows_propagate id s).of_ok done
  exact trail.journal_eq_none idle

/-- What has been narrowed can be narrowed again. -/
theorem propagate_again {x : Unit} (idle : n.journal = none) (whole : n.WellFormed)
    (found : n.episode id = .ok e) (done : propagate id s n = .ok x m) (speaks : n.Speaks V)
    (within : s.Within V) : ∃ m', propagate id s m = .ok () m' := by
  have narrowed := narrowed_propagate done
  obtain ⟨g, found'⟩ := episode_of_bare narrowed.bare found
  cases again : propagate id s m with
  | ok _ m' => exact ⟨m', rfl⟩
  | error fault m' =>
    obtain ⟨_, _, element, part, apart⟩ := of_propagate_eq_error (journal_of_propagate idle done)
      (whole.of_bare narrowed.bare) found' again (sparesUnder_propagate done speaks within).speaks
      within
    rw [parts_of_bare narrowed.bare] at part
    obtain ⟨v, occurs, holds⟩ := compatible_of_propagate done speaks within element part
    exact absurd ⟨v, (occurs_propagate_iff done speaks within).mpr ⟨occurs, fun _ => holds⟩, holds⟩
      apart

/-- Propagating a single conjunction again changes nothing. -/
theorem eq_of_propagate_again {x y : Unit} (single : s.size = 1) (idle : n.journal = none)
    (found : n.episode id = .ok e) (done : propagate id s n = .ok x m)
    (again : propagate id s m = .ok y k) : k = m := by
  have narrowed := narrowed_propagate done
  obtain ⟨g, found'⟩ := episode_of_bare narrowed.bare found
  have settled : ∀ element ∈ m.parts id, ∃ u, m.support element = .ok u ∧ u.tryAnd s = .ok u := by
    intro element part
    rw [parts_of_bare narrowed.bare] at part
    obtain ⟨old, new, result, there⟩ := narrowed.inside element part
    exact ⟨new, there, Support.tryAnd_again single result⟩
  have once : NarrowedOnce s (m.parts id) m k := by
    refine (yields_propagate found' fun element part => ?_).of_eq_ok again
    obtain ⟨u, there, same⟩ := settled element part
    exact ⟨u, u, there, same, same⟩
  refine Same.eq ⟨once.bare, fun element => ?_⟩ ?_
  · by_cases part : element ∈ m.parts id
    · obtain ⟨u, there, same⟩ := settled element part
      rw [support_eq_ok_iff.mp there, support_eq_ok_iff.mp (once.inside part there same)]
    · exact once.outside element part
  · have between := journal_of_propagate idle done
    rw [journal_of_propagate between again, between]

end Edit

end PlanNetwork
